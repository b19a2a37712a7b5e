import Xv6.Fs.Boot
import Xv6.Fs.Mkfs

/-!
# The hole in the root directory

`mkfs` rounds the root directory's size up to the next block boundary, past the last entry.
When the entries exactly fill their blocks, that is when `files.length + 2` is a multiple of
`BSIZE / DIRENTSIZE = 32`, the size covers one more block, which has no address
(`Mkfs.mkfs_root_hole_iff`). The kernel's `bmap` allocates a block the first time a read
reaches it:

* outside a transaction, as `fileread` runs, `log_write` panics: `open("/")` followed by a
  `read` past the entries crashes the kernel (`mkfs_root_hole_read_panics`);
* inside a transaction, as `dirlookup` scans the root for a name it does not hold, the
  block is allocated and logged with its bitmap bit, but only the in-memory inode records
  its address: `bmap` has no `iupdate` and `readi` does not call one
  (`sysChdir_root_hole`). After the commit the disk marks a block that no inode names,
  and the cached root, unlocked, differs from its dinode.
-/

namespace Xv6

namespace Kernel

variable {k : Kernel} {f : Fin NFILE}

/-- `fileread` of a file whose range reaches a hole, outside a transaction: the blocks before
the hole are read, and at the hole `balloc`'s `log_write` panics. -/
theorem fileread_hole_outside {n : Int} {h b : Nat} (hrd : (k.file f).readable = true)
    (hty : (k.file f).type = .inode) (href : 1 ≤ (k.fs.inode (k.file f).ip).ref)
    (hvalid : (k.fs.inode (k.file f).ip).valid = true)
    (hdev : (k.fs.inode (k.file f).ip).type ≠ T_DEV)
    (hoff : (k.file f).off < (k.fs.inode (k.file f).ip).size) (hn : 0 < n) (hn31 : n < 2 ^ 31)
    (hwrap : (k.file f).off + n.toNat < 2 ^ 32)
    (hh : h < NDIRECT) (ha : (k.fs.inode (k.file f).ip).addrs h = 0)
    (hmap : ∀ j, (k.file f).off / BSIZE ≤ j → j < h → (k.fs.inode (k.file f).ip).addrs j ≠ 0)
    (hlo : (k.file f).off / BSIZE ≤ h) (hsize : h * BSIZE < (k.fs.inode (k.file f).ip).size)
    (hreach : h * BSIZE < (k.file f).off + n.toNat)
    (hb : k.fs.freeBlock = some b) (h0 : k.fs.log.outstanding = 0)
    (hlog : k.fs.log.lh.n < LOGSIZE) (hsz : k.fs.log.lh.n + 1 < k.fs.log.size) :
    k.fileread f n = .error "log_write outside of trans" := by
  have hu : toUint32 n = n.toNat := by unfold toUint32; omega
  rw [fileread, if_neg (by simp [hrd]), if_pos hty]
  simp only [Fs.ilock_valid href hvalid, Except.ok_bind, hu]
  rw [Fs.readi_hole_outside (s := k.fs.setInode (k.file f).ip { k.fs.inode (k.file f).ip with busy := true })
    (by simpa using hdev) (by simpa using hoff) (by omega) hwrap hh
    (by simpa using ha) (fun j hj1 hj2 => by simpa using hmap j hj1 hj2) hlo (by simpa using hsize)
    hreach (by simpa [Fs.freeBlock] using hb) h0 hlog hsz]
  rfl

end Kernel

namespace Mkfs

/-- The root directory of an image whose entries fill their blocks: block `h` of the root,
the one after the entries, is below its size and has no address. -/
theorem mkfs_root_hole {files : List InputFile} {img : Image} (hmk : mkfs files = .ok img)
    (hn : files.length + 1 < NINODES) (hhole : (files.length + 2) % (BSIZE / DIRENTSIZE) = 0) :
    (img.dinode ROOTINO).type = T_DIR ∧
      DIRENTSIZE * (files.length + 2) / BSIZE < NDIRECT ∧
      DIRENTSIZE * (files.length + 2) / BSIZE * BSIZE = DIRENTSIZE * (files.length + 2) ∧
      (img.dinode ROOTINO).size = DIRENTSIZE * (files.length + 2) + BSIZE ∧
      (img.dinode ROOTINO).addrs (DIRENTSIZE * (files.length + 2) / BSIZE) = 0 ∧
      ∀ j < DIRENTSIZE * (files.length + 2) / BSIZE, (img.dinode ROOTINO).addrs j ≠ 0 := by
  obtain ⟨htype, hsize, haddrs⟩ := mkfs_root hmk hn
  have hk : NINODES = 200 := rfl
  -- the entries end on a block boundary, so `blocksFor` counts exactly their blocks
  have hblocks : blocksFor (DIRENTSIZE * (files.length + 2)) =
      DIRENTSIZE * (files.length + 2) / BSIZE := by
    unfold blocksFor DIRENTSIZE DIRSIZ BSIZE at *; omega
  refine ⟨htype, ?_, ?_, ?_, ?_, fun j hj => (haddrs j).2 (hblocks ▸ hj)⟩
  · unfold DIRENTSIZE DIRSIZ BSIZE NDIRECT; omega
  · unfold DIRENTSIZE DIRSIZ BSIZE at *; omega
  · rw [hsize]; unfold DIRENTSIZE DIRSIZ BSIZE at *; omega
  · have := haddrs (DIRENTSIZE * (files.length + 2) / BSIZE)
    rw [hblocks] at this
    simpa using this

end Mkfs

open Mkfs in
/-- On the image `mkfs` builds for files whose entries fill the root's blocks, a process of
`init`'s kernel opens "/" and reads past the entries: the kernel panics in `log_write`. -/
theorem mkfs_root_hole_read_panics {files : List InputFile} {img : Image}
    (hmk : mkfs files = .ok img) (hn : files.length + 1 < NINODES)
    (hhole : (files.length + 2) % (BSIZE / DIRENTSIZE) = 0)
    (hfree : ∃ b < FSSIZE, img.bitmap b = false) {devsw : Nat → Devsw} {p : Caller}
    (hpath : p.argstr 0 = some ['/'.toUInt8]) (hmode : p.argint 1 = some 0)
    (hfd : p.ofile fdZero = none) :
    ∃ k₁ p₁, (Kernel.init sb devsw img).sysOpen p = .ok (0, k₁, p₁) ∧
      ∀ (q : Caller) (n : Int) (addr : Nat), q.ofile = p₁.ofile → q.argint 0 = some 0 →
        q.argint 2 = some n → q.argptr 1 n = some addr →
        DIRENTSIZE * (files.length + 2) < n → n < 2 ^ 31 →
        k₁.sysRead q = .error "log_write outside of trans" := by
  obtain ⟨htype, hh, hhb, hsize, ha, hmap⟩ := mkfs_root_hole hmk hn hhole
  refine ⟨_, _, Kernel.sysOpen_root hpath hmode hfd htype, ?_⟩
  intro q n addr hq hq0 hq2 hq1 hreach hn31
  -- descriptor 0 names the file that reads the root
  have hargfd : q.argfd 0 = some (0, fileZero) := by
    rw [Caller.argfd, hq0]
    simp only [Option.bind_eq_bind, Option.bind_some]
    rw [dif_pos (by decide)]
    show (q.ofile fdZero).bind _ = _
    rw [hq]
    simp
  obtain ⟨b, hb, -⟩ := Fs.freeBlock_exists (s := (Fs.init sb devsw img).setInode rootSlot
    (rootEntry (img.dinode ROOTINO) 2)) (by simpa [Fs.init, Fs.boot, sb] using hfree)
  have hreach' : DIRENTSIZE * (files.length + 2) < n.toNat := by
    have : ((DIRENTSIZE * (files.length + 2) : Nat) : Int) < n := by push_cast; exact hreach
    omega
  refine Kernel.sysRead_of_fileread_error hargfd hq2 hq1 ?_
  refine Kernel.fileread_hole_outside (h := DIRENTSIZE * (files.length + 2) / BSIZE) (b := b)
    rfl rfl (by simp [rootEntry]) rfl ?_ ?_ ?_ hn31 ?_ hh ?_ ?_ ?_ ?_ ?_ hb rfl ?_ ?_
  -- what is left is arithmetic on the root's size and the log of the booted kernel
  · simp [rootEntry, htype, T_DIR, T_DEV]
  · simp [rootEntry, hsize, BSIZE]
  · omega
  · simp; omega
  · simpa [rootEntry] using ha
  · intro j _ hj
    simpa [rootEntry] using hmap j hj
  · simp
  · simp only [Function.update_self, Fs.setInode_self, rootEntry, hsize, hhb]
    unfold BSIZE
    omega
  · simp [hhb]; omega
  · show 0 < LOGSIZE
    decide
  · show 0 + 1 < nlog
    decide

open Mkfs in
/-- Thirty empty files: with "." and "..", their entries fill the root's first block. The
process has the path "/" at address 32 and its arguments above a stack pointer of 0. -/
theorem thirty_files_read_panics :
    ∃ img, mkfs (List.replicate 30 ⟨['a'.toUInt8], []⟩) = .ok img ∧
      ∃ k₁ p₁, (Kernel.init sb (fun _ => ⟨none, none⟩) img).sysOpen
          ⟨64, fun a => if a = 4 then 32 else if a = 32 then '/'.toUInt8 else 0, 0,
            fun _ => none, rootSlot⟩ = .ok (0, k₁, p₁) ∧
        ∀ (q : Caller) (n : Int) (addr : Nat), q.ofile = p₁.ofile → q.argint 0 = some 0 →
          q.argint 2 = some n → q.argptr 1 n = some addr →
          DIRENTSIZE * (30 + 2) < n → n < 2 ^ 31 →
          k₁.sysRead q = .error "log_write outside of trans" := by
  obtain ⟨img, hmk, hfree⟩ := @mkfs_ok_of_empty (List.replicate 30 ⟨['a'.toUInt8], []⟩)
    (fun f hf => by rw [List.eq_of_mem_replicate hf]; decide) (by decide)
  exact ⟨img, hmk, mkfs_root_hole_read_panics hmk (by decide) (by decide)
    ⟨nmeta + 32, by decide, hfree _ (by simp)⟩ (by decide) (by decide) rfl⟩

open Mkfs in
/-- `chdir("/x")`, for a name `x` that no entry of the root carries, by a process of `init`'s
kernel on the image of files without contents whose entries fill the root's blocks. -/
theorem sysChdir_root_hole {files : List InputFile} {img : Image}
    (hmk : mkfs files = .ok img) (hn : files.length + 1 < NINODES)
    (hhole : (files.length + 2) % (BSIZE / DIRENTSIZE) = 0) (hempty : ∀ f ∈ files, f.content = [])
    (hfree : ∃ b < FSSIZE, img.bitmap b = false) {devsw : Nat → Devsw} {p : Caller}
    {x : List UInt8} (hpath : p.argstr 0 = some ('/'.toUInt8 :: x)) (hx : x ≠ [])
    (hxs : '/'.toUInt8 ∉ x) (hxl : x.length < DIRSIZ)
    (hnew : ∀ e ∈ rootEntries files, Fs.namecmp x (Dirent.decode e).name ≠ 0) :
    ∃ b k', (Kernel.init sb devsw img).sysChdir p = .ok (-1, k', p) ∧
      nmeta ≤ b ∧ img.bitmap b = false ∧
      k'.fs.inode rootSlot = { rootEntry (img.dinode ROOTINO) 1 with
        addrs := Function.update (img.dinode ROOTINO).addrs
          (DIRENTSIZE * (files.length + 2) / BSIZE) b } ∧
      k'.fs.mem.dinode = img.dinode ∧ k'.fs.disk.dinode = img.dinode ∧
      k'.fs.disk.bitmap b = true ∧ k'.fs.log.outstanding = 0 ∧ k'.fs.log.lh.n = 0 := by
  obtain ⟨htype, hh, hhb, hsize, ha, hmap⟩ := mkfs_root_hole hmk hn hhole
  obtain ⟨hmeta, -, -⟩ := mkfs_empty_refs hmk hn hempty
  have hcontent := mkfs_root_content hmk hn hempty
  -- the root, locked and loaded, as `namex` hands it to `dirlookup`
  set s₂ := (Fs.init sb devsw img).beginOp.setInode rootSlot
    { rootEntry (img.dinode ROOTINO) 2 with busy := true } with hs₂
  have hroot : s₂.inode rootSlot = { rootEntry (img.dinode ROOTINO) 2 with busy := true } := by
    simp [hs₂]
  have hmem : s₂.mem = img := rfl
  have hdisk : s₂.disk = img := rfl
  -- the block `balloc` hands out: free in the image, so past the metadata
  obtain ⟨b, hfb, -, hbfree⟩ := Fs.freeBlock_exists (s := s₂) hfree
  rw [hmem] at hbfree
  have hb : nmeta ≤ b := by
    by_contra hlt
    have := hmeta b (by omega)
    rw [hbfree] at this
    cases this
  -- `balloc`'s two `log_write`s fit in the log of the operation
  have hlog : s₂.log = ⟨sb.logstart, sb.nlog, 1, false, ⟨0, fun _ => 0⟩⟩ := rfl
  obtain ⟨l₁, h₁⟩ := Log.logWrite_inside s₂.log (BBLOCK b s₂.sb) (by rw [hlog])
    (by rw [hlog]; decide) (by rw [hlog]; decide)
  obtain ⟨hn₁, -, -, hl₁, ho₁, hc₁, -⟩ := Log.logWrite_ok h₁
  have hs₁ := Log.logWrite_size h₁
  simp only [hlog] at hn₁ ho₁ hc₁ hs₁
  obtain ⟨l₂, h₂⟩ := Log.logWrite_inside l₁ b (by omega) (by unfold LOGSIZE MAXOPBLOCKS; omega)
    (by rw [hs₁]; change l₁.lh.n + 1 < 30; omega)
  obtain ⟨-, -, hkeep, hl₂, ho₂, hc₂, -⟩ := Log.logWrite_ok h₂
  -- the scan of the root passes its entries and allocates the block after them
  have hscan := @Fs.lookupFrom_hole_block s₂ rootSlot x (files.length + 2) b l₁ l₂ ?_
    (by rw [hroot]; simp [rootEntry, htype, T_DIR, T_DEV]) (by rw [hroot]; exact hsize)
    (by unfold DIRENTSIZE DIRSIZ BSIZE at *; omega) hh
    (by unfold NINODES at hn; unfold DIRENTSIZE DIRSIZ BSIZE; omega) (by rw [hroot]; exact ha) hfb
    (by unfold nmeta at hb; omega) h₁ h₂
  · set s₃ := ({ s₂ with mem := (s₂.mem.setBit b true).setData b Block.zero, log := l₂ } : Fs).setAddr
      rootSlot (DIRENTSIZE * (files.length + 2) / BSIZE) b with hs₃
    set A := Function.update (img.dinode ROOTINO).addrs (DIRENTSIZE * (files.length + 2) / BSIZE) b
      with hA
    -- `namex` puts the root back: unlocked, with only the working directory's reference
    have hput : s₃.iunlockput rootSlot =
        .ok (s₃.setInode rootSlot { rootEntry (img.dinode ROOTINO) 1 with addrs := A }) := by
      have hroot₃ : s₃.inode rootSlot =
          { rootEntry (img.dinode ROOTINO) 2 with busy := true, addrs := A } := by
        simp [hs₃, Fs.setAddr, hroot, hA, rootEntry]
      rw [Fs.iunlockput, Fs.iunlock_ok (by simp [hroot₃]) (by simp [hroot₃, rootEntry]),
        Except.ok_bind, Fs.iput_shared (by simp [hroot₃, rootEntry]), Fs.setInode_setInode]
      simp [hroot₃, rootEntry]
    have hnamei := @Fs.namei_child_none _ _ _ _ _ p.cwd _ _ (Fs.skipelem_root_child hx hxs hxl)
      Fs.iget_root_init (@Fs.ilock_root_init sb devsw img (by simp [htype, T_DIR]))
      (by rw [hroot]; exact htype) (Fs.dirlookup_none (by rw [hroot]; exact htype) hscan) hput
    -- `end_op` commits the two blocks `balloc` logged
    have hpos : 0 < l₂.lh.n := by
      obtain ⟨i, hi, -⟩ := hl₂
      omega
    have hend := Fs.endOp_commit
      (s := s₃.setInode rootSlot { rootEntry (img.dinode ROOTINO) 1 with addrs := A })
      (by simp [hs₃, Fs.setAddr, ho₂, ho₁]) (by simp [hs₃, Fs.setAddr, hc₂, hc₁]) (by simpa [hs₃, Fs.setAddr] using hpos)
    refine ⟨b, _, Kernel.sysChdir_none hpath hnamei hend, hb, hbfree, ?_, ?_, ?_, ?_, rfl, rfl⟩
    · simp [hA]
    · simp [hs₃, Fs.setAddr, hmem]
    · funext i
      simp only [Fs.setInode_disk, Image.installAll_dinode]
      split <;> simp [hs₃, Fs.setAddr, hmem, hdisk]
    · rw [Image.installAll_bitmap, if_pos]
      · simp [hs₃, Fs.setAddr]
      · obtain ⟨i, hi, hib⟩ := hkeep _ hl₁
        exact List.mem_map.2 ⟨i, List.mem_range.2 (by simpa [hs₃, Fs.setAddr] using hi),
          by simpa [hs₃, Fs.setAddr] using hib⟩
  · -- each entry `mkfs` wrote lies in a block with an address and carries another name
    intro off hoff
    obtain ⟨j, hj, rfl⟩ := List.mem_map.1 hoff
    rw [List.mem_range] at hj
    have hj' : j < (rootEntries files).length := by simp [rootEntries]; omega
    have hblk : DIRENTSIZE * j / BSIZE < DIRENTSIZE * (files.length + 2) / BSIZE := by
      unfold DIRENTSIZE DIRSIZ BSIZE at *; omega
    refine ⟨_, Fs.readi_in_block (by rw [hroot]; simp [rootEntry, htype, T_DIR, T_DEV])
      (by decide) (by decide) (by rw [hroot]; simp only [rootEntry, hsize]; unfold DIRENTSIZE DIRSIZ BSIZE at *; omega)
      (by rw [hroot]; simp only [rootEntry, hsize]; unfold NINODES at hn; unfold DIRENTSIZE DIRSIZ BSIZE; omega)
      (by unfold DIRENTSIZE DIRSIZ BSIZE; omega) (by omega) (by rw [hroot]; exact hmap _ hblk), .inr ?_⟩
    rw [hroot, hmem]
    simp only [rootEntry]
    rw [hcontent j hj']
    exact hnew _ (List.getElem_mem hj')

open Mkfs in
/-- At the commit point of that `chdir`, the disk's bitmap marks a data block that no inode
names: not directly, and not through an indirect block, since no inode has one. -/
theorem chdir_commits_unreferenced_block {files : List InputFile} {img : Image}
    (hmk : mkfs files = .ok img) (hn : files.length + 1 < NINODES)
    (hhole : (files.length + 2) % (BSIZE / DIRENTSIZE) = 0) (hempty : ∀ f ∈ files, f.content = [])
    (hfree : ∃ b < FSSIZE, img.bitmap b = false) {devsw : Nat → Devsw} {p : Caller}
    {x : List UInt8} (hpath : p.argstr 0 = some ('/'.toUInt8 :: x)) (hx : x ≠ [])
    (hxs : '/'.toUInt8 ∉ x) (hxl : x.length < DIRSIZ)
    (hnew : ∀ e ∈ rootEntries files, Fs.namecmp x (Dirent.decode e).name ≠ 0) :
    ∃ b k', (Kernel.init sb devsw img).sysChdir p = .ok (-1, k', p) ∧
      k'.fs.log.outstanding = 0 ∧ k'.fs.log.lh.n = 0 ∧
      k'.fs.disk.bitmap b = true ∧ nmeta ≤ b ∧
      (∀ i j, (k'.fs.disk.dinode i).addrs j ≠ b) ∧ ∀ i, (k'.fs.disk.dinode i).addrs NDIRECT = 0 := by
  obtain ⟨b, k', hcall, hb, hbfree, -, -, hdisk, hbit, ho, hlh⟩ :=
    sysChdir_root_hole hmk hn hhole hempty hfree hpath hx hxs hxl hnew
  obtain ⟨-, hind, hrefs⟩ := mkfs_empty_refs hmk hn hempty
  refine ⟨b, k', hcall, ho, hlh, hbit, hb, fun i j heq => ?_, fun i => by rw [hdisk]; exact hind i⟩
  rw [hdisk] at heq
  -- every block an image dinode names is marked in the image's bitmap, and `b` is not
  have hb0 : (img.dinode i).addrs j ≠ 0 := by
    rw [heq]
    unfold nmeta at hb
    omega
  have := hrefs i j hb0
  rw [heq, hbfree] at this
  cases this

open Mkfs in
/-- The same run with thirty files without contents and `chdir("/x")`. -/
theorem thirty_files_chdir_block :
    ∃ img, mkfs (List.replicate 30 ⟨['a'.toUInt8], []⟩) = .ok img ∧
      ∃ b k', (Kernel.init sb (fun _ => ⟨none, none⟩) img).sysChdir
          ⟨64, fun a => if a = 4 then 32 else if a = 32 then '/'.toUInt8
            else if a = 33 then 'x'.toUInt8 else 0, 0, fun _ => none, rootSlot⟩ =
          .ok (-1, k', ⟨64, fun a => if a = 4 then 32 else if a = 32 then '/'.toUInt8
            else if a = 33 then 'x'.toUInt8 else 0, 0, fun _ => none, rootSlot⟩) ∧
        k'.fs.log.outstanding = 0 ∧ k'.fs.log.lh.n = 0 ∧
        k'.fs.disk.bitmap b = true ∧ nmeta ≤ b ∧
        (∀ i j, (k'.fs.disk.dinode i).addrs j ≠ b) ∧ ∀ i, (k'.fs.disk.dinode i).addrs NDIRECT = 0 := by
  obtain ⟨img, hmk, hfree⟩ := @mkfs_ok_of_empty (List.replicate 30 ⟨['a'.toUInt8], []⟩)
    (fun f hf => by rw [List.eq_of_mem_replicate hf]; decide) (by decide)
  exact ⟨img, hmk, chdir_commits_unreferenced_block hmk (by decide) (by decide)
    (fun f hf => by rw [List.eq_of_mem_replicate hf]) ⟨nmeta + 32, by decide, hfree _ (by simp)⟩
    (x := ['x'.toUInt8]) (by decide) (by decide) (by decide) (by decide) (by decide)⟩

open Mkfs in
/-- After that `chdir` returns, the cached root is loaded, unlocked and referenced (it is the
working directory), but its addresses are not those of its dinode in the block store. -/
theorem chdir_leaves_root_cache_stale {files : List InputFile} {img : Image}
    (hmk : mkfs files = .ok img) (hn : files.length + 1 < NINODES)
    (hhole : (files.length + 2) % (BSIZE / DIRENTSIZE) = 0) (hempty : ∀ f ∈ files, f.content = [])
    (hfree : ∃ b < FSSIZE, img.bitmap b = false) {devsw : Nat → Devsw} {p : Caller}
    {x : List UInt8} (hpath : p.argstr 0 = some ('/'.toUInt8 :: x)) (hx : x ≠ [])
    (hxs : '/'.toUInt8 ∉ x) (hxl : x.length < DIRSIZ)
    (hnew : ∀ e ∈ rootEntries files, Fs.namecmp x (Dirent.decode e).name ≠ 0) :
    ∃ k', (Kernel.init sb devsw img).sysChdir p = .ok (-1, k', p) ∧
      (k'.fs.inode rootSlot).valid = true ∧ (k'.fs.inode rootSlot).busy = false ∧
      1 ≤ (k'.fs.inode rootSlot).ref ∧
      (k'.fs.inode rootSlot).addrs ≠ (k'.fs.mem.dinode (k'.fs.inode rootSlot).inum).addrs := by
  obtain ⟨b, k', hcall, hb, -, hroot, hmem, -⟩ :=
    sysChdir_root_hole hmk hn hhole hempty hfree hpath hx hxs hxl hnew
  obtain ⟨-, -, -, -, ha, -⟩ := mkfs_root_hole hmk hn hhole
  refine ⟨k', hcall, by simp [hroot, rootEntry], by simp [hroot, rootEntry],
    by simp [hroot, rootEntry], fun heq => ?_⟩
  -- at the block after the entries, the cache holds `b` and the dinode still `0`
  have := congrFun heq (DIRENTSIZE * (files.length + 2) / BSIZE)
  simp only [hroot, hmem, rootEntry, Function.update_self, ha] at this
  unfold nmeta at hb
  omega

open Mkfs in
/-- The same run with thirty files without contents and `chdir("/x")`. -/
theorem thirty_files_chdir_stale :
    ∃ img, mkfs (List.replicate 30 ⟨['a'.toUInt8], []⟩) = .ok img ∧
      ∃ k', (Kernel.init sb (fun _ => ⟨none, none⟩) img).sysChdir
          ⟨64, fun a => if a = 4 then 32 else if a = 32 then '/'.toUInt8
            else if a = 33 then 'x'.toUInt8 else 0, 0, fun _ => none, rootSlot⟩ =
          .ok (-1, k', ⟨64, fun a => if a = 4 then 32 else if a = 32 then '/'.toUInt8
            else if a = 33 then 'x'.toUInt8 else 0, 0, fun _ => none, rootSlot⟩) ∧
        (k'.fs.inode rootSlot).valid = true ∧ (k'.fs.inode rootSlot).busy = false ∧
        1 ≤ (k'.fs.inode rootSlot).ref ∧
        (k'.fs.inode rootSlot).addrs ≠ (k'.fs.mem.dinode (k'.fs.inode rootSlot).inum).addrs := by
  obtain ⟨img, hmk, hfree⟩ := @mkfs_ok_of_empty (List.replicate 30 ⟨['a'.toUInt8], []⟩)
    (fun f hf => by rw [List.eq_of_mem_replicate hf]; decide) (by decide)
  exact ⟨img, hmk, chdir_leaves_root_cache_stale hmk (by decide) (by decide)
    (fun f hf => by rw [List.eq_of_mem_replicate hf]) ⟨nmeta + 32, by decide, hfree _ (by simp)⟩
    (x := ['x'.toUInt8]) (by decide) (by decide) (by decide) (by decide) (by decide)⟩

end Xv6
