import Xv6.Fs.Syscall

/-!
# The file system at boot

`binit`, `iinit` and `initlog` start the kernel with an empty inode cache, an empty file
table and a recovered log that holds no block; the disk and the block store are the image.
`userinit` then gives the first process the root directory as its working directory with
`namei("/")`, which only references the root in the first cache entry (`namei_boot_root`).

From that state the lemmas below follow the first calls that name the root: `namei` of an
absolute path takes one more reference on the cached root, and the first `ilock` loads its
dinode.
-/

namespace Xv6

/-- An inode cache entry that nothing uses, as the zeroed `icache` starts. -/
def Inode.free : Inode := ⟨0, 0, 0, false, false, 0, 0, 0, 0, 0, fun _ => 0⟩

/-- An entry of the file table that nothing uses. -/
def File.free : File := ⟨.none, 0, false, false, ⟨0, NINODE_pos⟩, 0⟩

/-- The first entry of the inode cache, where `userinit`'s `namei("/")` puts the root. -/
def rootSlot : Fin NINODE := ⟨0, NINODE_pos⟩

/-- The root's cache entry with `ref` references, unlocked, after its dinode `d` is loaded. -/
def rootEntry (d : Dinode) (ref : Int) : Inode :=
  ⟨ROOTDEV, ROOTINO, ref, false, true, d.type, d.major, d.minor, d.nlink, d.size, d.addrs⟩

/-- The first file of the table and the first descriptor of a process. -/
def fileZero : Fin NFILE := ⟨0, NFILE_pos⟩
def fdZero : Fin NOFILE := ⟨0, NOFILE_pos⟩

namespace Fs

/-- The file system after `iinit` and `initlog` on the image `img` with superblock `sb`;
`devsw` holds the drivers that `consoleinit` registered. -/
def boot (sb : Superblock) (devsw : Nat → Devsw) (img : Image) : Fs where
  sb := sb
  disk := img
  mem := img
  log := ⟨sb.logstart, sb.nlog, 0, false, ⟨0, fun _ => 0⟩⟩
  inode := fun _ => Inode.free
  devsw := devsw

/-- The file system when `init` first runs: its working directory, the root, is the only
referenced inode and is not loaded yet. -/
def init (sb : Superblock) (devsw : Nat → Devsw) (img : Image) : Fs :=
  (boot sb devsw img).setInode rootSlot ⟨ROOTDEV, ROOTINO, 1, false, false, 0, 0, 0, 0, 0, fun _ => 0⟩

end Fs

/-- The kernel when `init` first runs: no file is open. -/
def Kernel.init (sb : Superblock) (devsw : Nat → Devsw) (img : Image) : Kernel :=
  ⟨Fs.init sb devsw img, fun _ => File.free⟩

/-- A scan of a table by index stops at the first entry when that entry matches. -/
theorem find?_finRange_head {n : Nat} (p : Fin n → Bool) (h0 : 0 < n) (hp : p ⟨0, h0⟩ = true) :
    (List.finRange n).find? p = some ⟨0, h0⟩ := by
  obtain ⟨m, rfl⟩ : ∃ m, n = m + 1 := ⟨n - 1, by omega⟩
  rw [List.finRange_succ, List.find?_cons_of_pos (show p 0 = true from hp)]
  rfl

namespace Fs

variable {s : Fs}

/-- `iget` in a cache where no entry is referenced takes the first entry. -/
theorem iget_unreferenced {dev inum : Nat} (h : ∀ i, (s.inode i).ref = 0) :
    s.iget dev inum = .ok (rootSlot, s.setInode rootSlot
      { s.inode rootSlot with dev := dev, inum := inum, ref := 1, busy := false, valid := false }) := by
  have hnone : (List.finRange NINODE).find? (fun i =>
      decide (0 < (s.inode i).ref ∧ (s.inode i).dev = dev ∧ (s.inode i).inum = inum)) = none :=
    List.find?_eq_none.2 fun i _ => by simp [h i]
  rw [iget, hnone]
  simp only
  rw [find?_finRange_head _ (by decide) (by simp [h])]
  rfl

/-- `iget` of the inode that the first cache entry holds with a reference. -/
theorem iget_cached_head {dev inum : Nat} (href : 0 < (s.inode rootSlot).ref)
    (hdev : (s.inode rootSlot).dev = dev) (hinum : (s.inode rootSlot).inum = inum) :
    s.iget dev inum =
      .ok (rootSlot, s.setInode rootSlot { s.inode rootSlot with ref := (s.inode rootSlot).ref + 1 }) := by
  rw [iget, find?_finRange_head _ (by decide) (by simp [rootSlot] at *; simp [href, hdev, hinum])]
  rfl

/-- The path "/" names the root and walks no directory: `namei` is the `iget` of the root. -/
theorem namei_slash {cwd : Fin NINODE} {ip : Fin NINODE} {s' : Fs}
    (h : s.iget ROOTDEV ROOTINO = .ok (ip, s')) :
    s.namei cwd ['/'.toUInt8] = .ok (some ip, s') := by
  simp only [namei, namex, show (['/'.toUInt8] : List UInt8).headD 0 = '/'.toUInt8 from rfl,
    if_true, h, Except.ok_bind]
  rw [namexWalk]
  split
  · rfl
  · rename_i h'
    rw [show skipelem ['/'.toUInt8] = none by decide] at h'
    cases h'

/-- `userinit`'s `namei("/")`. -/
theorem namei_boot_root {sb : Superblock} {devsw : Nat → Devsw} {img : Image} {cwd : Fin NINODE} :
    (boot sb devsw img).namei cwd ['/'.toUInt8] = .ok (some rootSlot, init sb devsw img) :=
  namei_slash (iget_unreferenced fun _ => rfl)

/-- The first `ilock` of an inode reads its dinode `d` from the block store. -/
theorem ilock_load {ip : Fin NINODE} {d : Dinode} (href : 1 ≤ (s.inode ip).ref)
    (hv : (s.inode ip).valid = false) (hd : s.mem.dinode (s.inode ip).inum = d) (ht : d.type ≠ 0) :
    s.ilock ip = .ok (s.setInode ip
      { s.inode ip with busy := true, valid := true, type := d.type, major := d.major,
                        minor := d.minor, nlink := d.nlink, size := d.size, addrs := d.addrs }) := by
  subst hd
  rw [ilock, if_neg (by omega), if_neg (by simp [hv]), if_neg ht]

end Fs

theorem Kernel.filealloc_head {k : Kernel} (h : (k.file fileZero).ref = 0) :
    k.filealloc = some (fileZero, k.setFile fileZero { k.file fileZero with ref := 1 }) := by
  rw [Kernel.filealloc, find?_finRange_head _ (by decide) (by simp [fileZero] at h; simp [h])]
  rfl

theorem Caller.fdalloc_head {p : Caller} {f : Fin NFILE} (h : p.ofile fdZero = none) :
    p.fdalloc f = some (0, { p with ofile := Function.update p.ofile fdZero (some f) }) := by
  rw [Caller.fdalloc, find?_finRange_head _ (by decide) (by simp [fdZero] at h; simp [h])]
  rfl

section Init

variable {sb : Superblock} {devsw : Nat → Devsw} {img : Image}

/-- In a call of `init`'s kernel, `namei` of an absolute path takes a second reference on the
root. -/
theorem Fs.iget_root_init :
    (Fs.init sb devsw img).beginOp.iget ROOTDEV ROOTINO = .ok (rootSlot,
      (Fs.init sb devsw img).beginOp.setInode rootSlot
        ⟨ROOTDEV, ROOTINO, 2, false, false, 0, 0, 0, 0, 0, fun _ => 0⟩) := by
  rw [Fs.iget_cached_head (by simp [Fs.init]) (by simp [Fs.init]) (by simp [Fs.init])]
  simp [Fs.init]

/-- The first `ilock` of the root loads its dinode. -/
theorem Fs.ilock_root_init (ht : (img.dinode ROOTINO).type ≠ 0) :
    ((Fs.init sb devsw img).beginOp.setInode rootSlot
        ⟨ROOTDEV, ROOTINO, 2, false, false, 0, 0, 0, 0, 0, fun _ => 0⟩).ilock rootSlot =
      .ok ((Fs.init sb devsw img).beginOp.setInode rootSlot
        { rootEntry (img.dinode ROOTINO) 2 with busy := true }) := by
  rw [Fs.ilock_load (by simp) rfl (by simp [Fs.init, Fs.boot]) ht, Fs.setInode_setInode]
  rfl

/-- `open("/", O_RDONLY)` by a process with no open file, on the kernel `init` starts on: the
root is loaded and referenced twice, and descriptor `0` names the first file, which reads the
root from offset `0`; the log is empty again. -/
theorem Kernel.sysOpen_root {p : Caller}
    (hpath : p.argstr 0 = some ['/'.toUInt8]) (hmode : p.argint 1 = some 0)
    (hfd : p.ofile fdZero = none) (ht : (img.dinode ROOTINO).type = T_DIR) :
    (Kernel.init sb devsw img).sysOpen p =
      .ok (0, ⟨(Fs.init sb devsw img).setInode rootSlot (rootEntry (img.dinode ROOTINO) 2),
          Function.update (fun _ => File.free) fileZero ⟨.inode, 1, true, false, rootSlot, 0⟩⟩,
        { p with ofile := Function.update p.ofile fdZero (some fileZero) }) := by
  have hu : toUint32 0 = 0 := rfl
  simp only [Kernel.sysOpen, Kernel.init, hpath, hmode, hu, Nat.zero_and, ne_eq,
    not_true_eq_false, if_false, Fs.namei_slash Fs.iget_root_init, Except.ok_bind,
    @Fs.ilock_root_init sb devsw img (by simp [ht, T_DIR]), O_RDONLY, and_false,
    Kernel.openInode]
  -- the first file and the first descriptor are free
  rw [Kernel.filealloc_head rfl]
  simp only
  rw [Caller.fdalloc_head hfd]
  simp only [Kernel.setFile_fs]
  rw [Fs.iunlock_ok (by simp) (by simp [rootEntry]), Except.ok_bind, Fs.setInode_setInode,
    Fs.endOp_last rfl rfl rfl]
  simp only [Except.ok_bind, Kernel.setFile, Function.update_idem]
  rfl

end Init

end Xv6
