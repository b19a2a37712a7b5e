import Mathlib
import Xv6.Fs.Layout
import Xv6.Lib.Except

/-!
# The image `mkfs` builds

`mkfs fs.img files...` zeroes the image, allocates the root directory, appends the
entries `.` and `..`, then for each file allocates an inode, appends its directory entry to
the root and appends its contents, and last rounds the root directory's size up and writes
the bitmap of the blocks it has handed out. Inodes and blocks come from two counters,
`freeinode` and `freeblock`; `iappend` takes a block from `freeblock` the first time a file
block is written.

The size fix rounds `off` up to the next block boundary even when `off` already is one.
With `m` root entries, the root's blocks are those below `⌈16 m / 512⌉`, and the fixed size
covers `16 m / 512 + 1` blocks: when `m` is a multiple of `32` the last block of the root
directory has no address (`mkfs_root_hole_iff`).

The model keeps the image typed (see `Image`): an inode is written to its slot of the inode
table, so it assumes the inodes fit in the table (`files.length + 1 < NINODES`).
-/

namespace Xv6

namespace Mkfs

def nbitmap : Nat := FSSIZE / (BSIZE * 8) + 1
def ninodeblocks : Nat := NINODES / IPB + 1
def nlog : Nat := LOGSIZE
/-- Number of meta blocks (boot, sb, nlog, inode, bitmap). -/
def nmeta : Nat := 2 + nlog + ninodeblocks + nbitmap
/-- Number of data blocks. -/
def nblocks : Nat := FSSIZE - nmeta

/-- The superblock `mkfs` writes to block 1. -/
def sb : Superblock where
  size := FSSIZE
  nblocks := nblocks
  ninodes := NINODES
  nlog := nlog
  logstart := 2
  inodestart := 2 + nlog
  bmapstart := 2 + nlog + ninodeblocks

/-- The image being built and the two allocation counters. -/
structure St where
  img : Image
  freeinode : Nat
  freeblock : Nat

/-- The image after `wsect(i, zeroes)` for every block. -/
def zeroImage : Image := ⟨fun _ => Dinode.zero, fun _ => false, fun _ => Block.zero⟩

/-- `ialloc(type)`: the next i-number, with a dinode of the type and one link. -/
def ialloc (st : St) (type : Nat) : St × Nat :=
  ({ st with img := st.img.setDinode st.freeinode { Dinode.zero with type := type, nlink := 1 },
             freeinode := st.freeinode + 1 }, st.freeinode)

/-- `if(xint(din.addrs[i]) == 0) din.addrs[i] = xint(freeblock++)`. -/
def direct (st : St) (din : Dinode) (i : Nat) : St × Dinode :=
  if din.addrs i = 0 then
    ({ st with freeblock := st.freeblock + 1 },
      { din with addrs := Function.update din.addrs i st.freeblock })
  else (st, din)

/-- The block that holds file block `fbn` of `din`, allocated the first time; the indirect
block is read from the image and written back when it gains an entry. -/
def blockFor (st : St) (din : Dinode) (fbn : Nat) : St × Dinode × Nat :=
  if fbn < NDIRECT then
    let r := direct st din fbn
    (r.1, r.2, r.2.addrs fbn)
  else
    let r := direct st din NDIRECT
    let ind := r.2.addrs NDIRECT
    let indirect := r.1.img.data ind
    if indirect.getU32 (fbn - NDIRECT) = 0 then
      let indirect := indirect.setU32 (fbn - NDIRECT) r.1.freeblock
      ({ r.1 with img := r.1.img.setData ind indirect, freeblock := r.1.freeblock + 1 }, r.2,
        indirect.getU32 (fbn - NDIRECT))
    else (r.1, r.2, indirect.getU32 (fbn - NDIRECT))

/-- `rsect(x, buf); bcopy(p, buf + start, n1); wsect(x, buf)`. -/
def St.write (st : St) (x start : Nat) (bytes : List UInt8) : St :=
  { st with img := st.img.setData x ((st.img.data x).write start bytes) }

/-- The loop of `iappend`: `din` is the local copy of the dinode, `off` the offset reached
and `p` the bytes still to append; it returns the state, the dinode and the final offset. -/
def iappendLoop (st : St) (din : Dinode) (off : Nat) (p : List UInt8) :
    Except String (St × Dinode × Nat) :=
  if _ : p = [] then .ok (st, din, off)
  else if MAXFILE ≤ off / BSIZE then .error "assert(fbn < MAXFILE)"
  else
    let fbn := off / BSIZE
    let n1 := min p.length ((fbn + 1) * BSIZE - off)
    let r := blockFor st din fbn
    -- `off - fbn * BSIZE` is `off % BSIZE`
    iappendLoop (r.1.write r.2.2 (off % BSIZE) (p.take n1)) r.2.1 (off + n1) (p.drop n1)
termination_by p.length
decreasing_by
  have hp : 0 < p.length := List.length_pos_iff.2 ‹_›
  have hoff : off < (off / BSIZE + 1) * BSIZE := by unfold BSIZE; omega
  simp only [List.length_drop]
  omega

/-- `iappend(inum, p, n)`: append the bytes `p` to inode `inum` and store its new size. -/
def iappend (st : St) (inum : Nat) (p : List UInt8) : Except String St := do
  let din := st.img.dinode inum
  let r ← iappendLoop st din din.size p
  pure { r.1 with img := r.1.img.setDinode inum { r.2.1 with size := r.2.2 } }

/-- `balloc(used)`: the bitmap block marks the first `used` blocks in use. -/
def balloc (st : St) (used : Nat) : Except String St :=
  if used < BSIZE * 8 then .ok { st with img := { st.img with bitmap := fun b => decide (b < used) } }
  else .error "assert(used < BSIZE*8)"

/-- A file named on the command line: its name and its contents. -/
structure InputFile where
  name : List UInt8
  content : List UInt8

/-- The name a file gets in the file system: a leading `_` is skipped. -/
def fsName (name : List UInt8) : List UInt8 :=
  if name.headD 0 = '_'.toUInt8 then name.tail else name

/-- The bytes of the directory entry `mkfs` appends for `name`. -/
def dirent (inum : Nat) (name : List UInt8) : List UInt8 :=
  Dirent.encode ⟨inum, strncpy name DIRSIZ⟩

/-- One round of the loop over the input files. The contents arrive in the chunks of at most
`BSIZE` bytes that `read(fd, buf, sizeof(buf))` returns. -/
def addFile (st : St) (f : InputFile) : Except String St :=
  if '/'.toUInt8 ∈ f.name then .error "assert(index(argv[i], '/') == 0)"
  else do
    let r := ialloc st T_FILE
    let st ← iappend r.1 ROOTINO (dirent r.2 (fsName f.name))
    (f.content.toChunks BSIZE).foldlM (fun st c => iappend st r.2 c) st

/-- Fix the size of the root directory: `off = ((off/BSIZE) + 1) * BSIZE`. -/
def fixRootSize (st : St) (rootino : Nat) : St :=
  let din := st.img.dinode rootino
  { st with img := st.img.setDinode rootino { din with size := (din.size / BSIZE + 1) * BSIZE } }

/-- `main` of `mkfs.c`, from the zeroed image to the bitmap. -/
def mkfs (files : List InputFile) : Except String Image :=
  let r := ialloc ⟨zeroImage, 1, nmeta⟩ T_DIR
  if r.2 ≠ ROOTINO then .error "assert(rootino == ROOTINO)"
  else do
    let st ← iappend r.1 r.2 (dirent r.2 ['.'.toUInt8])
    let st ← iappend st r.2 (dirent r.2 ['.'.toUInt8, '.'.toUInt8])
    let st ← files.foldlM addFile st
    let st := fixRootSize st r.2
    let st ← balloc st st.freeblock
    pure st.img

/-! ## What `iappend` leaves alone -/

section Frame

theorem direct_freeblock_le (st : St) (din : Dinode) (i : Nat) :
    st.freeblock ≤ (direct st din i).1.freeblock := by
  unfold direct; split <;> simp

/-- What `direct` does to the counters and the dinode. -/
structure DirectSpec (st : St) (din : Dinode) (r : St × Dinode) : Prop where
  img : r.1.img = st.img
  freeinode : r.1.freeinode = st.freeinode
  freeblock_ge : st.freeblock ≤ r.1.freeblock
  freeblock_le : r.1.freeblock ≤ st.freeblock + 1
  type : r.2.type = din.type

theorem direct_spec (st : St) (din : Dinode) (i : Nat) : DirectSpec st din (direct st din i) := by
  unfold direct
  split
  · exact ⟨rfl, rfl, Nat.le_succ _, le_rfl, rfl⟩
  · exact ⟨rfl, rfl, le_rfl, Nat.le_succ _, rfl⟩

/-- `direct` gives address `i` the next free block when it had none. -/
theorem direct_addrs_ne_zero (st : St) (din : Dinode) (i j : Nat) (hpos : 0 < st.freeblock) :
    (direct st din i).2.addrs j ≠ 0 ↔ din.addrs j ≠ 0 ∨ j = i := by
  unfold direct
  by_cases hj : j = i
  · subst hj
    split
    · simp [Nat.pos_iff_ne_zero.1 hpos]
    · simp_all
  · split <;> simp [hj]

theorem direct_addrs_of_ne (st : St) (din : Dinode) {i k : Nat} (hk : k ≠ i) :
    (direct st din i).2.addrs k = din.addrs k := by
  unfold direct; split <;> simp [hk]

theorem direct_addrs_self (st : St) (din : Dinode) (i : Nat) :
    (direct st din i).2.addrs i = if din.addrs i = 0 then st.freeblock else din.addrs i := by
  unfold direct; split <;> simp [*]

theorem blockFor_frame (st : St) (din : Dinode) (fbn : Nat) :
    (blockFor st din fbn).1.img.dinode = st.img.dinode ∧
      (blockFor st din fbn).1.freeinode = st.freeinode ∧
      st.freeblock ≤ (blockFor st din fbn).1.freeblock := by
  have hd := direct_freeblock_le st din
  unfold blockFor
  split
  · unfold direct at hd ⊢; split <;> simp
  · have hi : (direct st din NDIRECT).1.img = st.img ∧
        (direct st din NDIRECT).1.freeinode = st.freeinode := by
      unfold direct; split <;> simp
    dsimp only
    split <;> simp [hi, Nat.le_succ_of_le (hd NDIRECT), hd NDIRECT]

/-- The loop of `iappend` writes data blocks only and takes blocks from `freeblock`. -/
theorem iappendLoop_frame {st st' : St} {din din' : Dinode} {off off' : Nat} {p : List UInt8}
    (h : iappendLoop st din off p = .ok (st', din', off')) :
    st'.img.dinode = st.img.dinode ∧ st'.freeinode = st.freeinode ∧
      st.freeblock ≤ st'.freeblock := by
  induction st, din, off, p using iappendLoop.induct generalizing st' din' off' with
  | case1 st din off =>
      rw [iappendLoop, dif_pos rfl] at h
      cases h
      simp
  | case2 st din off p hp hmax =>
      rw [iappendLoop, dif_neg hp, if_pos hmax] at h
      cases h
  | case3 st din off p hp hmax =>
      rename_i ih
      rw [iappendLoop, dif_neg hp, if_neg hmax] at h
      obtain ⟨h1, h2, h3⟩ := ih h
      obtain ⟨b1, b2, b3⟩ := blockFor_frame st din (off / BSIZE)
      refine ⟨?_, ?_, ?_⟩
      · rw [h1]; simpa [St.write] using b1
      · rw [h2]; simpa [St.write] using b2
      · exact le_trans b3 (by simpa [St.write] using h3)

/-- `iappend` changes only the dinode it appends to. -/
theorem iappend_frame {st st' : St} {inum : Nat} {p : List UInt8}
    (h : iappend st inum p = .ok st') :
    (∀ j, j ≠ inum → st'.img.dinode j = st.img.dinode j) ∧ st'.freeinode = st.freeinode ∧
      st.freeblock ≤ st'.freeblock := by
  rw [iappend, Except.bind_eq_ok_iff] at h
  obtain ⟨⟨st₁, din, off⟩, hl, h⟩ := h
  rw [Except.pure_eq_ok_iff] at h
  subst h
  obtain ⟨h1, h2, h3⟩ := iappendLoop_frame hl
  refine ⟨fun j hj => ?_, h2, h3⟩
  simp [Function.update_of_ne hj, h1]

/-- Appending the contents chunk by chunk leaves the other dinodes alone. -/
theorem foldlM_iappend_frame {st st' : St} {inum : Nat} {cs : List (List UInt8)}
    (h : cs.foldlM (fun st c => iappend st inum c) st = .ok st') :
    (∀ j, j ≠ inum → st'.img.dinode j = st.img.dinode j) ∧ st'.freeinode = st.freeinode ∧
      st.freeblock ≤ st'.freeblock := by
  have := Except.foldlM_invariant (n := 0)
    (fun _ c => (∀ j, j ≠ inum → c.img.dinode j = st.img.dinode j) ∧
      c.freeinode = st.freeinode ∧ st.freeblock ≤ c.freeblock) ?_ ⟨fun _ _ => rfl, rfl, le_rfl⟩ h
  · exact this
  · rintro _ c₀ c c' - - ⟨h1, h2, h3⟩ hc
    obtain ⟨a1, a2, a3⟩ := iappend_frame hc
    exact ⟨fun j hj => (a1 j hj).trans (h1 j hj), a2.trans h2, le_trans h3 a3⟩

end Frame

/-! ## The root directory -/

/-- Number of blocks that `n` bytes occupy. -/
def blocksFor (n : Nat) : Nat := (n + BSIZE - 1) / BSIZE

/-- The root directory after `m` entries: it has size `16 m` and exactly its first
`⌈16 m / 512⌉` addresses are set; the next block to hand out is not `0`. -/
structure RootShape (st : St) (m : Nat) : Prop where
  type : (st.img.dinode ROOTINO).type = T_DIR
  size : (st.img.dinode ROOTINO).size = DIRENTSIZE * m
  addrs : ∀ j, (st.img.dinode ROOTINO).addrs j ≠ 0 ↔ j < blocksFor (DIRENTSIZE * m)
  freeblock : 0 < st.freeblock

/-- The offset of a new entry is a multiple of `16`, so the entry fits in the rest of its
block. -/
theorem dirent_fits (m : Nat) :
    DIRENTSIZE ≤ (DIRENTSIZE * m / BSIZE + 1) * BSIZE - DIRENTSIZE * m := by
  unfold DIRENTSIZE DIRSIZ BSIZE
  omega

/-- The entries so far occupy `16 m / 512` or one more blocks, and one more entry ends in
block `16 m / 512`. -/
theorem blocksFor_succ (m : Nat) :
    blocksFor (DIRENTSIZE * (m + 1)) = DIRENTSIZE * m / BSIZE + 1 ∧
      DIRENTSIZE * m / BSIZE ≤ blocksFor (DIRENTSIZE * m) ∧
      blocksFor (DIRENTSIZE * m) ≤ DIRENTSIZE * m / BSIZE + 1 := by
  unfold blocksFor DIRENTSIZE DIRSIZ BSIZE
  omega

/-- Appending an entry of `16` bytes to the root directory at `16 m`: one round of the loop,
in file block `16 m / 512`, which is allocated when it has no address yet. -/
theorem iappend_root_entry {st : St} {m : Nat} {bytes : List UInt8} (hs : RootShape st m)
    (hm : DIRENTSIZE * (m + 1) ≤ NDIRECT * BSIZE) (hlen : bytes.length = DIRENTSIZE) :
    ∃ st', iappend st ROOTINO bytes = .ok st' ∧ RootShape st' (m + 1) ∧
      st'.freeinode = st.freeinode ∧ st'.freeblock ≤ st.freeblock + 1 ∧
      (∀ j, j ≠ ROOTINO → st'.img.dinode j = st.img.dinode j) ∧
      (st'.img.dinode ROOTINO).addrs =
        (direct st (st.img.dinode ROOTINO) (DIRENTSIZE * m / BSIZE)).2.addrs ∧
      st'.freeblock = (direct st (st.img.dinode ROOTINO) (DIRENTSIZE * m / BSIZE)).1.freeblock ∧
      st'.img.data = Function.update st.img.data
        ((st'.img.dinode ROOTINO).addrs (DIRENTSIZE * m / BSIZE))
        ((st.img.data ((st'.img.dinode ROOTINO).addrs (DIRENTSIZE * m / BSIZE))).write
          (DIRENTSIZE * m % BSIZE) bytes) := by
  have hfbn : DIRENTSIZE * m / BSIZE < NDIRECT := by
    unfold NDIRECT BSIZE DIRENTSIZE DIRSIZ at *; omega
  have hmax : ¬ MAXFILE ≤ DIRENTSIZE * m / BSIZE := by
    unfold MAXFILE NINDIRECT NDIRECT BSIZE DIRENTSIZE DIRSIZ at *; omega
  have hne : bytes ≠ [] := by
    rintro rfl; unfold DIRENTSIZE DIRSIZ at hlen; simp at hlen
  have hn1 : min bytes.length ((DIRENTSIZE * m / BSIZE + 1) * BSIZE - DIRENTSIZE * m) =
      bytes.length := by
    rw [hlen]; exact Nat.min_eq_left (dirent_fits m)
  -- the block of the new entry, allocated if this entry starts it
  have hd := direct_spec st (st.img.dinode ROOTINO) (DIRENTSIZE * m / BSIZE)
  have hda := fun j =>
    direct_addrs_ne_zero st (st.img.dinode ROOTINO) (DIRENTSIZE * m / BSIZE) j hs.freeblock
  set d := direct st (st.img.dinode ROOTINO) (DIRENTSIZE * m / BSIZE) with hd_def
  have hr : blockFor st (st.img.dinode ROOTINO) (DIRENTSIZE * m / BSIZE) =
      (d.1, d.2, d.2.addrs (DIRENTSIZE * m / BSIZE)) := by
    simp [blockFor, hfbn, hd_def]
  have hloop : iappendLoop st (st.img.dinode ROOTINO) (DIRENTSIZE * m) bytes =
      .ok (d.1.write (d.2.addrs (DIRENTSIZE * m / BSIZE)) (DIRENTSIZE * m % BSIZE) bytes, d.2,
        DIRENTSIZE * (m + 1)) := by
    rw [iappendLoop, dif_neg hne, if_neg hmax]
    dsimp only
    rw [hn1, hr, List.take_length, List.drop_length, iappendLoop, dif_pos rfl, hlen, Nat.mul_succ]
  obtain ⟨hb, hlo, hhi⟩ := blocksFor_succ m
  refine ⟨_, by simp only [iappend, hs.size, hloop]; rfl,
    ⟨?_, ?_, fun j => ?_, ?_⟩, ?_, ?_, ?_, ?_, ?_, ?_⟩
  · simp [St.write, hd.type, hs.type]
  · simp [St.write]
  · simp only [St.write, Image.setData_dinode, Image.setDinode_dinode, Function.update_self]
    rw [hda, hs.addrs, hb]
    omega
  · simp only [St.write]; have := hd.freeblock_ge; have := hs.freeblock; omega
  · simp [St.write, hd.freeinode]
  · simp only [St.write]; exact hd.freeblock_le
  · intro j hj
    simp [St.write, Function.update_of_ne hj, hd.img]
  · simp [St.write]
  · simp [St.write]
  · simp [St.write, hd.img]

/-- `RootShape` looks only at the root's dinode and at `freeblock`. -/
theorem RootShape.of_frame {st st' : St} {m : Nat} (hs : RootShape st m)
    (hd : st'.img.dinode ROOTINO = st.img.dinode ROOTINO) (hb : st.freeblock ≤ st'.freeblock) :
    RootShape st' m :=
  ⟨hd ▸ hs.type, hd ▸ hs.size, fun j => hd ▸ hs.addrs j, Nat.lt_of_lt_of_le hs.freeblock hb⟩

theorem length_dirent (inum : Nat) (name : List UInt8) : (dirent inum name).length = DIRENTSIZE := by
  simp [dirent, Dirent.length_encode, length_strncpy, DIRENTSIZE]

/-- The `ialloc` of an input file: its inode is the next one, not the root. -/
theorem ialloc_file_root {st : St} {m : Nat} (hs : RootShape st m) (hino : st.freeinode = m)
    (hm2 : 2 ≤ m) : RootShape (ialloc st T_FILE).1 m ∧ (ialloc st T_FILE).2 = m ∧
      (ialloc st T_FILE).1.freeinode = m + 1 := by
  have hne : ROOTINO ≠ st.freeinode := by unfold ROOTINO; omega
  refine ⟨hs.of_frame ?_ le_rfl, hino, by simp [ialloc, hino]⟩
  simp [ialloc, Function.update_of_ne hne]

/-- One input file: the root gains its entry and nothing else. -/
theorem addFile_root {st st' : St} {m : Nat} {f : InputFile} (hs : RootShape st m)
    (hino : st.freeinode = m) (hm2 : 2 ≤ m) (hm : DIRENTSIZE * (m + 1) ≤ NDIRECT * BSIZE)
    (h : addFile st f = .ok st') : RootShape st' (m + 1) ∧ st'.freeinode = m + 1 := by
  unfold addFile at h
  split at h
  · cases h
  · obtain ⟨hs₁, hinum, hino₁⟩ := ialloc_file_root hs hino hm2
    obtain ⟨st₂, h₂, hs₂, hino₂, -⟩ := iappend_root_entry hs₁ hm (length_dirent _ _)
    rw [Except.bind_eq_ok_iff] at h
    obtain ⟨st₂', h₂', hfold⟩ := h
    rw [h₂, Except.ok.injEq] at h₂'
    subst h₂'
    -- the contents go to the new inode, which is not the root
    obtain ⟨f1, f2, f3⟩ := foldlM_iappend_frame hfold
    refine ⟨hs₂.of_frame (f1 _ (by rw [hinum]; unfold ROOTINO; omega)) f3, ?_⟩
    rw [f2, hino₂, hino₁]

/-- The loop over the input files: `m` entries become `m + files.length`. -/
theorem addFiles_root {st st' : St} {m : Nat} {files : List InputFile} (hs : RootShape st m)
    (hino : st.freeinode = m) (hm2 : 2 ≤ m)
    (hm : DIRENTSIZE * (m + files.length) ≤ NDIRECT * BSIZE)
    (h : files.foldlM addFile st = .ok st') :
    RootShape st' (m + files.length) ∧ st'.freeinode = m + files.length := by
  have := Except.foldlM_invariant (fun k c => RootShape c k ∧ c.freeinode = k ∧ 2 ≤ k) ?_
    ⟨hs, hino, hm2⟩ h
  · exact ⟨this.1, this.2.1⟩
  · rintro k f c c' - hk ⟨hc, hcino, hk2⟩ hstep
    obtain ⟨h1, h2⟩ :=
      addFile_root hc hcino hk2 (Nat.le_trans (Nat.mul_le_mul_left _ (by omega)) hm) hstep
    exact ⟨h1, h2, by omega⟩

/-! ## The entries of the root directory -/

/-- The root directory's entries, in the order `mkfs` appends them. -/
def rootEntries (files : List InputFile) : List (List UInt8) :=
  [dirent ROOTINO ['.'.toUInt8], dirent ROOTINO ['.'.toUInt8, '.'.toUInt8]] ++
    files.mapIdx fun i f => dirent (i + 2) (fsName f.name)

/-- The root holds the entries `es`, entry `j` at offset `16 j`; its blocks were handed out
in increasing order, all below `freeblock`. -/
structure RootContent (st : St) (es : List (List UInt8)) : Prop where
  entry : ∀ j (hj : j < es.length),
    (st.img.data ((st.img.dinode ROOTINO).addrs (DIRENTSIZE * j / BSIZE))).read
      (DIRENTSIZE * j % BSIZE) DIRENTSIZE = es[j]
  ordered : ∀ k k', k < k' → (st.img.dinode ROOTINO).addrs k' ≠ 0 →
    (st.img.dinode ROOTINO).addrs k < (st.img.dinode ROOTINO).addrs k'
  below : ∀ k, (st.img.dinode ROOTINO).addrs k < st.freeblock

/-- Where entry `j < m` lies relative to the block of entry `m`. -/
theorem entry_block_le {j m : Nat} (hj : j < m) :
    DIRENTSIZE * j / BSIZE ≤ DIRENTSIZE * m / BSIZE ∧
      DIRENTSIZE * j / BSIZE < blocksFor (DIRENTSIZE * m) ∧
      (DIRENTSIZE * j / BSIZE = DIRENTSIZE * m / BSIZE →
        DIRENTSIZE * j % BSIZE + DIRENTSIZE ≤ DIRENTSIZE * m % BSIZE) := by
  unfold blocksFor DIRENTSIZE DIRSIZ BSIZE
  omega

/-- Appending entry `m` keeps the entries before it where they were. -/
theorem iappend_root_content {st st' : St} {m : Nat} {es : List (List UInt8)}
    {bytes : List UInt8} (hs : RootShape st m) (hc : RootContent st es) (hes : es.length = m)
    (hm : DIRENTSIZE * (m + 1) ≤ NDIRECT * BSIZE) (hlen : bytes.length = DIRENTSIZE)
    (h : iappend st ROOTINO bytes = .ok st') : RootContent st' (es ++ [bytes]) := by
  obtain ⟨st₂, h₂, hs₂, -, -, -, haddrs, hfree, hdata⟩ := iappend_root_entry hs hm hlen
  rw [h₂, Except.ok.injEq] at h
  subst h
  -- the addresses after the append: only that of the entry's block can change
  have hk : ∀ k, k ≠ DIRENTSIZE * m / BSIZE →
      (st₂.img.dinode ROOTINO).addrs k = (st.img.dinode ROOTINO).addrs k := by
    intro k hk; rw [haddrs]; exact direct_addrs_of_ne _ _ hk
  have hself : (st₂.img.dinode ROOTINO).addrs (DIRENTSIZE * m / BSIZE) =
      if (st.img.dinode ROOTINO).addrs (DIRENTSIZE * m / BSIZE) = 0 then st.freeblock
      else (st.img.dinode ROOTINO).addrs (DIRENTSIZE * m / BSIZE) := by
    rw [haddrs]; exact direct_addrs_self _ _ _
  have hfb : st₂.freeblock = if (st.img.dinode ROOTINO).addrs (DIRENTSIZE * m / BSIZE) = 0
      then st.freeblock + 1 else st.freeblock := by
    rw [hfree]; unfold direct; split <;> rfl
  have hbl := (blocksFor_succ m).2.2
  have hordered : ∀ k k', k < k' → (st₂.img.dinode ROOTINO).addrs k' ≠ 0 →
      (st₂.img.dinode ROOTINO).addrs k < (st₂.img.dinode ROOTINO).addrs k' := by
    intro k k' hlt hk'
    by_cases hkf : k' = DIRENTSIZE * m / BSIZE
    · subst hkf
      rw [hself, hk k (by omega)]
      split
      · exact hc.below k
      · exact hc.ordered k _ hlt ‹_›
    · rw [hk k' hkf] at hk' ⊢
      -- a mapped block after the entry's block would lie past the root's blocks
      have hk'lt : k' < blocksFor (DIRENTSIZE * m) := (hs.addrs k').1 hk'
      rw [hk k (by omega)]
      exact hc.ordered k k' hlt hk'
  refine ⟨fun j hj => ?_, hordered, fun k => ?_⟩
  · simp only [List.length_append, List.length_singleton] at hj
    by_cases hjm : j = m
    · subst hjm
      rw [List.getElem_append_right (by omega)]
      simp only [hes, Nat.sub_self, List.getElem_singleton]
      rw [hdata, Function.update_self, ← hlen, Block.read_write_self]
    · have hjm' : j < m := by omega
      obtain ⟨hle, hltb, hsame⟩ := entry_block_le hjm'
      rw [List.getElem_append_left (by omega)]
      -- entry `j`'s block keeps its address
      have hj_addr : (st₂.img.dinode ROOTINO).addrs (DIRENTSIZE * j / BSIZE) =
          (st.img.dinode ROOTINO).addrs (DIRENTSIZE * j / BSIZE) := by
        by_cases hb : DIRENTSIZE * j / BSIZE = DIRENTSIZE * m / BSIZE
        · rw [hb, hself, if_neg ((hs.addrs _).2 (hb ▸ hltb))]
        · exact hk _ hb
      rw [hj_addr, hdata]
      by_cases hx : (st.img.dinode ROOTINO).addrs (DIRENTSIZE * j / BSIZE) =
          (st₂.img.dinode ROOTINO).addrs (DIRENTSIZE * m / BSIZE)
      · -- the same block: then the same file block, and the two entries do not overlap
        have hb : DIRENTSIZE * j / BSIZE = DIRENTSIZE * m / BSIZE := by
          by_contra hb
          have hne0 : (st₂.img.dinode ROOTINO).addrs (DIRENTSIZE * m / BSIZE) ≠ 0 :=
            (hs₂.addrs _).2 (by rw [(blocksFor_succ m).1]; omega)
          have := hordered _ _ (lt_of_le_of_ne hle hb) hne0
          rw [hj_addr] at this
          omega
        have hdisj : DIRENTSIZE * j % BSIZE + DIRENTSIZE ≤ DIRENTSIZE * m % BSIZE ∨
            DIRENTSIZE * m % BSIZE + bytes.length ≤ DIRENTSIZE * j % BSIZE := Or.inl (hsame hb)
        rw [hx, Function.update_self, Block.read_write_of_disjoint _ _ hdisj, ← hx]
        exact hc.entry j (by omega)
      · rw [Function.update_of_ne hx]
        exact hc.entry j (by omega)
  · by_cases hkf : k = DIRENTSIZE * m / BSIZE
    · subst hkf
      rw [hself, hfb]
      split
      · omega
      · exact hc.below _
    · rw [hk k hkf, hfb]
      have := hc.below k
      split <;> omega

theorem RootContent.of_frame {st st' : St} {es : List (List UInt8)} (hc : RootContent st es)
    (hd : st'.img.dinode ROOTINO = st.img.dinode ROOTINO) (hdata : st'.img.data = st.img.data)
    (hb : st.freeblock ≤ st'.freeblock) : RootContent st' es :=
  ⟨fun j hj => by rw [hd, hdata]; exact hc.entry j hj, fun k k' => by rw [hd]; exact hc.ordered k k',
    fun k => by rw [hd]; exact Nat.lt_of_lt_of_le (hc.below k) hb⟩

/-- An input file without contents: the root gains its entry. -/
theorem addFile_content {st st' : St} {m : Nat} {es : List (List UInt8)} {f : InputFile}
    (hs : RootShape st m) (hino : st.freeinode = m) (hm2 : 2 ≤ m) (hc : RootContent st es)
    (hes : es.length = m) (hm : DIRENTSIZE * (m + 1) ≤ NDIRECT * BSIZE) (hempty : f.content = [])
    (h : addFile st f = .ok st') : RootContent st' (es ++ [dirent m (fsName f.name)]) := by
  unfold addFile at h
  split at h
  · cases h
  · obtain ⟨hs₁, hinum, -⟩ := ialloc_file_root hs hino hm2
    have hc₁ : RootContent (ialloc st T_FILE).1 es := by
      refine hc.of_frame ?_ rfl le_rfl
      have hne : ROOTINO ≠ st.freeinode := by unfold ROOTINO; omega
      simp [ialloc, Function.update_of_ne hne]
    rw [hempty, Except.bind_eq_ok_iff] at h
    obtain ⟨st₂, h₂, hfold⟩ := h
    rw [show (ialloc st T_FILE).2 = m from hinum] at h₂
    have hfold' : st₂ = st' := by
      rwa [show List.toChunks BSIZE ([] : List UInt8) = [] from rfl, List.foldlM_nil,
        Except.pure_eq_ok_iff] at hfold
    subst hfold'
    exact iappend_root_content hs₁ hc₁ hes hm (length_dirent _ _) h₂

/-- The loop over input files without contents appends their entries in order. -/
theorem addFiles_content {st st' : St} {m : Nat} {es : List (List UInt8)}
    {files : List InputFile} (hs : RootShape st m) (hino : st.freeinode = m) (hm2 : 2 ≤ m)
    (hc : RootContent st es) (hes : es.length = m)
    (hm : DIRENTSIZE * (m + files.length) ≤ NDIRECT * BSIZE)
    (hempty : ∀ f ∈ files, f.content = []) (h : files.foldlM addFile st = .ok st') :
    RootContent st' (es ++ files.mapIdx fun i f => dirent (i + m) (fsName f.name)) := by
  induction files generalizing st m es with
  | nil =>
      rw [List.foldlM_nil, Except.pure_eq_ok_iff] at h
      subst h
      simpa using hc
  | cons f fs ih =>
      rw [List.foldlM_cons, Except.bind_eq_ok_iff] at h
      obtain ⟨st₁, h₁, hrest⟩ := h
      have hm1 : DIRENTSIZE * (m + 1) ≤ NDIRECT * BSIZE :=
        Nat.le_trans (Nat.mul_le_mul_left _ (by simp)) hm
      obtain ⟨hs₁, hino₁⟩ := addFile_root hs hino hm2 hm1 h₁
      have hc₁ := addFile_content hs hino hm2 hc hes hm1 (hempty f (by simp)) h₁
      have := ih hs₁ hino₁ (by omega) hc₁ (by simp [hes])
        (by simpa [Nat.add_assoc, Nat.add_comm 1] using hm) (fun g hg => hempty g (by simp [hg]))
        hrest
      simp only [List.mapIdx_cons, List.append_assoc, List.singleton_append] at this ⊢
      have e : (fun i (g : InputFile) => dirent (i + 1 + m) (fsName g.name)) =
          fun i g => dirent (i + (m + 1)) (fsName g.name) := by
        funext i g; rw [Nat.add_assoc, Nat.add_comm 1 m]
      rw [Nat.zero_add, e]
      exact this

/-! ## The image -/

/-- The steps of a successful `mkfs`: the two entries of the root, the input files, the size
fix and the bitmap. -/
theorem mkfs_ok_iff {files : List InputFile} {img : Image} :
    mkfs files = .ok img ↔ ∃ st₁ st₂ st₃,
      iappend (ialloc ⟨zeroImage, 1, nmeta⟩ T_DIR).1 ROOTINO (dirent ROOTINO ['.'.toUInt8]) =
        .ok st₁ ∧
      iappend st₁ ROOTINO (dirent ROOTINO ['.'.toUInt8, '.'.toUInt8]) = .ok st₂ ∧
      files.foldlM addFile st₂ = .ok st₃ ∧
      (fixRootSize st₃ ROOTINO).freeblock < BSIZE * 8 ∧
      img = { (fixRootSize st₃ ROOTINO).img with
              bitmap := fun b => decide (b < (fixRootSize st₃ ROOTINO).freeblock) } := by
  rw [mkfs, if_neg (by decide)]
  simp only [show (ialloc ⟨zeroImage, 1, nmeta⟩ T_DIR).2 = ROOTINO from rfl,
    Except.bind_eq_ok_iff, Except.pure_eq_ok_iff, balloc]
  constructor
  · rintro ⟨st₁, h₁, st₂, h₂, st₃, h₃, st₄, h₄, rfl⟩
    split at h₄
    · cases h₄
      exact ⟨st₁, st₂, st₃, h₁, h₂, h₃, ‹_›, rfl⟩
    · cases h₄
  · rintro ⟨st₁, st₂, st₃, h₁, h₂, h₃, hused, rfl⟩
    exact ⟨st₁, h₁, st₂, h₂, st₃, h₃, _, by rw [if_pos hused], rfl⟩

/-- At most `NINODES - 1` files leave room for their entries in the direct blocks. -/
theorem entries_fit {files : List InputFile} (hn : files.length + 1 < NINODES) :
    ∀ k ≤ files.length + 2, DIRENTSIZE * k ≤ NDIRECT * BSIZE := by
  intro k hk; unfold NINODES at hn; unfold DIRENTSIZE DIRSIZ NDIRECT BSIZE; omega

/-- The root right after its `ialloc`: no entries and no blocks. -/
theorem rootShape_init : RootShape (ialloc ⟨zeroImage, 1, nmeta⟩ T_DIR).1 0 := by
  -- an empty directory has no address and needs no block
  have hb : blocksFor 0 = 0 := by decide
  refine ⟨?_, ?_, fun j => ?_, ?_⟩ <;>
    simp only [ialloc, ROOTINO, Image.setDinode_dinode, Function.update_self, Dinode.zero, hb,
      Nat.mul_zero, ne_eq, not_true_eq_false, Nat.not_lt_zero, iff_self]
  unfold nmeta; omega

theorem rootContent_init : RootContent (ialloc ⟨zeroImage, 1, nmeta⟩ T_DIR).1 [] := by
  have hpos : 0 < nmeta := by unfold nmeta; omega
  refine ⟨fun j hj => absurd hj (Nat.not_lt_zero j), fun k k' _ h => ?_, fun k => ?_⟩
  · simp [ialloc, ROOTINO, Dinode.zero] at h
  · simpa [ialloc, ROOTINO, Dinode.zero] using hpos

/-- The entries `.` and `..`: they are appended, the next inode is `2`, and at most two blocks
are used. -/
theorem dots_ok : ∃ st₁ st₂,
    iappend (ialloc ⟨zeroImage, 1, nmeta⟩ T_DIR).1 ROOTINO (dirent ROOTINO ['.'.toUInt8]) =
      .ok st₁ ∧
    iappend st₁ ROOTINO (dirent ROOTINO ['.'.toUInt8, '.'.toUInt8]) = .ok st₂ ∧
    RootShape st₂ 2 ∧ st₂.freeinode = 2 ∧ st₂.freeblock ≤ nmeta + 2 ∧
    RootContent st₂ (rootEntries []) := by
  have hfit : ∀ k ≤ 2, DIRENTSIZE * k ≤ NDIRECT * BSIZE := @entries_fit [] (by decide)
  obtain ⟨st₁, e₁, hs₁, hino₁, hb₁, -⟩ :=
    iappend_root_entry rootShape_init (hfit 1 (by omega)) (length_dirent ROOTINO ['.'.toUInt8])
  obtain ⟨st₂, e₂, hs₂, hino₂, hb₂, -⟩ :=
    iappend_root_entry hs₁ (hfit 2 (by omega)) (length_dirent ROOTINO ['.'.toUInt8, '.'.toUInt8])
  have hc₁ := iappend_root_content rootShape_init rootContent_init rfl (hfit 1 (by omega))
    (length_dirent _ _) e₁
  have hc₂ := iappend_root_content hs₁ hc₁ rfl (hfit 2 (by omega)) (length_dirent _ _) e₂
  refine ⟨st₁, st₂, e₁, e₂, hs₂, by rw [hino₂, hino₁]; rfl, ?_, hc₂⟩
  simp only [ialloc] at hb₁
  omega

/-- The root directory as `mkfs` leaves it: its first `⌈16 m / 512⌉` blocks are allocated,
for its `m = files.length + 2` entries, and its size is `16 m` rounded up past the next
block boundary. -/
theorem mkfs_root {files : List InputFile} {img : Image} (h : mkfs files = .ok img)
    (hn : files.length + 1 < NINODES) :
    (img.dinode ROOTINO).type = T_DIR ∧
      (img.dinode ROOTINO).size = (DIRENTSIZE * (files.length + 2) / BSIZE + 1) * BSIZE ∧
      ∀ j, (img.dinode ROOTINO).addrs j ≠ 0 ↔ j < blocksFor (DIRENTSIZE * (files.length + 2)) := by
  obtain ⟨st₁, st₂, st₃, h₁, h₂, h₃, -, rfl⟩ := mkfs_ok_iff.1 h
  obtain ⟨st₁', st₂', e₁, e₂, hs₂, hino₂, -⟩ := dots_ok
  rw [e₁, Except.ok.injEq] at h₁
  subst h₁
  rw [e₂, Except.ok.injEq] at h₂
  subst h₂
  obtain ⟨hs₃, -⟩ := addFiles_root hs₂ hino₂ le_rfl
    (by rw [Nat.add_comm]; exact entries_fit hn _ le_rfl) h₃
  -- the size fix keeps the root's type and addresses
  simp only [fixRootSize, Image.setDinode_dinode, Function.update_self]
  refine ⟨hs₃.type, by rw [hs₃.size, Nat.add_comm 2], fun j => ?_⟩
  rw [hs₃.addrs, Nat.add_comm 2]

/-- The root directory of the image has a block index below `⌈size / BSIZE⌉` with no
address exactly when the number of its entries is a multiple of `BSIZE / DIRENTSIZE`. -/
theorem mkfs_root_hole_iff {files : List InputFile} {img : Image} (h : mkfs files = .ok img)
    (hn : files.length + 1 < NINODES) :
    (∃ j < blocksFor (img.dinode ROOTINO).size, (img.dinode ROOTINO).addrs j = 0) ↔
      (files.length + 2) % (BSIZE / DIRENTSIZE) = 0 := by
  obtain ⟨-, hsize, haddrs⟩ := mkfs_root h hn
  have key : ∀ j, (img.dinode ROOTINO).addrs j = 0 ↔
      blocksFor (DIRENTSIZE * (files.length + 2)) ≤ j := by
    intro j; have := haddrs j; omega
  simp only [key, hsize]
  unfold blocksFor DIRENTSIZE DIRSIZ BSIZE
  constructor
  · rintro ⟨j, hj, hle⟩; omega
  · intro h0; exact ⟨_, (by omega), le_rfl⟩

/-- The entries of the root directory in the image, for input files without contents: entry
`j` at offset `16 j` is the `j`-th of `rootEntries`. -/
theorem mkfs_root_content {files : List InputFile} {img : Image} (h : mkfs files = .ok img)
    (hn : files.length + 1 < NINODES) (hempty : ∀ f ∈ files, f.content = []) :
    ∀ j (hj : j < (rootEntries files).length),
      (img.data ((img.dinode ROOTINO).addrs (DIRENTSIZE * j / BSIZE))).read
        (DIRENTSIZE * j % BSIZE) DIRENTSIZE = (rootEntries files)[j] := by
  obtain ⟨st₁, st₂, st₃, h₁, h₂, h₃, -, rfl⟩ := mkfs_ok_iff.1 h
  obtain ⟨st₁', st₂', e₁, e₂, hs₂, hino₂, -, hc₂⟩ := dots_ok
  rw [e₁, Except.ok.injEq] at h₁
  subst h₁
  rw [e₂, Except.ok.injEq] at h₂
  subst h₂
  have hc₃ := addFiles_content hs₂ hino₂ le_rfl hc₂ rfl
    (by rw [Nat.add_comm]; exact entries_fit hn _ le_rfl) hempty h₃
  -- the size fix and the bitmap leave the root's addresses and the data alone
  intro j hj
  have := hc₃.entry j (by simpa [rootEntries] using hj)
  simp only [fixRootSize, Image.setDinode_data, Image.setDinode_dinode, Function.update_self]
  simpa [rootEntries] using this

/-- An input file with no contents costs at most the block its entry may start. -/
theorem addFile_empty {st : St} {m : Nat} {f : InputFile} (hs : RootShape st m)
    (hino : st.freeinode = m) (hm2 : 2 ≤ m) (hm : DIRENTSIZE * (m + 1) ≤ NDIRECT * BSIZE)
    (hc : f.content = []) (hname : '/'.toUInt8 ∉ f.name) :
    ∃ st', addFile st f = .ok st' ∧ st'.freeblock ≤ st.freeblock + 1 := by
  obtain ⟨hs₁, -, -⟩ := ialloc_file_root hs hino hm2
  obtain ⟨st₂, h₂, -, -, hb₂, -⟩ := iappend_root_entry hs₁ hm (length_dirent _ _)
  refine ⟨st₂, ?_, by simpa [ialloc] using hb₂⟩
  rw [addFile, if_neg hname, hc, Except.bind_eq_ok_iff]
  exact ⟨st₂, h₂, rfl⟩

/-- `mkfs` succeeds on input files that have no contents and no '/' in their names, as
many as the inode table holds, and leaves the blocks past `nmeta + files.length + 2` free. -/
theorem mkfs_ok_of_empty {files : List InputFile}
    (hf : ∀ f ∈ files, f.content = [] ∧ '/'.toUInt8 ∉ f.name) (hn : files.length + 1 < NINODES) :
    ∃ img, mkfs files = .ok img ∧ ∀ b, nmeta + files.length + 2 ≤ b → img.bitmap b = false := by
  obtain ⟨st₁, st₂, e₁, e₂, hs₂, hino₂, hb₂, -⟩ := dots_ok
  -- each file adds one entry and at most one block
  have hloop := Except.foldlM_exists_ok (f := addFile) (l := files) (n := 2)
    (fun k c => RootShape c k ∧ c.freeinode = k ∧ 2 ≤ k ∧ c.freeblock ≤ nmeta + k) ?_
    ⟨hs₂, hino₂, le_rfl, hb₂⟩
  · obtain ⟨st₃, e₃, -, -, -, hb₃⟩ := hloop
    -- the bitmap of the blocks handed out fits in its block
    have hused : (fixRootSize st₃ ROOTINO).freeblock < BSIZE * 8 := by
      have hmeta : nmeta = 59 := rfl
      have hninodes : NINODES = 200 := rfl
      simp only [fixRootSize, show BSIZE * 8 = 4096 from rfl]
      omega
    refine ⟨_, mkfs_ok_iff.2 ⟨st₁, st₂, st₃, e₁, e₂, e₃, hused, rfl⟩, fun b hb => ?_⟩
    show decide (b < st₃.freeblock) = false
    simp only [decide_eq_false_iff_not, not_lt]
    omega
  · rintro k f c hf' hk ⟨hc, hcino, hk2, hcb⟩
    have hm := entries_fit hn (k + 1) (by omega)
    obtain ⟨c', hc', hb'⟩ := addFile_empty hc hcino hk2 hm (hf f hf').1 (hf f hf').2
    obtain ⟨h1, h2⟩ := addFile_root hc hcino hk2 hm hc'
    exact ⟨c', hc', h1, h2, by omega, by omega⟩

/-- An input file without contents: the dinodes other than the root's keep no block, and
`freeblock` only grows. -/
theorem addFile_others {st st' : St} {f : InputFile} (hc : f.content = [])
    (hz : ∀ i, i ≠ ROOTINO → ∀ j, (st.img.dinode i).addrs j = 0) (h : addFile st f = .ok st') :
    (∀ i, i ≠ ROOTINO → ∀ j, (st'.img.dinode i).addrs j = 0) ∧ st.freeblock ≤ st'.freeblock := by
  unfold addFile at h
  split at h
  · cases h
  · rw [hc, Except.bind_eq_ok_iff] at h
    obtain ⟨st₂, h₂, h₃⟩ := h
    -- no contents: no chunk to append
    rw [show List.toChunks BSIZE ([] : List UInt8) = [] from rfl, List.foldlM_nil,
      Except.pure_eq_ok_iff] at h₃
    subst h₃
    obtain ⟨f1, -, f3⟩ := iappend_frame h₂
    refine ⟨fun i hi j => ?_, by simpa [ialloc] using f3⟩
    rw [f1 i hi]
    simp only [ialloc, Image.setDinode_dinode]
    by_cases hi' : i = st.freeinode
    · subst hi'
      simp [Dinode.zero]
    · rw [Function.update_of_ne hi']
      exact hz i hi j

/-- The image `mkfs` builds from files without contents is consistent with its bitmap: the
metadata blocks are marked, every block a dinode names is marked, and no inode has an
indirect block. -/
theorem mkfs_empty_refs {files : List InputFile} {img : Image} (h : mkfs files = .ok img)
    (hn : files.length + 1 < NINODES) (hempty : ∀ f ∈ files, f.content = []) :
    (∀ b < nmeta, img.bitmap b = true) ∧ (∀ i, (img.dinode i).addrs NDIRECT = 0) ∧
      ∀ i j, (img.dinode i).addrs j ≠ 0 → img.bitmap ((img.dinode i).addrs j) = true := by
  obtain ⟨st₁, st₂, st₃, h₁, h₂, h₃, -, rfl⟩ := mkfs_ok_iff.1 h
  obtain ⟨st₁', st₂', e₁, e₂, hs₂, hino₂, -, hc₂⟩ := dots_ok
  rw [e₁, Except.ok.injEq] at h₁
  subst h₁
  rw [e₂, Except.ok.injEq] at h₂
  subst h₂
  have hfit := entries_fit hn
  obtain ⟨hs₃, -⟩ := addFiles_root hs₂ hino₂ le_rfl (by rw [Nat.add_comm]; exact hfit _ le_rfl) h₃
  have hc₃ := addFiles_content hs₂ hino₂ le_rfl hc₂ rfl
    (by rw [Nat.add_comm]; exact hfit _ le_rfl) hempty h₃
  -- after the two dots only the root has blocks, and `freeblock` starts at `nmeta`
  obtain ⟨d1, -, d3⟩ := iappend_frame e₁
  obtain ⟨d1', -, d3'⟩ := iappend_frame e₂
  have hz₂ : ∀ i, i ≠ ROOTINO → ∀ j, (st₂'.img.dinode i).addrs j = 0 := by
    intro i hi j
    rw [d1' i hi, d1 i hi]
    simp [ialloc, Function.update_of_ne (show i ≠ 1 from hi), zeroImage, Dinode.zero]
  have hb₂ : nmeta ≤ st₂'.freeblock := le_trans (by simpa [ialloc] using d3) d3'
  have hloop := Except.foldlM_invariant (n := 0)
    (fun _ c => (∀ i, i ≠ ROOTINO → ∀ j, (c.img.dinode i).addrs j = 0) ∧ nmeta ≤ c.freeblock)
    (fun _ f c c' hf _ ⟨hz, hb⟩ hstep => by
      obtain ⟨hz', hb'⟩ := addFile_others (hempty f hf) hz hstep
      exact ⟨hz', le_trans hb hb'⟩)
    ⟨hz₂, hb₂⟩ h₃
  obtain ⟨hz₃, hb₃⟩ := hloop
  -- the size fix touches the root's size only; the bitmap marks the blocks below `freeblock`
  have hdin : ∀ i, ((fixRootSize st₃ ROOTINO).img.dinode i).addrs = (st₃.img.dinode i).addrs := by
    intro i
    by_cases hi : i = ROOTINO
    · subst hi; simp [fixRootSize]
    · simp [fixRootSize, Function.update_of_ne hi]
  refine ⟨fun b hb => ?_, fun i => ?_, fun i j hj => ?_⟩
  · show decide (b < st₃.freeblock) = true
    simpa using Nat.lt_of_lt_of_le hb hb₃
  · show ((fixRootSize st₃ ROOTINO).img.dinode i).addrs NDIRECT = 0
    rw [hdin]
    by_cases hi : i = ROOTINO
    · subst hi
      have := (hs₃.addrs NDIRECT).not.2
      simp only [not_not, not_lt] at this
      exact this (by have := hfit _ le_rfl; unfold blocksFor at *; unfold DIRENTSIZE DIRSIZ BSIZE NDIRECT at *; omega)
    · exact hz₃ i hi NDIRECT
  · show decide (((fixRootSize st₃ ROOTINO).img.dinode i).addrs j < st₃.freeblock) = true
    rw [hdin] at hj ⊢
    by_cases hi : i = ROOTINO
    · subst hi
      simpa using hc₃.below j
    · exact absurd (hz₃ i hi j) hj

end Mkfs

end Xv6
