import Mathlib
import Xv6.Param

/-!
# On-disk layout

The superblock, the on-disk inode and the directory entry of `fs.h`, and the image of a
disk as the file system reads it: the inode table indexed by i-number, the free-block
bitmap indexed by block number, and the data blocks. A data block is kept as its bytes,
since the code reads directory entries and indirect block arrays out of the same blocks.

`Image.install` copies one block of an image into another: the dinodes that live in it,
the bitmap bits it holds, or the data block itself. It is how the log's commit moves the
logged blocks of the buffer cache onto the disk.
-/

namespace Xv6

/-- `struct superblock`. -/
structure Superblock where
  size : Nat
  nblocks : Nat
  ninodes : Nat
  nlog : Nat
  logstart : Nat
  inodestart : Nat
  bmapstart : Nat
  deriving DecidableEq, Repr

/-- Block containing inode `i`. -/
def IBLOCK (i : Nat) (sb : Superblock) : Nat := i / IPB + sb.inodestart

/-- Block of the free map containing the bit for block `b`. -/
def BBLOCK (b : Nat) (sb : Superblock) : Nat := b / BPB + sb.bmapstart

/-- The bytes of a disk block, by offset. -/
abbrev Block := Nat → UInt8

namespace Block

/-- The block of zeroes (`memset(bp->data, 0, BSIZE)`). -/
def zero : Block := fun _ => 0

/-- The `uint` at word `i`, stored little-endian (`((uint*)bp->data)[i]`). -/
def getU32 (blk : Block) (i : Nat) : Nat :=
  (blk (4 * i)).toNat + 256 * (blk (4 * i + 1)).toNat + 65536 * (blk (4 * i + 2)).toNat +
    16777216 * (blk (4 * i + 3)).toNat

/-- Store `v` as the `uint` at word `i`. -/
def setU32 (blk : Block) (i v : Nat) : Block := fun j =>
  if j = 4 * i then UInt8.ofNat v
  else if j = 4 * i + 1 then UInt8.ofNat (v / 256)
  else if j = 4 * i + 2 then UInt8.ofNat (v / 65536)
  else if j = 4 * i + 3 then UInt8.ofNat (v / 16777216)
  else blk j

/-- The `m` bytes starting at offset `start` (`memmove(dst, bp->data + start, m)`). -/
def read (blk : Block) (start m : Nat) : List UInt8 :=
  (List.range m).map fun j => blk (start + j)

/-- Copy `bytes` into the block at offset `start` (`memmove(bp->data + start, src, m)`). -/
def write (blk : Block) (start : Nat) (bytes : List UInt8) : Block := fun j =>
  if start ≤ j ∧ j < start + bytes.length then bytes.getD (j - start) 0 else blk j

@[simp] theorem getU32_zero (i : Nat) : zero.getU32 i = 0 := rfl

theorem getU32_setU32_self (blk : Block) (i v : Nat) (hv : v < 2 ^ 32) :
    (blk.setU32 i v).getU32 i = v := by
  simp only [getU32, setU32, if_pos]
  simp only [show 4 * i + 1 ≠ 4 * i by omega, show 4 * i + 2 ≠ 4 * i by omega,
    show 4 * i + 2 ≠ 4 * i + 1 by omega, show 4 * i + 3 ≠ 4 * i by omega,
    show 4 * i + 3 ≠ 4 * i + 1 by omega, show 4 * i + 3 ≠ 4 * i + 2 by omega, if_false,
    UInt8.toNat_ofNat', Nat.reducePow]
  omega

theorem getU32_setU32_of_ne (blk : Block) {i j : Nat} (v : Nat) (h : i ≠ j) :
    (blk.setU32 i v).getU32 j = blk.getU32 j := by
  unfold getU32 setU32
  have h0 : 4 * j ≠ 4 * i ∧ 4 * j ≠ 4 * i + 1 ∧ 4 * j ≠ 4 * i + 2 ∧ 4 * j ≠ 4 * i + 3 := by omega
  have h1 : 4 * j + 1 ≠ 4 * i ∧ 4 * j + 1 ≠ 4 * i + 1 ∧ 4 * j + 1 ≠ 4 * i + 2 ∧
      4 * j + 1 ≠ 4 * i + 3 := by omega
  have h2 : 4 * j + 2 ≠ 4 * i ∧ 4 * j + 2 ≠ 4 * i + 1 ∧ 4 * j + 2 ≠ 4 * i + 2 ∧
      4 * j + 2 ≠ 4 * i + 3 := by omega
  have h3 : 4 * j + 3 ≠ 4 * i ∧ 4 * j + 3 ≠ 4 * i + 1 ∧ 4 * j + 3 ≠ 4 * i + 2 ∧
      4 * j + 3 ≠ 4 * i + 3 := by omega
  simp only [h0, h1, h2, h3, if_false]

@[simp] theorem length_read (blk : Block) (start m : Nat) : (blk.read start m).length = m := by
  simp [read]

@[simp] theorem read_zero (start m : Nat) : zero.read start m = List.replicate m 0 := by
  simp [read, zero, List.map_const']

theorem read_write_self (blk : Block) (start : Nat) (bytes : List UInt8) :
    (blk.write start bytes).read start bytes.length = bytes := by
  apply List.ext_getElem (by simp)
  intro j hj _
  simp only [length_read] at hj
  simp [read, write, hj]

/-- Bytes outside the written range are untouched. -/
theorem write_of_not_mem (blk : Block) {start j : Nat} (bytes : List UInt8)
    (h : j < start ∨ start + bytes.length ≤ j) : blk.write start bytes j = blk j := by
  simp only [write]
  rw [if_neg (by omega)]

/-- Reading a range that a write does not overlap. -/
theorem read_write_of_disjoint (blk : Block) {start m wstart : Nat} (bytes : List UInt8)
    (h : start + m ≤ wstart ∨ wstart + bytes.length ≤ start) :
    (blk.write wstart bytes).read start m = blk.read start m := by
  simp only [read]
  apply List.map_congr_left
  intro j hj
  rw [List.mem_range] at hj
  exact write_of_not_mem blk bytes (by omega)

end Block

/-- `struct dinode`: the fields of a short are `Int`, `type` only ever holds `0` or a
`T_*` constant. Only the `NDIRECT + 1` addresses below `NDIRECT + 1` are on disk; the
code never reads or writes the others, which stay `0`. -/
structure Dinode where
  type : Nat
  major : Int
  minor : Int
  nlink : Int
  size : Nat
  addrs : Nat → Nat

/-- A dinode of zeroes, as `memset(dip, 0, sizeof(*dip))` leaves it. -/
def Dinode.zero : Dinode := ⟨0, 0, 0, 0, 0, fun _ => 0⟩

/-- `struct dirent`: the `name` field is the `DIRSIZ` bytes of the entry. -/
structure Dirent where
  inum : Nat
  name : List UInt8
  deriving DecidableEq, Repr

namespace Dirent

/-- The `sizeof(struct dirent)` bytes of an entry: the `ushort` inum little-endian, then the
name. -/
def encode (de : Dirent) : List UInt8 :=
  [UInt8.ofNat de.inum, UInt8.ofNat (de.inum / 256)] ++ de.name

/-- Read an entry back from the bytes `readi` copied into it. -/
def decode (bytes : List UInt8) : Dirent :=
  ⟨(bytes.getD 0 0).toNat + 256 * (bytes.getD 1 0).toNat, (bytes.drop 2).take DIRSIZ⟩

theorem decode_encode (de : Dirent) (hi : de.inum < 65536) (hn : de.name.length = DIRSIZ) :
    decode de.encode = de := by
  obtain ⟨inum, name⟩ := de
  simp only at hi hn
  simp only [decode, encode, List.cons_append, List.nil_append, List.getD_cons_zero,
    List.getD_cons_succ, UInt8.toNat_ofNat', Nat.reducePow, List.drop_succ_cons, List.drop_zero, Dirent.mk.injEq]
  refine ⟨by omega, ?_⟩
  rw [List.take_of_length_le (by omega)]

/-- A block of zeroes holds free entries only. -/
@[simp] theorem decode_replicate_zero (m : Nat) : (decode (List.replicate m 0)).inum = 0 := by
  cases m with
  | zero => rfl
  | succ m => cases m <;> simp [decode, List.replicate_succ]

theorem length_encode (de : Dirent) : de.encode.length = 2 + de.name.length := by
  simp [encode]; omega

end Dirent

/-- `strncpy(dst, src, n)` into an `n`-byte field: the bytes of `src` up to its NUL, at most
`n` of them, padded with NULs. -/
def strncpy (src : List UInt8) (n : Nat) : List UInt8 :=
  (src.takeWhile (· ≠ 0)).take n ++ List.replicate (n - (src.takeWhile (· ≠ 0)).length) 0

theorem length_strncpy (src : List UInt8) (n : Nat) : (strncpy src n).length = n := by
  simp only [strncpy, List.length_append, List.length_take, List.length_replicate]
  omega

/-- `strncmp(p, q, n)` of `string.c`, where a string ends at its NUL or at the end of the
list. -/
def strncmp : List UInt8 → List UInt8 → Nat → Int
  | _, _, 0 => 0
  | p, q, n + 1 =>
      if p.headD 0 ≠ 0 ∧ p.headD 0 = q.headD 0 then strncmp p.tail q.tail n
      else ((p.headD 0).toNat : Int) - (q.headD 0).toNat

/-- The disk as the file system reads it. -/
structure Image where
  dinode : Nat → Dinode
  bitmap : Nat → Bool
  data : Nat → Block

namespace Image

def setDinode (img : Image) (i : Nat) (d : Dinode) : Image :=
  { img with dinode := Function.update img.dinode i d }

def setBit (img : Image) (b : Nat) (v : Bool) : Image :=
  { img with bitmap := Function.update img.bitmap b v }

def setData (img : Image) (b : Nat) (blk : Block) : Image :=
  { img with data := Function.update img.data b blk }

@[simp] theorem setDinode_dinode (img : Image) (i : Nat) (d : Dinode) :
    (img.setDinode i d).dinode = Function.update img.dinode i d := rfl
@[simp] theorem setDinode_bitmap (img : Image) (i : Nat) (d : Dinode) :
    (img.setDinode i d).bitmap = img.bitmap := rfl
@[simp] theorem setDinode_data (img : Image) (i : Nat) (d : Dinode) :
    (img.setDinode i d).data = img.data := rfl
@[simp] theorem setBit_dinode (img : Image) (b : Nat) (v : Bool) :
    (img.setBit b v).dinode = img.dinode := rfl
@[simp] theorem setBit_bitmap (img : Image) (b : Nat) (v : Bool) :
    (img.setBit b v).bitmap = Function.update img.bitmap b v := rfl
@[simp] theorem setBit_data (img : Image) (b : Nat) (v : Bool) :
    (img.setBit b v).data = img.data := rfl
@[simp] theorem setData_dinode (img : Image) (b : Nat) (blk : Block) :
    (img.setData b blk).dinode = img.dinode := rfl
@[simp] theorem setData_bitmap (img : Image) (b : Nat) (blk : Block) :
    (img.setData b blk).bitmap = img.bitmap := rfl
@[simp] theorem setData_data (img : Image) (b : Nat) (blk : Block) :
    (img.setData b blk).data = Function.update img.data b blk := rfl

/-- Copy block `bno` of `src` over `dst`: the dinodes stored in it, the bitmap bits it
holds and its data. -/
def install (sb : Superblock) (src dst : Image) (bno : Nat) : Image where
  dinode i := if IBLOCK i sb = bno then src.dinode i else dst.dinode i
  bitmap b := if BBLOCK b sb = bno then src.bitmap b else dst.bitmap b
  data b := if b = bno then src.data b else dst.data b

/-- Install every block of a list, in order. -/
def installAll (sb : Superblock) (src : Image) (bnos : List Nat) (dst : Image) : Image :=
  bnos.foldl (install sb src) dst

theorem installAll_dinode (sb : Superblock) (src : Image) (bnos : List Nat) (dst : Image)
    (i : Nat) :
    (installAll sb src bnos dst).dinode i =
      if IBLOCK i sb ∈ bnos then src.dinode i else dst.dinode i := by
  induction bnos generalizing dst with
  | nil => simp [installAll]
  | cons b bs ih =>
      simp only [installAll, List.foldl_cons] at ih ⊢
      rw [ih]
      by_cases hb : IBLOCK i sb = b <;> by_cases hbs : IBLOCK i sb ∈ bs <;> simp [install, hb, hbs]

theorem installAll_bitmap (sb : Superblock) (src : Image) (bnos : List Nat) (dst : Image)
    (b : Nat) :
    (installAll sb src bnos dst).bitmap b =
      if BBLOCK b sb ∈ bnos then src.bitmap b else dst.bitmap b := by
  induction bnos generalizing dst with
  | nil => simp [installAll]
  | cons c cs ih =>
      simp only [installAll, List.foldl_cons] at ih ⊢
      rw [ih]
      by_cases hc : BBLOCK b sb = c <;> by_cases hcs : BBLOCK b sb ∈ cs <;>
        simp [install, hc, hcs]

end Image

end Xv6
