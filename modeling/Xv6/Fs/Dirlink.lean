import Xv6.Fs.Content
import Xv6.Fs.Checkpoint

/-!
# `dirlink` into a full directory

`dirlink` looks for the first free entry of the directory and writes the new one there, or at
the end. A directory is a file, at most `MAXFILE` blocks long: when every entry of a directory
of that size is in use, the write at its end is past `MAXFILE * BSIZE`, `writei` returns `-1`,
and `dirlink` panics "dirlink" (`dirlink_full`). `link` puts a new name for an existing inode
into a directory without taking an inode, so a process can fill one.

`fullDir` is such a directory: `.` and `..`, then names of three letters for one file, in the
`MAXFILE` blocks `100` to `239`, with its indirect block at `99`.
-/

namespace Xv6

namespace Fs

variable {s : Fs} {dp : Fin NINODE} {name : List UInt8}

/-- A run of entries in use, read without changing the state: the scan for a free entry passes
over all of them. -/
theorem emptyFrom_skip {past : Nat} {offs : List Nat}
    (h : ∀ off ∈ offs, ∃ bytes, s.readi dp off DIRENTSIZE = .ok (DIRENTSIZE, bytes, s) ∧
      (Dirent.decode bytes).inum ≠ 0) :
    s.emptyFrom dp past offs = .ok (past, s) := by
  induction offs with
  | nil => rfl
  | cons off offs ih =>
    obtain ⟨bytes, hr, hused⟩ := h off List.mem_cons_self
    rw [emptyFrom, hr, Except.ok_bind]
    simp only [ne_eq, not_true_eq_false, if_false, hused]
    exact ih fun o ho => h o (List.mem_cons_of_mem _ ho)

theorem length_dirOffsets (size : Nat) :
    (dirOffsets size).length = (size + DIRENTSIZE - 1) / DIRENTSIZE := by
  simp [dirOffsets]

/-- **A full directory.** When a directory of `MAXFILE` blocks has every entry in use under
another name, `dirlink` panics. -/
theorem dirlink_full {inum : Nat} (ht : (s.inode dp).type = T_DIR)
    (hsize : (s.inode dp).size = MAXFILE * BSIZE)
    (h : ∀ off ∈ dirOffsets (s.inode dp).size, ∃ bytes,
      s.readi dp off DIRENTSIZE = .ok (DIRENTSIZE, bytes, s) ∧
        (Dirent.decode bytes).inum ≠ 0 ∧ namecmp name (Dirent.decode bytes).name ≠ 0) :
    s.dirlink dp name inum = .error "dirlink" := by
  -- no entry carries the name
  have hlook : s.dirlookup dp name = .ok (none, s) := by
    refine dirlookup_none ht ?_
    have hskip : s.lookupFrom dp name (dirOffsets (s.inode dp).size ++ []) =
        s.lookupFrom dp name [] :=
      lookupFrom_skip fun off hoff => (h off hoff).imp fun _ hb => ⟨hb.1, .inr hb.2.2⟩
    rw [List.append_nil] at hskip
    rw [hskip]
    rfl
  -- no entry is free: the new one goes at the end
  have hend : DIRENTSIZE * (dirOffsets (s.inode dp).size).length = MAXFILE * BSIZE := by
    rw [length_dirOffsets, hsize]
    decide
  have hempty : s.emptyFrom dp (MAXFILE * BSIZE) (dirOffsets (s.inode dp).size) =
      .ok (MAXFILE * BSIZE, s) :=
    emptyFrom_skip fun off hoff => (h off hoff).imp fun _ hb => ⟨hb.1, hb.2.1⟩
  -- and the write past `MAXFILE` blocks is refused
  have hw : s.writei dp (Dirent.encode ⟨inum, strncpy name DIRSIZ⟩) (MAXFILE * BSIZE)
      DIRENTSIZE = .ok (-1, s) :=
    writei_reject (by rw [ht]; decide) _ (by decide) (by decide) (.inr (.inr (by decide)))
  rw [dirlink, hlook, Except.ok_bind]
  simp only [hend, hempty, Except.ok_bind, hw]
  rfl

end Fs

/-- `strncpy` of a string that starts with a byte other than NUL starts with that byte. -/
theorem strncpy_cons {c : UInt8} {l : List UInt8} (hc : c ≠ 0) (n : Nat) :
    strncpy (c :: l) (n + 1) = c :: strncpy l n := by
  simp only [strncpy, List.takeWhile_cons, ne_eq, hc, not_false_eq_true, decide_true, if_true,
    List.take_succ_cons, List.length_cons, List.cons_append]
  rw [Nat.add_sub_add_right]

/-- Two names that differ in their first byte compare unequal. -/
theorem strncmp_cons_ne {a b : UInt8} {p q : List UInt8} (h : a ≠ b) (n : Nat) :
    strncmp (a :: p) (b :: q) (n + 1) ≠ 0 := by
  have hne : a.toNat ≠ b.toNat := fun h' => h (UInt8.toNat_inj.1 h')
  rw [strncmp, if_neg (by simp [h])]
  simp only [List.headD_cons]
  omega

/-- The `i`-th entry of `fullDir`: `.` and `..` for the root, then names of three letters for
the file `2`. -/
def fullEntry (i : Nat) : Dirent :=
  if i = 0 then ⟨ROOTINO, strncpy (cstr ".") DIRSIZ⟩
  else if i = 1 then ⟨ROOTINO, strncpy (cstr "..") DIRSIZ⟩
  else ⟨2, strncpy [UInt8.ofNat (97 + i / 676 % 26), UInt8.ofNat (97 + i / 26 % 26),
    UInt8.ofNat (97 + i % 26)] DIRSIZ⟩

/-- The blocks of `fullDir`: its indirect block at `99`, which lists the blocks from `112`, and
its entries in the blocks `100` to `239`. -/
def fullDirData (b : Nat) : Block := fun j =>
  if b = 99 then (if j % 4 = 0 then UInt8.ofNat (112 + j / 4) else 0)
  else if 100 ≤ b ∧ b < 100 + MAXFILE then
    (fullEntry ((b - 100) * (BSIZE / DIRENTSIZE) + j / DIRENTSIZE)).encode.getD
      (j % DIRENTSIZE) 0
  else 0

/-- The root directory, locked in the first entry of the inode cache inside a transaction, with
`MAXFILE` blocks of entries in use. -/
def fullDir : Fs where
  sb := Mkfs.sb
  disk := ⟨fun _ => Dinode.zero, fun b => decide (b < 100 + MAXFILE), fullDirData⟩
  mem := ⟨fun _ => Dinode.zero, fun b => decide (b < 100 + MAXFILE), fullDirData⟩
  log := ⟨Mkfs.sb.logstart, Mkfs.sb.nlog, 1, false, ⟨0, fun _ => 0⟩⟩
  inode := fun i => if i.val = 0 then
      ⟨ROOTDEV, ROOTINO, 1, true, true, T_DIR, 0, 0, 1, MAXFILE * BSIZE,
        fun k => if k < NDIRECT then 100 + k else if k = NDIRECT then 99 else 0⟩
    else ⟨0, 0, 0, false, false, 0, 0, 0, 0, 0, fun _ => 0⟩
  devsw := fun _ => ⟨none, none⟩

namespace FullDir

/-- The slot of `fullDir`'s directory in the inode cache. -/
def dp : Fin NINODE := ⟨0, NINODE_pos⟩

theorem getU32_ind {j : Nat} (hj : j < NINDIRECT) : (fullDirData 99).getU32 j = 112 + j := by
  have h1 : (4 * j + 1) % 4 ≠ 0 := by omega
  have h2 : (4 * j + 2) % 4 ≠ 0 := by omega
  have h3 : (4 * j + 3) % 4 ≠ 0 := by omega
  have hlt : 112 + j < 256 := by unfold NINDIRECT BSIZE at hj; omega
  simp only [Block.getU32, fullDirData, Nat.mul_mod_right, if_pos,
    if_neg h1, if_neg h2, if_neg h3, Nat.mul_div_cancel_left _ (show 0 < 4 by decide),
    UInt8.toNat_ofNat', Nat.mod_eq_of_lt hlt]
  rfl

/-- The file's block `bn` is `100 + bn`. -/
theorem blockOf_eq {bn : Nat} (h : bn < MAXFILE) : fullDir.blockOf dp bn = 100 + bn := by
  unfold Fs.blockOf
  by_cases hd : bn < NDIRECT
  · simp [fullDir, dp, hd]
  · have hind : bn - NDIRECT < NINDIRECT := by unfold MAXFILE at h; omega
    simp only [fullDir, dp, if_neg hd, if_true, lt_self_iff_false, if_false]
    rw [if_neg (by decide), getU32_ind hind]
    unfold NDIRECT at hd ⊢
    omega

theorem fileOk : fullDir.FileOk dp where
  size := by simp [fullDir, dp]
  inj a b ha hb _ hab := by
    rw [blockOf_eq ha, blockOf_eq hb] at hab
    omega
  used bn hbn _ := by
    rw [blockOf_eq hbn]
    simp [fullDir]
    omega
  ind_used _ := by
    simp [fullDir, dp]
    decide
  ind_ne _ bn hbn := by
    rw [blockOf_eq hbn]
    simp [fullDir, dp]
    omega
  boot := by simp [fullDir]

theorem mapped : fullDir.Mapped dp (fullDir.inode dp).size := by
  intro bn hbn
  have hsize : (fullDir.inode dp).size = MAXFILE * BSIZE := by simp [fullDir, dp]
  rw [hsize] at hbn
  rw [blockOf_eq (by unfold BSIZE at hbn; omega)]
  omega

/-- The entry at offset `DIRENTSIZE * i` of the directory is `fullEntry i`. -/
theorem entry {i : Nat} (hi : i < MAXFILE * BSIZE / DIRENTSIZE) :
    ((fullDir.content dp).drop (DIRENTSIZE * i)).take DIRENTSIZE = (fullEntry i).encode := by
  have hsize : (fullDir.inode dp).size = MAXFILE * BSIZE := by simp [fullDir, dp]
  have hlen : (fullEntry i).encode.length = DIRENTSIZE := by
    rw [Dirent.length_encode]
    unfold fullEntry
    split_ifs <;> simp [length_strncpy, DIRENTSIZE]
  rw [Fs.content_slice (by rw [hsize]; unfold MAXFILE NDIRECT NINDIRECT BSIZE DIRENTSIZE DIRSIZ at *; omega)]
  apply List.ext_getElem
  · simp [hlen]
  · intro j h1 h2
    simp only [List.length_map, List.length_range] at h1
    -- the byte lies in block `(DIRENTSIZE * i + j) / BSIZE`, in the slot of entry `i`
    have hbn : (DIRENTSIZE * i + j) / BSIZE < MAXFILE := by
      unfold MAXFILE NDIRECT NINDIRECT BSIZE DIRENTSIZE DIRSIZ at *
      omega
    have hslot : ((100 + (DIRENTSIZE * i + j) / BSIZE) - 100) * (BSIZE / DIRENTSIZE) +
        (DIRENTSIZE * i + j) % BSIZE / DIRENTSIZE = i := by
      unfold BSIZE DIRENTSIZE DIRSIZ at *
      omega
    have hpos : (DIRENTSIZE * i + j) % BSIZE % DIRENTSIZE = j := by
      unfold BSIZE DIRENTSIZE DIRSIZ at *
      omega
    have hdata : 100 ≤ 100 + (DIRENTSIZE * i + j) / BSIZE ∧
        100 + (DIRENTSIZE * i + j) / BSIZE < 100 + MAXFILE := by
      unfold MAXFILE NDIRECT NINDIRECT BSIZE DIRENTSIZE DIRSIZ at *
      omega
    simp only [List.getElem_map, List.getElem_range, Fs.byteAt, blockOf_eq hbn]
    simp only [fullDir, fullDirData, if_neg (show 100 + (DIRENTSIZE * i + j) / BSIZE ≠ 99 by omega),
      if_pos hdata, hslot, hpos]
    exact List.getD_eq_getElem _ _ _

/-- The name `new` is not the name of any entry. -/
theorem namecmp_new {i : Nat} (hi : i < MAXFILE * BSIZE / DIRENTSIZE) :
    Fs.namecmp (cstr "new") (fullEntry i).name ≠ 0 := by
  rw [show cstr "new" = [110, 101, 119] by decide]
  unfold Fs.namecmp fullEntry
  split_ifs with h0 h1
  · exact strncmp_cons_ne (by decide) _
  · exact strncmp_cons_ne (by decide) _
  · have hfirst : i / 676 % 26 < 7 := by
      unfold MAXFILE NDIRECT NINDIRECT BSIZE DIRENTSIZE DIRSIZ at hi
      omega
    rw [show DIRSIZ = 13 + 1 from rfl, strncpy_cons (by simp [UInt8.ext_iff]; omega)]
    refine strncmp_cons_ne ?_ _
    -- the first letter is one of `a` to `g`
    intro h
    have h' := congrArg UInt8.toNat h
    rw [show (110 : UInt8).toNat = 110 from rfl, UInt8.toNat_ofNat'] at h'
    omega

end FullDir

/-- Linking one more name, `new`, into the full directory panics. -/
theorem dirlink_full_dir_panics :
    fullDir.dirlink FullDir.dp (cstr "new") 2 = .error "dirlink" := by
  have hsize : (fullDir.inode FullDir.dp).size = MAXFILE * BSIZE := by simp [fullDir, FullDir.dp]
  refine Fs.dirlink_full (by simp [fullDir, FullDir.dp]) hsize ?_
  intro off hoff
  rw [hsize] at hoff
  obtain ⟨i, hi, rfl⟩ := List.mem_map.1 hoff
  rw [List.mem_range] at hi
  have hi' : i < MAXFILE * BSIZE / DIRENTSIZE := by
    unfold MAXFILE NDIRECT NINDIRECT BSIZE DIRENTSIZE DIRSIZ at *
    omega
  have hmin : min DIRENTSIZE ((fullDir.inode FullDir.dp).size - DIRENTSIZE * i) = DIRENTSIZE := by
    rw [hsize]
    unfold MAXFILE NDIRECT NINDIRECT BSIZE DIRENTSIZE DIRSIZ at *
    omega
  have hdecode : Dirent.decode (fullEntry i).encode = fullEntry i := by
    apply Dirent.decode_encode
    · unfold fullEntry
      split_ifs <;> simp [ROOTINO]
    · unfold fullEntry
      split_ifs <;> exact length_strncpy _ _
  refine ⟨(fullEntry i).encode, ?_, ?_, ?_⟩
  · rw [Fs.readi_content FullDir.fileOk FullDir.mapped (by simp [fullDir, FullDir.dp, T_DIR, T_DEV])
      (by rw [hsize]; unfold MAXFILE NDIRECT NINDIRECT BSIZE DIRENTSIZE DIRSIZ at *; omega)
      (by unfold MAXFILE NDIRECT NINDIRECT BSIZE DIRENTSIZE DIRSIZ at *; omega), hmin,
      FullDir.entry hi']
  · rw [hdecode]
    unfold fullEntry
    split_ifs <;> simp [ROOTINO]
  · rw [hdecode]
    exact FullDir.namecmp_new hi'

end Xv6
