import Mathlib
import Xv6.Fs.Inode

/-!
# Directories and path names (`fs.c`)

A directory is a file of `struct dirent`s. `dirlookup` reads them one by one with `readi`,
skips the free ones (i-number `0`) and compares names on their first `DIRSIZ` bytes;
`dirlink` writes a new entry into the first free slot, or past the last entry. `namex`
walks a path one element at a time, locking each directory in turn.

Both loops of the source run `for(off = 0; off < dp->size; off += sizeof(de))`. `readi`
does not change the size, so the model computes the offsets once (`dirOffsets`).
-/

namespace Xv6

namespace Fs

/-- `namecmp(s, t)`. -/
def namecmp (s t : List UInt8) : Int := strncmp s t DIRSIZ

/-- The offsets of the entries of a directory of `size` bytes. -/
def dirOffsets (size : Nat) : List Nat :=
  (List.range ((size + DIRENTSIZE - 1) / DIRENTSIZE)).map (DIRENTSIZE * ·)

/-- The loop of `dirlookup`: the i-number and offset of the first live entry named `name`. -/
def lookupFrom (s : Fs) (dp : Fin NINODE) (name : List UInt8) :
    List Nat → Except String (Option (Nat × Nat) × Fs)
  | [] => .ok (none, s)
  | off :: offs => do
      let r ← s.readi dp off DIRENTSIZE
      if r.1 ≠ DIRENTSIZE then .error "dirlink read"
      else
        let de := Dirent.decode r.2.1
        if de.inum = 0 then lookupFrom r.2.2 dp name offs
        else if namecmp name de.name = 0 then .ok (some (de.inum, off), r.2.2)
        else lookupFrom r.2.2 dp name offs

/-- An entry that is free or carries another name is passed over. -/
theorem lookupFrom_cons_skip {s s' : Fs} {dp : Fin NINODE} {name bytes : List UInt8} {off : Nat}
    {offs : List Nat} (hr : s.readi dp off DIRENTSIZE = .ok (DIRENTSIZE, bytes, s'))
    (hskip : (Dirent.decode bytes).inum = 0 ∨ namecmp name (Dirent.decode bytes).name ≠ 0) :
    s.lookupFrom dp name (off :: offs) = s'.lookupFrom dp name offs := by
  rw [lookupFrom, hr, Except.ok_bind]
  simp only [ne_eq, not_true_eq_false, if_false]
  by_cases h0 : (Dirent.decode bytes).inum = 0
  · rw [if_pos h0]
  · rw [if_neg h0, if_neg (hskip.resolve_left h0)]

/-- A run of entries, each free or carrying another name, read without changing the state:
the scan passes over all of them. -/
theorem lookupFrom_skip {s : Fs} {dp : Fin NINODE} {name : List UInt8} {offs rest : List Nat}
    (h : ∀ off ∈ offs, ∃ bytes, s.readi dp off DIRENTSIZE = .ok (DIRENTSIZE, bytes, s) ∧
      ((Dirent.decode bytes).inum = 0 ∨ namecmp name (Dirent.decode bytes).name ≠ 0)) :
    s.lookupFrom dp name (offs ++ rest) = s.lookupFrom dp name rest := by
  induction offs with
  | nil => rfl
  | cons off offs ih =>
    obtain ⟨bytes, hr, hskip⟩ := h off List.mem_cons_self
    rw [List.cons_append, lookupFrom_cons_skip hr hskip]
    exact ih fun o ho => h o (List.mem_cons_of_mem _ ho)

/-- The entries of a directory whose size is `m` entries and one more block: the `m`
entries, then the `BSIZE / DIRENTSIZE` slots of that block. -/
theorem dirOffsets_add_block (m : Nat) :
    dirOffsets (DIRENTSIZE * m + BSIZE) =
      (List.range m).map (DIRENTSIZE * ·) ++
        (List.range (BSIZE / DIRENTSIZE)).map fun i => DIRENTSIZE * m + DIRENTSIZE * i := by
  have hcount : (DIRENTSIZE * m + BSIZE + DIRENTSIZE - 1) / DIRENTSIZE = m + BSIZE / DIRENTSIZE := by
    unfold DIRENTSIZE DIRSIZ BSIZE; omega
  rw [dirOffsets, hcount, List.range_add, List.map_append, List.map_map]
  congr 1

/-- `dirlookup(dp, name, &off)`: the entry's inode, referenced by `iget`, and its offset. -/
def dirlookup (s : Fs) (dp : Fin NINODE) (name : List UInt8) :
    Except String (Option (Fin NINODE × Nat) × Fs) :=
  if (s.inode dp).type ≠ T_DIR then .error "dirlookup not DIR"
  else do
    let r ← s.lookupFrom dp name (dirOffsets (s.inode dp).size)
    match r.1 with
    | none => .ok (none, r.2)
    | some (inum, off) => do
        let g ← r.2.iget (s.inode dp).dev inum
        .ok (some (g.1, off), g.2)

/-- The scan of a directory whose `m` entries fill their blocks and whose size covers one
more block, with no address, inside a transaction: when no entry matches, the scan reaches
that block, `bmap` allocates it (`balloc`'s block `b`, zeroed), and its zeroes are free
entries. The allocation is recorded in the in-memory inode only. -/
theorem lookupFrom_hole_block {s : Fs} {dp : Fin NINODE} {name : List UInt8} {m b : Nat}
    {l₁ l₂ : Log}
    (hentries : ∀ off ∈ (List.range m).map (DIRENTSIZE * ·), ∃ bytes,
      s.readi dp off DIRENTSIZE = .ok (DIRENTSIZE, bytes, s) ∧
        ((Dirent.decode bytes).inum = 0 ∨ namecmp name (Dirent.decode bytes).name ≠ 0))
    (ht : (s.inode dp).type ≠ T_DEV) (hsize : (s.inode dp).size = DIRENTSIZE * m + BSIZE)
    (hblk : DIRENTSIZE * m % BSIZE = 0) (hbn : DIRENTSIZE * m / BSIZE < NDIRECT)
    (hsize32 : DIRENTSIZE * m + BSIZE < 2 ^ 32)
    (ha : (s.inode dp).addrs (DIRENTSIZE * m / BSIZE) = 0)
    (hfb : s.freeBlock = some b) (hb0 : b ≠ 0)
    (h₁ : s.log.logWrite (BBLOCK b s.sb) = .ok l₁) (h₂ : l₁.logWrite b = .ok l₂) :
    s.lookupFrom dp name (dirOffsets (s.inode dp).size) =
      .ok (none, ({ s with mem := (s.mem.setBit b true).setData b Block.zero, log := l₂ }).setAddr
        dp (DIRENTSIZE * m / BSIZE) b) := by
  rw [hsize, dirOffsets_add_block, lookupFrom_skip hentries,
    show BSIZE / DIRENTSIZE = 31 + 1 from rfl, List.range_succ_eq_map, List.map_cons, List.map_map]
  simp only [Nat.mul_zero, Nat.add_zero, Function.comp_def]
  -- the first slot of the block: `bmap` allocates it, and it reads as zeroes
  have hfirst := @Fs.readi_hole_inside s dp (DIRENTSIZE * m) DIRENTSIZE b _ ht
    (by decide) (by decide) (by rw [hsize]; unfold DIRENTSIZE DIRSIZ BSIZE; omega)
    (by rw [hsize]; exact hsize32) (by unfold DIRENTSIZE DIRSIZ BSIZE at *; omega)
    (by simpa using hbn) (by simpa using ha) (Fs.balloc_ok hfb h₁ h₂)
  rw [lookupFrom_cons_skip hfirst (.inl (by simp))]
  -- the other slots of the block now have an address and read as zeroes too
  set s' := ({ s with mem := (s.mem.setBit b true).setData b Block.zero, log := l₂ } : Fs).setAddr
    dp (DIRENTSIZE * m / BSIZE) b
  have hrest : ∀ off ∈ (List.range 31).map (fun i => DIRENTSIZE * m + DIRENTSIZE * (i + 1)),
      ∃ bytes, s'.readi dp off DIRENTSIZE = .ok (DIRENTSIZE, bytes, s') ∧
        ((Dirent.decode bytes).inum = 0 ∨ namecmp name (Dirent.decode bytes).name ≠ 0) := by
    intro off hoff
    obtain ⟨i, hi, rfl⟩ := List.mem_map.1 hoff
    rw [List.mem_range] at hi
    have hblock : (DIRENTSIZE * m + DIRENTSIZE * (i + 1)) / BSIZE = DIRENTSIZE * m / BSIZE := by
      unfold DIRENTSIZE DIRSIZ BSIZE at *; omega
    refine ⟨_, Fs.readi_in_block (by simpa [s', Fs.setAddr] using ht) (by decide) (by decide)
      (by simp only [s', Fs.setAddr, Fs.setInode_self, hsize]; unfold DIRENTSIZE DIRSIZ BSIZE at *; omega)
      (by simp only [s', Fs.setAddr, Fs.setInode_self, hsize]; exact hsize32)
      (by unfold DIRENTSIZE DIRSIZ BSIZE at *; omega) (by rw [hblock]; exact hbn)
      (by simp [s', Fs.setAddr, hblock, hb0]), .inl ?_⟩
    simp [s', Fs.setAddr, hblock]
  have hscan := @lookupFrom_skip _ _ _ _ [] hrest
  rw [List.append_nil] at hscan
  rw [hscan]
  rfl

theorem dirlookup_none {s s' : Fs} {dp : Fin NINODE} {name : List UInt8}
    (ht : (s.inode dp).type = T_DIR)
    (h : s.lookupFrom dp name (dirOffsets (s.inode dp).size) = .ok (none, s')) :
    s.dirlookup dp name = .ok (none, s') := by
  rw [dirlookup, if_neg (by simp [ht]), h]
  rfl

/-- The loop of `dirlink` looking for a free entry: its offset, or `past` when every entry
is in use. -/
def emptyFrom (s : Fs) (dp : Fin NINODE) (past : Nat) : List Nat → Except String (Nat × Fs)
  | [] => .ok (past, s)
  | off :: offs => do
      let r ← s.readi dp off DIRENTSIZE
      if r.1 ≠ DIRENTSIZE then .error "dirlink read"
      else if (Dirent.decode r.2.1).inum = 0 then .ok (off, r.2.2)
      else emptyFrom r.2.2 dp past offs

/-- `dirlink(dp, name, inum)`: `-1` if `name` is present. -/
def dirlink (s : Fs) (dp : Fin NINODE) (name : List UInt8) (inum : Nat) :
    Except String (Int × Fs) := do
  let r ← s.dirlookup dp name
  match r.1 with
  | some (ip, _) => do
      let s ← r.2.iput ip
      pure (-1, s)
  | none => do
      let offs := dirOffsets (r.2.inode dp).size
      let e ← r.2.emptyFrom dp (DIRENTSIZE * offs.length) offs
      let de := Dirent.encode ⟨inum, strncpy name DIRSIZ⟩
      let w ← e.2.writei dp de e.1 DIRENTSIZE
      if w.1 ≠ DIRENTSIZE then .error "dirlink" else pure (0, w.2)

/-- `skipelem(path, name)`: the next element, cut to `DIRSIZ` bytes, and the rest of the path
without its leading slashes; `none` when no element is left. A path is the bytes before its
NUL. -/
def skipelem (path : List UInt8) : Option (List UInt8 × List UInt8) :=
  let path := path.dropWhile (· == '/'.toUInt8)
  if path = [] then none
  else
    let elem := path.takeWhile (· != '/'.toUInt8)
    let rest := (path.dropWhile (· != '/'.toUInt8)).dropWhile (· == '/'.toUInt8)
    some (if DIRSIZ ≤ elem.length then elem.take DIRSIZ else elem, rest)

theorem skipelem_length {path name rest : List UInt8} (h : skipelem path = some (name, rest)) :
    rest.length < path.length := by
  unfold skipelem at h
  dsimp only at h
  split at h
  · cases h
  · rename_i hne
    simp only [Option.some.injEq, Prod.mk.injEq] at h
    obtain ⟨-, rfl⟩ := h
    -- the element starts with a byte that is not '/', which the scan drops
    obtain ⟨c, t, hct⟩ := List.exists_cons_of_ne_nil hne
    have hc : c ≠ '/'.toUInt8 := by
      have := List.head_dropWhile_not (fun x => x == '/'.toUInt8) (l := path) (by simp [hct])
      simpa [hct] using this
    have h1 := List.dropWhile_suffix (fun x => x == '/'.toUInt8) (l := path)
    rw [hct] at h1 ⊢
    have h2 := h1.length_le
    simp only [List.length_cons] at h2
    calc ((List.dropWhile (fun x => x != '/'.toUInt8) (c :: t)).dropWhile
            (fun x => x == '/'.toUInt8)).length
        ≤ (List.dropWhile (fun x => x != '/'.toUInt8) (c :: t)).length :=
          (List.dropWhile_suffix _).length_le
      _ ≤ t.length := by
          rw [List.dropWhile_cons_of_pos (by simp [hc])]
          exact (List.dropWhile_suffix _).length_le
      _ < path.length := by omega

/-- A path of one element below the root. -/
theorem skipelem_root_child {x : List UInt8} (hx : x ≠ []) (hs : '/'.toUInt8 ∉ x)
    (hl : x.length < DIRSIZ) : skipelem ('/'.toUInt8 :: x) = some (x, []) := by
  -- no byte of the element is a slash
  have hne : ∀ c ∈ x, (c != '/'.toUInt8) = true := by
    intro c hc
    have : c ≠ '/'.toUInt8 := fun h => hs (h ▸ hc)
    simpa using this
  have hdrop : ('/'.toUInt8 :: x).dropWhile (· == '/'.toUInt8) = x := by
    rw [List.dropWhile_cons_of_pos (by rfl)]
    obtain ⟨c, t, rfl⟩ := List.exists_cons_of_ne_nil hx
    rw [List.dropWhile_cons_of_neg (by simpa using hne c List.mem_cons_self)]
  have htake : x.takeWhile (· != '/'.toUInt8) = x := List.takeWhile_eq_self_iff.2 hne
  have hrest : x.dropWhile (· != '/'.toUInt8) = [] := List.dropWhile_eq_nil_iff.2 hne
  unfold skipelem
  simp only [hdrop, htake, hrest, List.dropWhile_nil, if_neg hx, if_neg (show ¬ DIRSIZ ≤ x.length by omega)]

set_option linter.unusedVariables false in
/-- The loop of `namex` from inode `ip` along `path`; `name` is the last element copied. -/
def namexWalk (s : Fs) (ip : Fin NINODE) (path : List UInt8) (nameiparent : Bool)
    (name : List UInt8) : Except String (Option (Fin NINODE × List UInt8) × Fs) :=
  match h : skipelem path with
  | none =>
      if nameiparent then do
        let s ← s.iput ip
        pure (none, s)
      else pure (some (ip, name), s)
  | some (name, rest) => do
      let s ← s.ilock ip
      if (s.inode ip).type ≠ T_DIR then do
        let s ← s.iunlockput ip
        pure (none, s)
      -- stop one level early
      else if nameiparent ∧ rest = [] then do
        let s ← s.iunlock ip
        pure (some (ip, name), s)
      else do
        let r ← s.dirlookup ip name
        match r.1 with
        | none => do
            let s ← r.2.iunlockput ip
            pure (none, s)
        | some (next, _) => do
            let s ← r.2.iunlockput ip
            namexWalk s next rest nameiparent name
termination_by path.length
decreasing_by exact skipelem_length h

/-- `namex(path, nameiparent, name)` for a process whose working directory is `cwd`. -/
def namex (s : Fs) (cwd : Fin NINODE) (path : List UInt8) (nameiparent : Bool) :
    Except String (Option (Fin NINODE × List UInt8) × Fs) := do
  let r ← if path.headD 0 = '/'.toUInt8 then s.iget ROOTDEV ROOTINO else pure (cwd, s.idup cwd)
  r.2.namexWalk r.1 path nameiparent []

/-- `namei(path)`. -/
def namei (s : Fs) (cwd : Fin NINODE) (path : List UInt8) :
    Except String (Option (Fin NINODE) × Fs) := do
  let r ← s.namex cwd path false
  pure (r.1.map Prod.fst, r.2)

/-- `nameiparent(path, name)`: the parent directory and the last element. -/
def nameiparent (s : Fs) (cwd : Fin NINODE) (path : List UInt8) :
    Except String (Option (Fin NINODE × List UInt8) × Fs) :=
  s.namex cwd path true

/-- `namei` of a path of one element below the root, when the root has no such entry: the
root is locked, searched, and put back. -/
theorem namei_child_none {s s₁ s₂ s₃ s₄ : Fs} {cwd ip : Fin NINODE} {x : List UInt8}
    (hx : skipelem ('/'.toUInt8 :: x) = some (x, []))
    (hget : s.iget ROOTDEV ROOTINO = .ok (ip, s₁)) (hlock : s₁.ilock ip = .ok s₂)
    (ht : (s₂.inode ip).type = T_DIR) (hlook : s₂.dirlookup ip x = .ok (none, s₃))
    (hput : s₃.iunlockput ip = .ok s₄) :
    s.namei cwd ('/'.toUInt8 :: x) = .ok (none, s₄) := by
  simp only [namei, namex, List.headD_cons, if_true, hget, Except.ok_bind]
  rw [namexWalk]
  split
  · rename_i h
    rw [hx] at h
    cases h
  · rename_i name rest h
    rw [hx, Option.some.injEq, Prod.mk.injEq] at h
    obtain ⟨rfl, rfl⟩ := h
    simp only [hlock, Except.ok_bind, ht, ne_eq, not_true_eq_false, if_false, Bool.false_eq_true,
      false_and, hlook, hput]
    rfl

end Fs

end Xv6
