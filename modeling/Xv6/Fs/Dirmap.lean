import Xv6.Fs.WriteOk
import Xv6.Fs.Dirlink

/-!
# A directory as a table of names

A directory is a file of `DIRENTSIZE`-byte entries. Read through its content `c`, it is the
table `entryAt c off` over the offsets `dirOffsets`. `lookup` is what `dirlookup` looks for in
it, the first entry in use whose name `namecmp` finds equal, and `link` is what `dirlink`
makes of it: the new entry written into the first free slot (`freeSlot`), or past the last one.
`namecmp` compares two names on their bytes before the first NUL, at most `DIRSIZ` of them
(`strncmp_eq_zero_iff`), and `strncpy` keeps those bytes of a name (`cname_strncpy`).

On a directory laid out as the file system keeps it (`DirOk`), `dirlookup` reads the table and
changes nothing but the reference `iget` takes (`dirlookup_eq_lookup`); a `dirlink` that
returned `0` found the name absent, wrote `link` and kept the layout (`dirlink_eq_link`). So
afterwards the name is found with its i-number, at the slot `dirlink` chose, every other name
is found as before, and no entry in use was overwritten (`dirlink_lookup`).
-/

namespace Xv6

/-- The name `strncmp(p, q, n)` compares of `p`: its bytes before the first NUL, at most `n`. -/
def cname (p : List UInt8) (n : Nat) : List UInt8 := (p.takeWhile (· ≠ 0)).take n

theorem cname_succ (p : List UInt8) (n : Nat) :
    cname p (n + 1) = if p.headD 0 ≠ 0 then p.headD 0 :: cname p.tail n else [] := by
  cases p with
  | nil => simp [cname]
  | cons a p => by_cases ha : a = 0 <;> simp [cname, ha]

/-- `strncmp` finds two strings equal exactly when they agree on their bytes before the NUL,
at most `n` of them. -/
theorem strncmp_eq_zero_iff (p q : List UInt8) (n : Nat) :
    strncmp p q n = 0 ↔ cname p n = cname q n := by
  induction n generalizing p q with
  | zero => simp [strncmp, cname]
  | succ n ih =>
    rw [strncmp, cname_succ, cname_succ]
    generalize p.headD 0 = a, q.headD 0 = b
    by_cases hp : a ≠ 0 ∧ a = b
    · obtain ⟨ha, rfl⟩ := hp
      rw [if_pos ⟨ha, rfl⟩, if_pos ha, if_pos ha, ih]
      simp
    · -- the first bytes differ, or both are the NUL
      rw [if_neg hp, sub_eq_zero, Nat.cast_inj, UInt8.toNat_inj]
      by_cases ha : a = 0
      · subst ha
        by_cases hb : b = 0
        · simp [hb]
        · simp [hb, Ne.symm hb]
      · have hab : a ≠ b := fun h => hp ⟨ha, h⟩
        rw [if_pos ha]
        split_ifs <;> simp [hab]

/-- `strncpy` into an `n`-byte field keeps the name `strncmp` compares. -/
theorem cname_strncpy (name : List UInt8) (n : Nat) : cname (strncpy name n) n = cname name n := by
  have hpos : ∀ a ∈ (name.takeWhile (· ≠ 0)).take n, a ≠ 0 := fun a ha => by
    simpa using List.mem_takeWhile_imp (List.mem_of_mem_take ha)
  rw [cname, strncpy, List.takeWhile_append_of_pos (by simpa using hpos), List.takeWhile_replicate]
  simp [cname]

theorem namecmp_strncpy (p name : List UInt8) :
    Fs.namecmp p (strncpy name DIRSIZ) = 0 ↔ Fs.namecmp p name = 0 := by
  rw [Fs.namecmp, Fs.namecmp, strncmp_eq_zero_iff, strncmp_eq_zero_iff, cname_strncpy]

/-- A write of `e` at `o` leaves every range of the list it does not overlap. -/
theorem take_drop_splice {c e : List UInt8} {o off k : Nat} (ho : o ≤ c.length)
    (hk : off + k ≤ c.length) (hdis : off + k ≤ o ∨ o + e.length ≤ off) :
    ((c.take o ++ e ++ c.drop (o + e.length)).drop off).take k = (c.drop off).take k := by
  apply List.ext_getElem
  · simp only [List.length_take, List.length_drop, List.length_append]
    omega
  intro i h₁ h₂
  simp only [List.length_take, List.length_drop] at h₂
  rw [List.getElem_take, List.getElem_drop, List.getElem_take, List.getElem_drop]
  rcases hdis with hdis | hdis
  · rw [List.getElem_append_left (by simp; omega), List.getElem_append_left (by simp; omega),
      List.getElem_take]
  · rw [List.getElem_append_right (by simp; omega), List.getElem_drop]
    congr 1
    simp only [List.length_append, List.length_take]
    omega

namespace Fs

variable {s s' : Fs} {dp : Fin NINODE} {name : List UInt8} {inum : Nat}

theorem length_content (s : Fs) (ip : Fin NINODE) : (s.content ip).length = (s.inode ip).size := by
  simp [content]

/-- The entries of a directory of `size` bytes, when its entries fill it. -/
theorem mem_dirOffsets {size off : Nat} (h : size % DIRENTSIZE = 0) :
    off ∈ dirOffsets size ↔ off % DIRENTSIZE = 0 ∧ off + DIRENTSIZE ≤ size := by
  simp only [dirOffsets, List.mem_map, List.mem_range]
  unfold DIRENTSIZE DIRSIZ at *
  constructor
  · rintro ⟨j, hj, rfl⟩
    omega
  · rintro ⟨h₁, h₂⟩
    exact ⟨off / 16, by omega, by omega⟩

theorem dirOffsets_add {size : Nat} (h : size % DIRENTSIZE = 0) :
    dirOffsets (size + DIRENTSIZE) = dirOffsets size ++ [size] := by
  have hcount : (size + DIRENTSIZE + DIRENTSIZE - 1) / DIRENTSIZE =
      (size + DIRENTSIZE - 1) / DIRENTSIZE + 1 := by
    unfold DIRENTSIZE DIRSIZ at *; omega
  rw [dirOffsets, hcount, List.range_succ, List.map_append, dirOffsets, List.map_singleton]
  congr 2
  unfold DIRENTSIZE DIRSIZ at *; omega

/-! ## The table of entries -/

/-- The entry at offset `off` of a directory whose content is `c`, as `readi` copies it into
`de`. -/
def entryAt (c : List UInt8) (off : Nat) : Dirent :=
  Dirent.decode ((c.drop off).take DIRENTSIZE)

/-- The test of `dirlookup`'s loop: the entry is in use and `namecmp` finds it named `name`. -/
def Names (name : List UInt8) (de : Dirent) : Bool :=
  de.inum != 0 && namecmp name de.name == 0

/-- What `dirlookup` finds in a directory whose content is `c`: the i-number and the offset of
the first entry in use named `name`. -/
def lookup (c name : List UInt8) : Option (Nat × Nat) :=
  ((dirOffsets c.length).find? fun off => Names name (entryAt c off)).map
    fun off => ((entryAt c off).inum, off)

/-- Where `dirlink` writes in a directory whose content is `c`: the first free entry, or past
the last one. -/
def freeSlot (c : List UInt8) : Nat :=
  ((dirOffsets c.length).find? fun off => (entryAt c off).inum == 0).getD
    (DIRENTSIZE * (dirOffsets c.length).length)

/-- The content `dirlink(dp, name, inum)` leaves: the entry for `inum` and `name` written at
the free slot. -/
def link (c name : List UInt8) (inum : Nat) : List UInt8 :=
  c.take (freeSlot c) ++ Dirent.encode ⟨inum, strncpy name DIRSIZ⟩ ++
    c.drop (freeSlot c + DIRENTSIZE)

theorem length_encode_entry (inum : Nat) (name : List UInt8) :
    (Dirent.encode ⟨inum, strncpy name DIRSIZ⟩).length = DIRENTSIZE := by
  rw [Dirent.length_encode, length_strncpy]
  rfl

/-- The entry `dirlink` writes reads back with its `ushort` i-number and the name it copied. -/
theorem decode_encode_entry (inum : Nat) (name : List UInt8) :
    Dirent.decode (Dirent.encode ⟨inum, strncpy name DIRSIZ⟩) =
      ⟨inum % 2 ^ 16, strncpy name DIRSIZ⟩ := by
  simp only [Dirent.decode, Dirent.encode, List.cons_append, List.nil_append,
    List.getD_cons_zero, List.getD_cons_succ, UInt8.toNat_ofNat', List.drop_succ_cons,
    List.drop_zero, Dirent.mk.injEq]
  refine ⟨by omega, List.take_of_length_le (by rw [length_strncpy])⟩

/-- Past the end of the content there is no entry in use. -/
theorem entryAt_of_le {c : List UInt8} {off : Nat} (h : c.length ≤ off) : (entryAt c off).inum = 0 := by
  rw [entryAt, List.drop_eq_nil_of_le h]
  rfl

section Slot

variable {c : List UInt8}

/-- The free slot is an entry of the table, or the end of the last one, and it is free. -/
theorem freeSlot_spec (hc : c.length % DIRENTSIZE = 0) :
    freeSlot c % DIRENTSIZE = 0 ∧ freeSlot c ≤ c.length ∧ (entryAt c (freeSlot c)).inum = 0 := by
  have hlen : DIRENTSIZE * (dirOffsets c.length).length = c.length := by
    rw [length_dirOffsets]
    unfold DIRENTSIZE DIRSIZ at *
    omega
  rw [freeSlot]
  cases hf : (dirOffsets c.length).find? fun off => (entryAt c off).inum == 0 with
  | none =>
    rw [Option.getD_none, hlen]
    exact ⟨hc, le_rfl, entryAt_of_le le_rfl⟩
  | some off =>
    obtain ⟨hoff, hle⟩ := (mem_dirOffsets hc).1 (List.mem_of_find?_eq_some hf)
    rw [Option.getD_some]
    exact ⟨hoff, by omega, by simpa using List.find?_some hf⟩

theorem length_link (hc : c.length % DIRENTSIZE = 0) :
    (link c name inum).length = max c.length (freeSlot c + DIRENTSIZE) := by
  obtain ⟨-, hle, -⟩ := freeSlot_spec hc
  simp only [link, List.length_append, List.length_take, List.length_drop, length_encode_entry]
  omega

theorem entryAt_link_self (hc : c.length % DIRENTSIZE = 0) :
    entryAt (link c name inum) (freeSlot c) = ⟨inum % 2 ^ 16, strncpy name DIRSIZ⟩ := by
  obtain ⟨-, hle, -⟩ := freeSlot_spec hc
  rw [entryAt, link, List.append_assoc, List.drop_left' (by simp; omega),
    List.take_left' (length_encode_entry inum name), decode_encode_entry]

/-- The other entries of the table are those of `c`. -/
theorem entryAt_link_of_ne (hc : c.length % DIRENTSIZE = 0) {off : Nat}
    (hoff : off ∈ dirOffsets c.length) (hne : off ≠ freeSlot c) :
    entryAt (link c name inum) off = entryAt c off := by
  obtain ⟨hmod, hle, -⟩ := freeSlot_spec hc
  obtain ⟨hoff, hin⟩ := (mem_dirOffsets hc).1 hoff
  have hsplice := take_drop_splice (e := Dirent.encode ⟨inum, strncpy name DIRSIZ⟩) hle hin
    (by rw [length_encode_entry]; unfold DIRENTSIZE DIRSIZ at *; omega)
  rw [length_encode_entry] at hsplice
  rw [entryAt, entryAt, link, hsplice]

/-- The offsets after the write: those of `c`, and the free slot when it was past the end. -/
theorem mem_dirOffsets_link (hc : c.length % DIRENTSIZE = 0) {off : Nat} :
    off ∈ dirOffsets (link c name inum).length ↔ off ∈ dirOffsets c.length ∨ off = freeSlot c := by
  obtain ⟨hmod, hle, -⟩ := freeSlot_spec hc
  have hc' : (link c name inum).length % DIRENTSIZE = 0 := by
    rw [length_link hc]
    unfold DIRENTSIZE DIRSIZ at *
    omega
  rw [mem_dirOffsets hc', mem_dirOffsets hc, length_link hc]
  unfold DIRENTSIZE DIRSIZ at *
  omega

end Slot

/-! ## Looking a name up after `link` -/

section Lookup

variable {c : List UInt8}

/-- A name that was absent is found at the slot the entry went to. -/
theorem lookup_link_self (hc : c.length % DIRENTSIZE = 0) (hnone : lookup c name = none)
    (hinum : inum % 2 ^ 16 ≠ 0) :
    lookup (link c name inum) name = some (inum % 2 ^ 16, freeSlot c) := by
  have hnames : ∀ off ∈ dirOffsets c.length, Names name (entryAt c off) = false := by
    rw [lookup, Option.map_eq_none_iff, List.find?_eq_none] at hnone
    exact fun off hoff => by simpa using hnone off hoff
  -- in the new table, the entries named `name` are the one at the free slot
  have hpred : ∀ off ∈ dirOffsets (link c name inum).length,
      Names name (entryAt (link c name inum) off) = (off == freeSlot c) := by
    intro off hoff
    by_cases ho : off = freeSlot c
    · subst ho
      have hinum' : inum % 65536 ≠ 0 := hinum
      simp [Names, entryAt_link_self hc, hinum', namecmp, strncmp_eq_zero_iff, cname_strncpy]
    · have hold := ((mem_dirOffsets_link hc).1 hoff).resolve_right ho
      rw [entryAt_link_of_ne hc hold ho, hnames off hold]
      simp [ho]
  have hmem : freeSlot c ∈ dirOffsets (link c name inum).length := (mem_dirOffsets_link hc).2 (.inr rfl)
  rw [lookup, List.find?_congr hpred, find?_beq_self hmem, Option.map_some, entryAt_link_self hc]
where
  find?_beq_self {l : List Nat} {a : Nat} (h : a ∈ l) : l.find? (· == a) = some a := by
    induction l with
    | nil => simp at h
    | cons x xs ih =>
      by_cases hx : x = a
      · simp [hx]
      · rw [List.find?_cons_of_neg (by simpa using hx)]
        exact ih ((List.mem_cons.1 h).resolve_left (Ne.symm hx))

/-- A name `namecmp` tells from the new one is found as before. -/
theorem lookup_link_of_ne (hc : c.length % DIRENTSIZE = 0) {name' : List UInt8}
    (hne : namecmp name' name ≠ 0) : lookup (link c name inum) name' = lookup c name' := by
  obtain ⟨hmod, hle, hfree⟩ := freeSlot_spec hc
  -- the new entry does not carry `name'`, and the slot it took was free
  have hslot : Names name' (entryAt (link c name inum) (freeSlot c)) = false ∧
      Names name' (entryAt c (freeSlot c)) = false := by
    rw [entryAt_link_self hc]
    simp [Names, hfree, namecmp_strncpy, hne]
  have hpred : ∀ off ∈ dirOffsets (link c name inum).length,
      Names name' (entryAt (link c name inum) off) = Names name' (entryAt c off) := by
    intro off hoff
    by_cases ho : off = freeSlot c
    · rw [ho, hslot.1, hslot.2]
    · rw [entryAt_link_of_ne hc (((mem_dirOffsets_link hc).1 hoff).resolve_right ho) ho]
  -- the table grew by the free slot only when it was past the end
  have hoffs : (dirOffsets (link c name inum).length).find? (fun off => Names name' (entryAt c off)) =
      (dirOffsets c.length).find? fun off => Names name' (entryAt c off) := by
    rw [length_link hc]
    by_cases hend : freeSlot c = c.length
    · rw [hend, max_eq_right (by omega), dirOffsets_add hc, List.find?_append,
        List.find?_singleton, ← hend, if_neg (by simp [hslot.2]), Option.or_none]
    · rw [max_eq_left (by unfold DIRENTSIZE DIRSIZ at *; omega)]
  rw [lookup, lookup, List.find?_congr hpred, hoffs]
  refine Option.map_congr fun off hoff => ?_
  have hne' : off ≠ freeSlot c := by
    rintro rfl
    simpa [hslot.2] using List.find?_some hoff
  rw [entryAt_link_of_ne hc (List.mem_of_find?_eq_some hoff) hne']

/-- No entry in use is overwritten. -/
theorem entryAt_link_of_used (hc : c.length % DIRENTSIZE = 0) {off : Nat}
    (hoff : off ∈ dirOffsets c.length) (hused : (entryAt c off).inum ≠ 0) :
    entryAt (link c name inum) off = entryAt c off :=
  entryAt_link_of_ne hc hoff fun h => hused (h ▸ (freeSlot_spec hc).2.2)

end Lookup

/-! ## `dirlookup` and `dirlink` on a directory -/

/-- A directory laid out as the file system keeps it: a file whose blocks `readi` and `writei`
find without allocating, and whose entries fill it. -/
structure DirOk (s : Fs) (dp : Fin NINODE) : Prop where
  dir : (s.inode dp).type = T_DIR
  fileOk : s.FileOk dp
  mapped : s.Mapped dp (s.inode dp).size
  entries : (s.inode dp).size % DIRENTSIZE = 0
  sbSize : s.sb.size ≤ 2 ^ 32

theorem DirOk.notDev (hd : s.DirOk dp) : (s.inode dp).type ≠ T_DEV := by
  rw [hd.dir]
  decide

theorem DirOk.content (hd : s.DirOk dp) : (s.content dp).length % DIRENTSIZE = 0 := by
  rw [length_content]
  exact hd.entries

/-- `readi` of a whole entry copies it and changes nothing. -/
theorem readi_entry (hd : s.DirOk dp) {off : Nat} (hoff : off + DIRENTSIZE ≤ (s.inode dp).size) :
    s.readi dp off DIRENTSIZE = .ok (DIRENTSIZE, ((s.content dp).drop off).take DIRENTSIZE, s) := by
  have hsz := hd.fileOk.size
  have hmin : min DIRENTSIZE ((s.inode dp).size - off) = DIRENTSIZE := by omega
  rw [readi_content hd.fileOk hd.mapped hd.notDev (by omega)
    (by unfold MAXFILE NDIRECT NINDIRECT BSIZE at hsz; unfold DIRENTSIZE DIRSIZ at *; omega), hmin]

/-- `dirlookup`'s loop over entries of the directory: the first entry in use named `name`. -/
theorem lookupFrom_eq (hd : s.DirOk dp) {offs : List Nat}
    (h : ∀ off ∈ offs, off + DIRENTSIZE ≤ (s.inode dp).size) :
    s.lookupFrom dp name offs =
      .ok ((offs.find? fun off => Names name (entryAt (s.content dp) off)).map
        (fun off => ((entryAt (s.content dp) off).inum, off)), s) := by
  induction offs with
  | nil => rfl
  | cons off offs ih =>
    rw [lookupFrom, readi_entry hd (h off List.mem_cons_self), Except.ok_bind]
    simp only [ne_eq, not_true_eq_false, if_false]
    rw [show Dirent.decode (((s.content dp).drop off).take DIRENTSIZE) =
      entryAt (s.content dp) off from rfl, ih fun o ho => h o (List.mem_cons_of_mem _ ho)]
    by_cases hn : Names name (entryAt (s.content dp) off) = true
    · have h₂ : (entryAt (s.content dp) off).inum ≠ 0 ∧
          namecmp name (entryAt (s.content dp) off).name = 0 := by
        simpa [Names] using hn
      rw [if_neg h₂.1, if_pos h₂.2,
        List.find?_cons_of_pos (p := fun off => Names name (entryAt (s.content dp) off)) hn]
      rfl
    · rw [List.find?_cons_of_neg (p := fun off => Names name (entryAt (s.content dp) off)) hn]
      by_cases h0 : (entryAt (s.content dp) off).inum = 0
      · rw [if_pos h0]
      · have hcmp : namecmp name (entryAt (s.content dp) off).name ≠ 0 := by
          simpa [Names, h0] using hn
        rw [if_neg h0, if_neg hcmp]

/-- `dirlink`'s loop for a free entry: the first free one, or `past`. -/
theorem emptyFrom_eq (hd : s.DirOk dp) {past : Nat} {offs : List Nat}
    (h : ∀ off ∈ offs, off + DIRENTSIZE ≤ (s.inode dp).size) :
    s.emptyFrom dp past offs =
      .ok (((offs.find? fun off => (entryAt (s.content dp) off).inum == 0).getD past), s) := by
  induction offs with
  | nil => rfl
  | cons off offs ih =>
    rw [emptyFrom, readi_entry hd (h off List.mem_cons_self), Except.ok_bind]
    simp only [ne_eq, not_true_eq_false, if_false]
    rw [show Dirent.decode (((s.content dp).drop off).take DIRENTSIZE) =
      entryAt (s.content dp) off from rfl]
    by_cases h0 : (entryAt (s.content dp) off).inum = 0
    · rw [if_pos h0, List.find?_cons_of_pos (by simpa using h0)]
      rfl
    · rw [if_neg h0, List.find?_cons_of_neg (by simpa using h0),
        ih fun o ho => h o (List.mem_cons_of_mem _ ho)]

theorem offsets_in (hd : s.DirOk dp) : ∀ off ∈ dirOffsets (s.inode dp).size,
    off + DIRENTSIZE ≤ (s.inode dp).size := fun _ ho => ((mem_dirOffsets hd.entries).1 ho).2

/-- **`dirlookup` reads the table.** On a directory laid out as the file system keeps it,
`dirlookup(dp, name)` finds what `lookup` finds in its content: nothing, and the state is
unchanged, or the i-number and offset of the first entry in use named `name`, whose inode it
then takes from the cache with `iget`. -/
theorem dirlookup_eq_lookup (hd : s.DirOk dp) :
    s.dirlookup dp name =
      (match lookup (s.content dp) name with
      | none => .ok (none, s)
      | some (inum, off) => do
          let g ← s.iget (s.inode dp).dev inum
          .ok (some (g.1, off), g.2)) := by
  -- both sides match on one value; whether they share one matcher depends on what was
  -- elaborated before, so the rewrite must not try to close the goal
  rewrite [dirlookup, if_neg (by rw [hd.dir]; decide), lookupFrom_eq hd (offsets_in hd),
    Except.ok_bind, lookup, length_content]
  cases ((dirOffsets (s.inode dp).size).find? fun off => Names name (entryAt (s.content dp) off)) with
  | none => rfl
  | some off => rfl

/-- A `dirlink` that returned `0` found the name absent and wrote `link`, and the directory is
still laid out. -/
theorem dirlink_eq_link (hd : s.DirOk dp) (hl : s.dirlink dp name inum = .ok (0, s')) :
    lookup (s.content dp) name = none ∧ s'.content dp = link (s.content dp) name inum ∧
      s'.DirOk dp := by
  rw [dirlink, dirlookup_eq_lookup hd] at hl
  rcases hlook : lookup (s.content dp) name with _ | ⟨i, off⟩
  swap
  · -- the name is present: `dirlink` puts the inode back and returns `-1`
    rw [hlook] at hl
    obtain ⟨g, hg, hl⟩ := Except.bind_eq_ok_iff.1 hl
    obtain ⟨j, -, hg⟩ := Except.bind_eq_ok_iff.1 hg
    cases hg
    obtain ⟨s₁, -, hl⟩ := Except.bind_eq_ok_iff.1 hl
    cases hl
  · rw [hlook, Except.ok_bind] at hl
    simp only at hl
    -- the scan for a free entry stops at the free slot
    have hfs : ((dirOffsets (s.inode dp).size).find? fun off =>
        (entryAt (s.content dp) off).inum == 0).getD
          (DIRENTSIZE * (dirOffsets (s.inode dp).size).length) = freeSlot (s.content dp) := by
      rw [freeSlot, length_content]
    rw [emptyFrom_eq hd (offsets_in hd), Except.ok_bind, hfs] at hl
    obtain ⟨⟨r, s₁⟩, hw, hl⟩ := Except.bind_eq_ok_iff.1 hl
    split_ifs at hl with hr
    cases hl
    obtain ⟨hmod, hle, -⟩ := freeSlot_spec hd.content
    rw [length_content] at hle
    have hsz := hd.fileOk.size
    -- `writei` wrote the whole entry, so it ended within `MAXFILE` blocks
    have hmax : freeSlot (s.content dp) + DIRENTSIZE ≤ MAXFILE * BSIZE := by
      by_contra hmax
      rw [writei_reject hd.notDev _ (by unfold MAXFILE NDIRECT NINDIRECT BSIZE at hsz; omega)
        (by decide) (.inr (.inr (by omega)))] at hw
      cases hw
      exact hr (by simp [DIRENTSIZE, DIRSIZ])
    rw [← length_encode_entry inum name] at hw hmax
    obtain ⟨-, hc, hsize, hok, hmap, hsb, hkeep, -, -⟩ :=
      writei_eq_ok hd.fileOk hd.mapped hd.notDev hle hmax hd.sbSize hw
    rw [length_encode_entry] at hc hsize
    refine ⟨rfl, hc, (congrArg Inode.type hkeep.shape).trans hd.dir, hok, hmap, ?_, hsb ▸ hd.sbSize⟩
    rw [hsize]
    have := hd.entries
    unfold DIRENTSIZE DIRSIZ at *
    omega

/-- `dirlink` of a name the directory lacks, whose entry fits below `MAXFILE` blocks, in a
transaction whose log has room for the blocks the write touches and three more, on a disk whose
bitmap is one block with a free block for each block it may allocate: it returns `0`. -/
theorem dirlink_of_room (hd : s.DirOk dp) (hnone : lookup (s.content dp) name = none)
    (hmax : freeSlot (s.content dp) + DIRENTSIZE ≤ MAXFILE * BSIZE) (hbpb : s.sb.size ≤ BPB)
    (hfits : s.log.Fits [] (blocksTouched (freeSlot (s.content dp)) DIRENTSIZE + 3))
    (hfree : blocksTouched (freeSlot (s.content dp)) DIRENTSIZE + 1 ≤ s.freeCount) :
    ∃ s', s.dirlink dp name inum = .ok (0, s') := by
  obtain ⟨-, hle, -⟩ := freeSlot_spec hd.content
  rw [length_content] at hle
  rw [← length_encode_entry inum name] at hmax hfits hfree
  obtain ⟨s', hw, -⟩ := writei_of_room hd.fileOk hd.mapped hd.notDev hle hmax hbpb hfits hfree
  rw [length_encode_entry] at hw
  have hfs : ((dirOffsets (s.inode dp).size).find? fun off =>
      (entryAt (s.content dp) off).inum == 0).getD
        (DIRENTSIZE * (dirOffsets (s.inode dp).size).length) = freeSlot (s.content dp) := by
    rw [freeSlot, length_content]
  refine ⟨s', ?_⟩
  rw [dirlink, dirlookup_eq_lookup hd, hnone, Except.ok_bind]
  simp only
  rw [emptyFrom_eq hd (offsets_in hd), Except.ok_bind, hfs, hw, Except.ok_bind]
  simp only [ne_eq, not_true_eq_false, if_false]
  rfl

/-- **A directory is a table of names.** On a directory laid out as the file system keeps it,
a `dirlink(dp, name, inum)` that returned `0` found `name` absent and kept the layout. Then
`dirlookup` of `name` finds the inode whose i-number the entry's `ushort` holds, at the offset
`dirlink` chose; every name that `namecmp` tells from `name` is found as before; and every
entry that was in use is unchanged. -/
theorem dirlink_lookup (hd : s.DirOk dp) (hl : s.dirlink dp name inum = .ok (0, s'))
    (hinum : inum % 2 ^ 16 ≠ 0) :
    lookup (s.content dp) name = none ∧ s'.DirOk dp ∧
      s'.dirlookup dp name = (do
        let g ← s'.iget (s'.inode dp).dev (inum % 2 ^ 16)
        .ok (some (g.1, freeSlot (s.content dp)), g.2)) ∧
      (∀ name', namecmp name' name ≠ 0 →
        lookup (s'.content dp) name' = lookup (s.content dp) name') ∧
      ∀ off ∈ dirOffsets (s.inode dp).size, (entryAt (s.content dp) off).inum ≠ 0 →
        entryAt (s'.content dp) off = entryAt (s.content dp) off := by
  obtain ⟨hnone, hc, hd'⟩ := dirlink_eq_link hd hl
  refine ⟨hnone, hd', ?_, fun name' hne => ?_, fun off hoff hused => ?_⟩
  · rw [dirlookup_eq_lookup hd', hc, lookup_link_self hd.content hnone hinum]
  · rw [hc]
    exact lookup_link_of_ne hd.content hne
  · rw [hc]
    exact entryAt_link_of_used hd.content (by rwa [length_content]) hused

/-- A directory `create` has just allocated, before its `.` and `..`: empty, in the first entry
of the inode cache, on the disk `mkfs` lays out with only its metadata blocks in use, inside a
transaction whose log holds no block yet. -/
def emptyDir : Fs :=
  { emptyFile with
    inode := fun i => if i.val = 0 then { emptyFile.inode i with type := T_DIR } else emptyFile.inode i }

/-- The entries of a directory: `.` and `..` at offsets `0` and `32`, and at `16` the entry of
a name since unlinked, its i-number `0` and its name bytes left in place. -/
def tableBytes : List UInt8 :=
  Dirent.encode ⟨2, strncpy ['.'.toUInt8] DIRSIZ⟩ ++ Dirent.encode ⟨0, strncpy ['x'.toUInt8] DIRSIZ⟩ ++
    Dirent.encode ⟨1, strncpy ['.'.toUInt8, '.'.toUInt8] DIRSIZ⟩

/-- That directory, in the first entry of the inode cache, its entries in the first data block. -/
def tableDir : Fs :=
  { emptyDir with
    mem := { emptyDir.mem with
      bitmap := fun b => decide (b ≤ Mkfs.nmeta),
      data := fun b => if b = Mkfs.nmeta then fun o => tableBytes.getD o 0 else emptyDir.mem.data b }
    inode := fun i => if i.val = 0 then
        { emptyDir.inode i with size := 48, addrs := fun k => if k = 0 then Mkfs.nmeta else 0 }
      else emptyDir.inode i }

theorem tableDir_blockOf (bn : Nat) :
    tableDir.blockOf ⟨0, NINODE_pos⟩ bn = if bn = 0 then Mkfs.nmeta else 0 := by
  unfold blockOf
  split_ifs <;> simp_all [tableDir, NDIRECT]

theorem tableDir_dirOk : tableDir.DirOk ⟨0, NINODE_pos⟩ where
  dir := by simp [tableDir, emptyDir]
  fileOk := {
    size := by simp only [tableDir]; decide
    inj := fun a b _ _ ha hab => by
      simp only [tableDir_blockOf] at ha hab
      split_ifs at ha hab <;> omega
    used := fun bn _ hb => by
      rw [tableDir_blockOf] at hb ⊢
      split_ifs at hb ⊢ <;> simp_all [tableDir]
    ind_used := fun h => absurd (by simp [tableDir, NDIRECT]) h
    ind_ne := fun h => absurd (by simp [tableDir, NDIRECT]) h
    boot := by simp [tableDir] }
  mapped bn hbn := by
    rw [tableDir_blockOf, if_pos (by simp [tableDir, BSIZE] at hbn; omega)]
    decide
  entries := by simp only [tableDir]; decide
  sbSize := by decide

theorem tableDir_content : tableDir.content ⟨0, NINODE_pos⟩ = tableBytes := by
  decide +kernel

/-- A `dirlink` into a directory whose second entry was unlinked: the new entry takes the freed
slot at offset `16`, and `.` and `..`, in use, keep their entries. -/
theorem dirlink_lookup_reuse :
    ∃ s', tableDir.dirlink ⟨0, NINODE_pos⟩ ['y'.toUInt8] 5 = .ok (0, s') ∧
      freeSlot (tableDir.content ⟨0, NINODE_pos⟩) = 16 ∧
      entryAt (s'.content ⟨0, NINODE_pos⟩) 0 = ⟨2, strncpy ['.'.toUInt8] DIRSIZ⟩ ∧
      entryAt (s'.content ⟨0, NINODE_pos⟩) 32 = ⟨1, strncpy ['.'.toUInt8, '.'.toUInt8] DIRSIZ⟩ ∧
      s'.dirlookup ⟨0, NINODE_pos⟩ ['y'.toUInt8] = (do
        let g ← s'.iget (s'.inode ⟨0, NINODE_pos⟩).dev (5 % 2 ^ 16)
        .ok (some (g.1, 16), g.2)) := by
  have hslot : freeSlot (tableDir.content ⟨0, NINODE_pos⟩) = 16 := by
    rw [tableDir_content]
    decide
  obtain ⟨s', hl⟩ : ∃ s', tableDir.dirlink ⟨0, NINODE_pos⟩ ['y'.toUInt8] 5 = .ok (0, s') :=
    dirlink_of_room tableDir_dirOk (by rw [tableDir_content]; decide) (by rw [hslot]; decide)
      (by decide) ⟨by decide, by decide, by decide⟩ (by rw [hslot]; decide +kernel)
  obtain ⟨-, -, hfind, -, hkeep⟩ := dirlink_lookup tableDir_dirOk hl (by decide)
  have h0 := hkeep 0 (by decide +kernel) (by rw [tableDir_content]; decide)
  have h32 := hkeep 32 (by decide +kernel) (by rw [tableDir_content]; decide)
  rw [tableDir_content] at h0 h32
  refine ⟨s', hl, hslot, h0.trans (by decide), h32.trans (by decide), ?_⟩
  rw [hfind, hslot]

end Fs

end Xv6
