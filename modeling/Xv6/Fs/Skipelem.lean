import Xv6.Fs.Path

/-!
# Path elements

`skipelem(path, name)` of `fs.c` skips the slashes at the front of `path`, copies the element
that follows into the `DIRSIZ`-byte buffer `name`, skips the slashes after it, and returns what
is left; it returns `0` when only slashes remain. `Fs.skipelem` models what `namex` reads of the
buffer, the element cut to `DIRSIZ` bytes. `skipelemBuf` keeps the buffer's bytes: a long
element fills all `DIRSIZ` of them with no NUL, a short one is followed by one, and the bytes
after that keep what the previous call left.

`elements` is the meaning of a path: its `'/'`-separated pieces that are not empty. Calling
`skipelem` again on what it returns goes through exactly these pieces, each copied into `name`
as the source's comment describes (`skipelem_elements`).
-/

namespace Xv6

namespace Fs

/-- The non-empty `'/'`-separated elements of a path. -/
def elements (path : List UInt8) : List (List UInt8) :=
  (path.splitOn '/'.toUInt8).filter fun e => !e.isEmpty

/-- `name` after the element `s` is copied into it: `memmove(name, s, DIRSIZ)` when the element
has `DIRSIZ` bytes or more, else `memmove(name, s, len)` and `name[len] = 0`. -/
def copyElem (name s : List UInt8) : List UInt8 :=
  if DIRSIZ ≤ s.length then s.take DIRSIZ ++ name.drop DIRSIZ
  else s ++ 0 :: name.drop (s.length + 1)

/-- `skipelem(path, name)` with the bytes of the buffer `name`: the buffer after the call and
the rest of the path, `none` when the call returns `0`. -/
def skipelemBuf (path name : List UInt8) : Option (List UInt8 × List UInt8) :=
  let path := path.dropWhile (· == '/'.toUInt8)
  if path = [] then none
  else
    let s := path.takeWhile (· != '/'.toUInt8)
    let rest := (path.dropWhile (· != '/'.toUInt8)).dropWhile (· == '/'.toUInt8)
    some (copyElem name s, rest)

/-- `skipelemBuf` leaves the same rest of the path as `skipelem`. -/
theorem skipelemBuf_snd (path name : List UInt8) :
    (skipelemBuf path name).map Prod.snd = (skipelem path).map Prod.snd := by
  unfold skipelemBuf skipelem
  dsimp only
  split <;> rfl

theorem skipelemBuf_length {path name name' rest : List UInt8}
    (h : skipelemBuf path name = some (name', rest)) : rest.length < path.length := by
  have hs := skipelemBuf_snd path name
  rw [h] at hs
  obtain ⟨⟨nm, rest'⟩, hsk, hrest⟩ := Option.map_eq_some_iff.1 hs.symm
  cases hrest
  exact skipelem_length hsk

set_option linter.unusedVariables false in
/-- Iterating `p = skipelem(p, name)` until it returns `0`, with the same buffer `name`: the
buffer and the rest of the path after each call. -/
def skipelems (path name : List UInt8) : List (List UInt8 × List UInt8) :=
  match h : skipelemBuf path name with
  | none => []
  | some (name', rest) => (name', rest) :: skipelems rest name'
termination_by path.length
decreasing_by exact skipelemBuf_length h

/-- The buffer `name` holds the element `e` as `skipelem` leaves it: its first
`min(len, DIRSIZ)` bytes, and a NUL among the `DIRSIZ` bytes exactly when `len < DIRSIZ`, right
after the element. -/
structure Holds (e name : List UInt8) : Prop where
  bytes : name.take (min e.length DIRSIZ) = e.take DIRSIZ
  nul_iff : (0 : UInt8) ∈ name.take DIRSIZ ↔ e.length < DIRSIZ
  nul_at : e.length < DIRSIZ → name[e.length]? = some 0

/-! ## Elements -/

/-- A slash splits the elements of the two sides. -/
theorem elements_append_slash (x y : List UInt8) :
    elements (x ++ '/'.toUInt8 :: y) = elements x ++ elements y := by
  unfold elements
  rw [List.splitOn_eq_splitOnP, List.splitOnP_append_cons x y (by simp), List.filter_append]
  rfl

/-- A slash in front belongs to no element. -/
theorem elements_cons_slash (y : List UInt8) : elements ('/'.toUInt8 :: y) = elements y := by
  rw [← List.nil_append ('/'.toUInt8 :: y), elements_append_slash]
  rfl

/-- A path of slashes only has no elements. -/
theorem elements_eq_nil {path : List UInt8} (h : ∀ c ∈ path, c = '/'.toUInt8) :
    elements path = [] := by
  induction path with
  | nil => rfl
  | cons c t ih =>
    rw [h c List.mem_cons_self, elements_cons_slash]
    exact ih fun a ha => h a (List.mem_cons_of_mem _ ha)

/-- A non-empty path with no slash is one element. -/
theorem elements_of_no_slash {e : List UInt8} (hne : e ≠ [])
    (h : ∀ c ∈ e, c ≠ '/'.toUInt8) :
    elements e = [e] := by
  unfold elements
  rw [List.splitOn_eq_splitOnP, List.splitOnP_eq_singleton fun c hc => by simpa using h c hc]
  simp [hne]

/-- Slashes in front do not change the elements. -/
theorem elements_dropWhile_slash (path : List UInt8) :
    elements (path.dropWhile (· == '/'.toUInt8)) = elements path := by
  induction path with
  | nil => rfl
  | cons c t ih =>
    by_cases hc : c = '/'.toUInt8
    · rw [List.dropWhile_cons_of_pos (by simp [hc]), ih, hc, elements_cons_slash]
    · rw [List.dropWhile_cons_of_neg (by simpa using hc)]

/-! ## One call -/

/-- `skipelem` returns `0` exactly when only slashes, or nothing, remain. -/
theorem skipelemBuf_eq_none_iff (path name : List UInt8) :
    skipelemBuf path name = none ↔ ∀ c ∈ path, c = '/'.toUInt8 := by
  unfold skipelemBuf
  dsimp only
  split
  · rename_i hnil
    simp only [true_iff]
    intro c hc
    simpa using List.dropWhile_eq_nil_iff.1 hnil c hc
  · rename_i hne
    simp only [reduceCtorEq, false_iff]
    intro hall
    exact hne (List.dropWhile_eq_nil_iff.2 fun c hc => by simpa using hall c hc)

/-- What one call does: it takes the first element `e` of the path, a piece of it, copies it
into `name`, and leaves a suffix of the path that does not start with a slash and holds the
other elements. -/
theorem skipelemBuf_some {path name name' rest : List UInt8}
    (h : skipelemBuf path name = some (name', rest)) :
    ∃ e, elements path = e :: elements rest ∧ name' = copyElem name e ∧ e <:+: path ∧
      rest <:+ path ∧ rest.head? ≠ some '/'.toUInt8 := by
  unfold skipelemBuf at h
  dsimp only at h
  split at h
  · cases h
  rename_i hne
  simp only [Option.some.injEq, Prod.mk.injEq] at h
  obtain ⟨rfl, rfl⟩ := h
  -- the path without its leading slashes is the element, then a slash or nothing
  generalize hp : path.dropWhile (· == '/'.toUInt8) = p at hne
  obtain ⟨c, t, rfl⟩ := List.exists_cons_of_ne_nil hne
  have hc : c ≠ '/'.toUInt8 := by
    have := List.head_dropWhile_not (fun x => x == '/'.toUInt8) (l := path) (by simp [hp])
    simpa [hp] using this
  have hsplit := List.takeWhile_append_dropWhile (p := (· != '/'.toUInt8)) (l := c :: t)
  have hsfx : (c :: t) <:+ path := hp ▸ List.dropWhile_suffix _
  refine ⟨(c :: t).takeWhile (· != '/'.toUInt8), ?_, rfl,
    (List.takeWhile_prefix _).isInfix.trans hsfx.isInfix,
    (List.dropWhile_suffix _).trans ((List.dropWhile_suffix _).trans hsfx), ?_⟩
  · have hnes : (c :: t).takeWhile (· != '/'.toUInt8) ≠ [] := by
      rw [List.takeWhile_cons_of_pos (by simpa using hc)]
      exact List.cons_ne_nil _ _
    have hnos : ∀ x ∈ (c :: t).takeWhile (· != '/'.toUInt8), x ≠ '/'.toUInt8 := by
      intro x hx
      simpa using List.mem_takeWhile_imp hx
    conv_lhs => rw [← elements_dropWhile_slash path, hp, ← hsplit]
    rw [elements_dropWhile_slash]
    -- after the element comes nothing, or a slash
    cases hr : (c :: t).dropWhile (· != '/'.toUInt8) with
    | nil => rw [List.append_nil, elements_of_no_slash hnes hnos]; rfl
    | cons d u =>
      have hd : d = '/'.toUInt8 := by
        have := List.head_dropWhile_not (fun x => x != '/'.toUInt8) (l := c :: t) (by simp [hr])
        simpa [hr] using this
      rw [hd, elements_append_slash, elements_of_no_slash hnes hnos, elements_cons_slash]
      rfl
  · -- the rest is what the second scan of slashes stopped at
    intro hhead
    obtain ⟨u, hu⟩ := List.head?_eq_some_iff.1 hhead
    have hne' : ((c :: t).dropWhile (· != '/'.toUInt8)).dropWhile (· == '/'.toUInt8) ≠ [] := by
      rw [hu]
      exact List.cons_ne_nil _ _
    have := List.head_dropWhile_not (fun x => x == '/'.toUInt8) hne'
    simp [hu] at this

/-- The copy leaves the element in the buffer as `Holds` says, when the element has no NUL. -/
theorem holds_copyElem {e : List UInt8} (name : List UInt8) (h0 : (0 : UInt8) ∉ e) :
    Holds e (copyElem name e) := by
  unfold copyElem
  split
  · -- a long element: `DIRSIZ` of its bytes and no NUL
    rename_i hlong
    have htake : (e.take DIRSIZ ++ name.drop DIRSIZ).take DIRSIZ = e.take DIRSIZ :=
      List.take_left' (by rw [List.length_take]; omega)
    refine ⟨by rw [Nat.min_eq_right hlong, htake], ?_, fun h => absurd h (by omega)⟩
    rw [htake]
    exact ⟨fun h => absurd (List.mem_of_mem_take h) h0, fun h => absurd h (by omega)⟩
  · -- a short element: all of it, then the NUL
    rename_i hshort
    have hlt : e.length < DIRSIZ := by omega
    refine ⟨?_, ⟨fun _ => hlt, fun _ => ?_⟩, fun _ => by simp⟩
    · rw [Nat.min_eq_left hlt.le, List.take_left' rfl, List.take_of_length_le hlt.le]
    · obtain ⟨k, hk⟩ : ∃ k, DIRSIZ - e.length = k + 1 :=
        ⟨DIRSIZ - e.length - 1, by omega⟩
      rw [List.take_append, hk, List.take_succ_cons]
      exact List.mem_append_right _ List.mem_cons_self

/-- The string in the buffer, its bytes before a NUL among the first `DIRSIZ`, is the element
cut to `DIRSIZ` bytes. -/
theorem takeWhile_copyElem {e : List UInt8} (name : List UInt8) (h0 : (0 : UInt8) ∉ e) :
    ((copyElem name e).take DIRSIZ).takeWhile (· != 0) = e.take DIRSIZ := by
  have hnz : ∀ c ∈ e, (c != 0) = true := fun c hc => by
    simpa using fun h : c = 0 => h0 (h ▸ hc)
  unfold copyElem
  split
  · rw [List.take_left' (by rw [List.length_take]; omega)]
    exact List.takeWhile_eq_self_iff.2 fun c hc => hnz c (List.mem_of_mem_take hc)
  · obtain ⟨k, hk⟩ : ∃ k, DIRSIZ - e.length = k + 1 := ⟨DIRSIZ - e.length - 1, by omega⟩
    rw [List.take_append, hk, List.take_succ_cons, List.take_of_length_le (by omega),
      List.takeWhile_append_of_pos hnz, List.takeWhile_cons_of_neg (by simp), List.append_nil]

/-- `Fs.skipelem`, the name as `namex` reads it, is what `skipelemBuf` leaves in the buffer. -/
theorem skipelem_eq_map_skipelemBuf {path : List UInt8} (name : List UInt8)
    (h0 : (0 : UInt8) ∉ path) :
    skipelem path =
      (skipelemBuf path name).map fun r => ((r.1.take DIRSIZ).takeWhile (· != 0), r.2) := by
  have h0' : (0 : UInt8) ∉ (path.dropWhile (· == '/'.toUInt8)).takeWhile (· != '/'.toUInt8) :=
    fun h => h0 ((List.dropWhile_suffix _).subset ((List.takeWhile_prefix _).subset h))
  unfold skipelem skipelemBuf
  dsimp only
  split
  · rfl
  · rw [Option.map_some, takeWhile_copyElem name h0']
    congr 2
    split
    · rfl
    · exact (List.take_of_length_le (by omega)).symm

/-- The run of calls goes through the elements of the path in order, each left in `name` as
`Holds` says, and each rest it returns starts with no slash. -/
theorem skipelems_forall₂ {path : List UInt8} (name : List UInt8) (h0 : (0 : UInt8) ∉ path) :
    List.Forall₂ (fun e r => Holds e r.1 ∧ r.2.head? ≠ some '/'.toUInt8) (elements path)
      (skipelems path name) := by
  -- induction along the calls, with the buffer passed from each call to the next
  fun_induction skipelems path name with
  | case1 path name hnone =>
    rw [elements_eq_nil ((skipelemBuf_eq_none_iff path name).1 hnone)]
    exact .nil
  | case2 path name name' rest hsome ih =>
    obtain ⟨e, he, rfl, hinf, hsfx, hhead⟩ := skipelemBuf_some hsome
    rw [he]
    exact .cons ⟨holds_copyElem name fun h => h0 (hinf.subset h), hhead⟩
      (ih fun h => h0 (hsfx.subset h))

theorem skipelem_elements (path name : List UInt8) (h0 : (0 : UInt8) ∉ path) :
    List.Forall₂ (fun e r => Holds e r.1 ∧ r.2.head? ≠ some '/'.toUInt8) (elements path)
        (skipelems path name) ∧
      (skipelemBuf path name = none ↔ ∀ c ∈ path, c = '/'.toUInt8) :=
  ⟨skipelems_forall₂ name h0, skipelemBuf_eq_none_iff path name⟩

/-- The example of the source's comment with an element of `DIRSIZ` bytes added. -/
theorem skipelem_elements_long :
    (0 : UInt8) ∉ cstr "///a//bb/abcdefghijklmn" ∧
    (List.Forall₂ (fun e r => Holds e r.1 ∧ r.2.head? ≠ some '/'.toUInt8)
        (elements (cstr "///a//bb/abcdefghijklmn"))
        (skipelems (cstr "///a//bb/abcdefghijklmn") (List.replicate DIRSIZ 0)) ∧
      (skipelemBuf (cstr "///a//bb/abcdefghijklmn") (List.replicate DIRSIZ 0) = none ↔
        ∀ c ∈ cstr "///a//bb/abcdefghijklmn", c = '/'.toUInt8)) := by
  have h0 : (0 : UInt8) ∉ cstr "///a//bb/abcdefghijklmn" := by decide
  exact ⟨h0, skipelem_elements _ _ h0⟩

end Fs

end Xv6
