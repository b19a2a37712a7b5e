import Xv6.Fs.Checkpoint

/-!
# `namei` and `nameiparent`

Both are `namex`, with the flag that stops the walk one element early. Up to the directory
that holds the last element, the two walks do the same: the same locks, lookups and puts, on
the same states. There `nameiparent` unlocks the directory and returns it with the element,
and `namei` looks the element up and puts the directory. Unlocking a directory and locking it
again gives back the state it was locked in (`ilock_iunlock_ilock`), so `namei` is
`nameiparent` followed by the lookup the callers of `nameiparent` do (`namei_nameiparent`).

A path of slashes only has no last element: `nameiparent` then puts the start directory and
returns `0`, while `namei` returns it.
-/

namespace Xv6

namespace Fs

variable {s s' s₁ : Fs} {ip : Fin NINODE} {path rest nm n₀ : List UInt8}

/-! ## Locking again -/

/-- What `ilock` leaves: the inode locked and loaded, and the rest of the state as it was. -/
theorem ilock_spec (h : s.ilock ip = .ok s') :
    s' = s.setInode ip (s'.inode ip) ∧ (s'.inode ip).busy = true ∧ (s'.inode ip).valid = true ∧
      1 ≤ (s'.inode ip).ref := by
  unfold ilock at h
  dsimp only at h
  split at h
  · cases h
  · split at h
    · cases h
      simp_all
    · split at h
      · cases h
      · cases h
        simp only [setInode_self, true_and]
        omega

theorem setInode_inode_self (s : Fs) (ip : Fin NINODE) : s.setInode ip (s.inode ip) = s := by
  simp [setInode]

/-- Unlocking a locked inode and locking it again gives back the state it was locked in. -/
theorem ilock_iunlock_ilock (h : s.ilock ip = .ok s') (hu : s'.iunlock ip = .ok s₁) :
    s₁.ilock ip = .ok s' := by
  obtain ⟨-, hb, hv, hr⟩ := ilock_spec h
  rw [iunlock_ok hb hr] at hu
  cases hu
  rw [ilock_valid (by simpa using hr) (by simpa using hv), setInode_setInode]
  -- the inode was locked already, so locking it changes no field
  have hsame : { { s'.inode ip with busy := false } with busy := true } = s'.inode ip := by
    cases hi : s'.inode ip
    rw [hi] at hb
    simp only at hb
    rw [hb]
  simp only [setInode_self, hsame, setInode_inode_self]

/-! ## Path elements -/

theorem skipelem_ne_none (h : ∃ c ∈ path, c ≠ '/'.toUInt8) : skipelem path ≠ none := by
  have hne : path.dropWhile (· == '/'.toUInt8) ≠ [] := by
    intro hnil
    obtain ⟨c, hc, hslash⟩ := h
    have := List.dropWhile_eq_nil_iff.1 hnil c hc
    simp only [beq_iff_eq] at this
    exact hslash this
  unfold skipelem
  simp [hne]

/-- What is left after an element starts with another element, when it is not empty. -/
theorem skipelem_rest (h : skipelem path = some (nm, rest)) (hr : rest ≠ []) :
    skipelem rest ≠ none := by
  unfold skipelem at h
  dsimp only at h
  split at h
  · cases h
  · simp only [Option.some.injEq, Prod.mk.injEq] at h
    obtain ⟨-, rfl⟩ := h
    -- the rest starts after its slashes: its first byte is not one
    refine skipelem_ne_none ⟨_, List.head_mem hr, ?_⟩
    have := List.head_dropWhile_not (fun x => x == '/'.toUInt8) hr
    simpa using this

/-! ## The walk -/

/-- A round of the walk over a path with an element `nm`. -/
theorem namexWalk_some {np : Bool} (h : skipelem path = some (nm, rest)) :
    s.namexWalk ip path np n₀ = (do
      let s ← s.ilock ip
      if (s.inode ip).type ≠ T_DIR then do
        let s ← s.iunlockput ip
        pure (none, s)
      else if np ∧ rest = [] then do
        let s ← s.iunlock ip
        pure (some (ip, nm), s)
      else do
        let r ← s.dirlookup ip nm
        match r.1 with
        | none => do
            let s ← r.2.iunlockput ip
            pure (none, s)
        | some (next, _) => do
            let s ← r.2.iunlockput ip
            s.namexWalk next rest np nm) := by
  rw [namexWalk]
  split
  · rename_i h'
    rw [h] at h'
    cases h'
  · rename_i nm' rest' h'
    rw [h, Option.some.injEq, Prod.mk.injEq] at h'
    obtain ⟨rfl, rfl⟩ := h'
    rfl

theorem namexWalk_nil {np : Bool} :
    s.namexWalk ip [] np n₀ =
      if np then (do let s ← s.iput ip; pure (none, s)) else pure (some (ip, n₀), s) := by
  rw [namexWalk]
  split
  · rfl
  · rename_i h
    cases h

/-- The two walks from the same inode along a path with an element: where `nameiparent`'s
stops at the last directory `dp`, `namei`'s goes on to look the element up there, in the state
`dp` was locked in; where `nameiparent`'s fails, so does `namei`'s, in the same state. -/
theorem namexWalk_parent (hp : skipelem path ≠ none) :
    (∀ dp name, s.namexWalk ip path true n₀ = .ok (some (dp, name), s₁) →
      s.namexWalk ip path false n₀ = (do
        let s₂ ← s₁.ilock dp
        let r ← s₂.dirlookup dp name
        let s₃ ← r.2.iunlockput dp
        pure (r.1.map fun x => (x.1, name), s₃))) ∧
    (s.namexWalk ip path true n₀ = .ok (none, s₁) → s.namexWalk ip path false n₀ = .ok (none, s₁)) := by
  -- induction on the length of the path, which each round shortens
  induction hlen : path.length using Nat.strong_induction_on generalizing s ip path n₀ with
  | _ len ih =>
  obtain ⟨⟨nm, rest⟩, hsk⟩ := Option.ne_none_iff_exists'.1 hp
  rw [namexWalk_some hsk, namexWalk_some hsk]
  cases hlock : s.ilock ip with
  | error e =>
    refine ⟨fun _ _ h => ?_, fun h => ?_⟩ <;> cases h
  | ok s' =>
  simp only [Except.ok_bind]
  by_cases hdir : (s'.inode ip).type ≠ T_DIR
  · -- not a directory: both walks put it and fail
    simp only [if_pos hdir]
    refine ⟨fun dp name h => ?_, fun h => h⟩
    cases hput : s'.iunlockput ip with
    | error e => rw [hput] at h; cases h
    | ok s'' => rw [hput] at h; cases h
  rw [if_neg hdir, if_neg hdir]
  by_cases hrest : rest = []
  · -- the last element: `nameiparent` stops here, `namei` looks it up
    subst hrest
    simp only [and_self, if_true, Bool.false_eq_true, false_and, if_false]
    refine ⟨fun dp name h => ?_, fun h => ?_⟩
    · cases hu : s'.iunlock ip with
      | error e => rw [hu] at h; cases h
      | ok s₁' =>
        rw [hu] at h
        cases h
        rw [ilock_iunlock_ilock hlock hu, Except.ok_bind]
        cases hlook : s'.dirlookup ip nm with
        | error e => rfl
        | ok r =>
          obtain ⟨found, s₂⟩ := r
          cases found with
          | none => rfl
          | some x =>
            simp only [Except.ok_bind]
            cases r' : s₂.iunlockput ip with
            | error e => rfl
            | ok s₃ =>
              simp only [Except.ok_bind, namexWalk_nil]
              rfl
    · cases hu : s'.iunlock ip with
      | error e => rw [hu] at h; cases h
      | ok s₁' => rw [hu] at h; cases h
  · -- an element before the last: both look it up and go on from what they found
    simp only [hrest, and_false, if_false]
    have hshort : rest.length < len := hlen ▸ skipelem_length hsk
    have hnext := skipelem_rest hsk hrest
    cases hlook : s'.dirlookup ip nm with
    | error e =>
      refine ⟨fun _ _ h => ?_, fun h => ?_⟩ <;> cases h
    | ok r =>
      obtain ⟨found, s₂⟩ := r
      cases found with
      | none =>
        simp only [Except.ok_bind]
        refine ⟨fun _ _ h => ?_, fun h => h⟩
        cases hput : s₂.iunlockput ip with
        | error e => rw [hput] at h; cases h
        | ok s₃ => rw [hput] at h; cases h
      | some x =>
        simp only [Except.ok_bind]
        cases hput : s₂.iunlockput ip with
        | error e =>
          refine ⟨fun _ _ h => ?_, fun h => ?_⟩ <;> cases h
        | ok s₃ =>
          simp only [Except.ok_bind]
          exact ih rest.length hshort hnext rfl

/-- The two walks after the same start. -/
theorem bind_namexWalk_parent (x : Except String (Fin NINODE × Fs)) (s₁ : Fs)
    (hp : skipelem path ≠ none) :
    (∀ dp name, (x >>= fun r => r.2.namexWalk r.1 path true []) = .ok (some (dp, name), s₁) →
      (x >>= fun r => r.2.namexWalk r.1 path false []) = (do
        let s₂ ← s₁.ilock dp
        let r ← s₂.dirlookup dp name
        let s₃ ← r.2.iunlockput dp
        pure (r.1.map fun x => (x.1, name), s₃))) ∧
    ((x >>= fun r => r.2.namexWalk r.1 path true []) = .ok (none, s₁) →
      (x >>= fun r => r.2.namexWalk r.1 path false []) = .ok (none, s₁)) := by
  cases x with
  | error e =>
    refine ⟨fun _ _ h => ?_, fun h => ?_⟩ <;> cases h
  | ok r =>
    simp only [Except.ok_bind]
    exact namexWalk_parent hp

/-- `namei` and `nameiparent` agree on every path with an element: `namei` returns what the
lookup of the last element in `nameiparent`'s directory finds, and `0` where `nameiparent`
does. -/
theorem namei_nameiparent {cwd : Fin NINODE} (hpath : ∃ c ∈ path, c ≠ '/'.toUInt8) :
    (∀ dp name, s.nameiparent cwd path = .ok (some (dp, name), s₁) →
      s.namei cwd path = (do
        let s₂ ← s₁.ilock dp
        let r ← s₂.dirlookup dp name
        let s₃ ← r.2.iunlockput dp
        pure (r.1.map Prod.fst, s₃))) ∧
    (s.nameiparent cwd path = .ok (none, s₁) → s.namei cwd path = .ok (none, s₁)) := by
  -- both walks start from the same inode
  obtain ⟨x, hx⟩ : ∃ x : Except String (Fin NINODE × Fs),
      ∀ np, s.namex cwd path np = x >>= fun r => r.2.namexWalk r.1 path np [] :=
    ⟨if path.headD 0 = '/'.toUInt8 then s.iget ROOTDEV ROOTINO else pure (cwd, s.idup cwd),
      fun _ => by rw [namex]; split <;> rfl⟩
  obtain ⟨hsome, hnone⟩ := bind_namexWalk_parent x s₁ (skipelem_ne_none hpath)
  unfold nameiparent namei
  rw [hx true, hx false]
  refine ⟨fun dp name h => ?_, fun h => ?_⟩
  · rw [hsome dp name h]
    simp only [bind_assoc, pure_bind, Option.map_map]
    rfl
  · rw [hnone h]
    rfl

/-- The two on the path `a`, from the working directory of `init` on a disk whose root is
empty: `nameiparent` returns the root and `a`, and the state after it, in which `namei`'s
answer is the lookup of `a`. -/
theorem namei_nameiparent_a :
    let s := Fs.init Mkfs.sb (fun _ => ⟨none, none⟩) emptyRootImage
    (∃ c ∈ cstr "a", c ≠ '/'.toUInt8) ∧
    ∃ dp name s₁, s.nameiparent rootSlot (cstr "a") = .ok (some (dp, name), s₁) ∧
      s.namei rootSlot (cstr "a") = (do
        let s₂ ← s₁.ilock dp
        let r ← s₂.dirlookup dp name
        let s₃ ← r.2.iunlockput dp
        pure (r.1.map Prod.fst, s₃)) := by
  intro s
  have hpath : ∃ c ∈ cstr "a", c ≠ '/'.toUInt8 := by decide
  -- `nameiparent` stops at the one element, in the working directory
  obtain ⟨dp, name, s₁, h⟩ : ∃ dp name s₁,
      s.nameiparent rootSlot (cstr "a") = .ok (some (dp, name), s₁) := by
    apply Exists.intro
    apply Exists.intro
    apply Exists.intro
    rw [nameiparent, namex, if_neg (by decide)]
    simp only [pure_bind]
    rw [namexWalk]
    rfl
  exact ⟨hpath, dp, name, s₁, h, (namei_nameiparent hpath).1 dp name h⟩

end Fs

end Xv6
