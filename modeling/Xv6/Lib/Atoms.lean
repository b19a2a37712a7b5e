import Mathlib

/-!
# Patterns of starred atoms

The simplest regular expressions: a sequence of atoms, each a set of letters given by a test,
either taken once or starred (taken any number of times). `Lang as w` says that the pattern
`as` matches the whole word `w`; `Prefix as anchored w` that it matches a prefix of `w`, the
whole of `w` when `anchored`.

The three `prefix_*_iff` lemmas are the equations a backtracking matcher follows: an empty
pattern matches the empty prefix, a plain atom must match the first letter, and a starred atom
is either skipped or matches the first letter and stays.
-/

namespace Atoms

variable {α : Type*}

/-- An atom: the letters it matches, and whether it is starred. -/
structure Atom (α : Type*) where
  hits : α → Bool
  star : Bool

/-- The words a pattern matches in full. -/
inductive Lang : List (Atom α) → List α → Prop
  | nil : Lang [] []
  | one {p : α → Bool} {t : α} {as : List (Atom α)} {u : List α} :
      p t = true → Lang as u → Lang (⟨p, false⟩ :: as) (t :: u)
  | skip {p : α → Bool} {as : List (Atom α)} {u : List α} :
      Lang as u → Lang (⟨p, true⟩ :: as) u
  | more {p : α → Bool} {t : α} {as : List (Atom α)} {u : List α} :
      p t = true → Lang (⟨p, true⟩ :: as) u → Lang (⟨p, true⟩ :: as) (t :: u)

/-- The pattern matches a prefix of `w`, and all of `w` when `anchored`. -/
def Prefix (as : List (Atom α)) (anchored : Bool) (w : List α) : Prop :=
  ∃ u v, w = u ++ v ∧ Lang as u ∧ (anchored = true → v = [])

variable {as : List (Atom α)} {p : α → Bool} {anchored : Bool} {w : List α}

theorem lang_nil_iff : Lang ([] : List (Atom α)) w ↔ w = [] := by
  constructor
  · rintro ⟨⟩
    rfl
  · rintro rfl
    exact .nil

theorem lang_one_iff :
    Lang (⟨p, false⟩ :: as) w ↔ ∃ t u, w = t :: u ∧ p t = true ∧ Lang as u := by
  constructor
  · intro h
    cases h with
    | one ht hu => exact ⟨_, _, rfl, ht, hu⟩
  · rintro ⟨t, u, rfl, ht, hu⟩
    exact .one ht hu

theorem lang_star_iff :
    Lang (⟨p, true⟩ :: as) w ↔
      Lang as w ∨ ∃ t u, w = t :: u ∧ p t = true ∧ Lang (⟨p, true⟩ :: as) u := by
  constructor
  · intro h
    cases h with
    | skip h => exact .inl h
    | more ht hu => exact .inr ⟨_, _, rfl, ht, hu⟩
  · rintro (h | ⟨t, u, rfl, ht, hu⟩)
    · exact .skip h
    · exact .more ht hu

/-- The empty pattern matches the empty prefix; anchored, only of the empty word. -/
theorem prefix_nil_iff : Prefix ([] : List (Atom α)) anchored w ↔ (anchored = true → w = []) := by
  constructor
  · rintro ⟨u, v, rfl, hu, hv⟩
    rw [lang_nil_iff.1 hu, List.nil_append]
    exact hv
  · intro h
    exact ⟨[], w, rfl, .nil, h⟩

/-- A plain atom matches the first letter. -/
theorem prefix_one_iff :
    Prefix (⟨p, false⟩ :: as) anchored w ↔
      ∃ t w', w = t :: w' ∧ p t = true ∧ Prefix as anchored w' := by
  constructor
  · rintro ⟨u, v, rfl, hu, hv⟩
    obtain ⟨t, u', rfl, ht, hu'⟩ := lang_one_iff.1 hu
    exact ⟨t, u' ++ v, rfl, ht, u', v, rfl, hu', hv⟩
  · rintro ⟨t, w', rfl, ht, u, v, rfl, hu, hv⟩
    exact ⟨t :: u, v, rfl, .one ht hu, hv⟩

/-- A starred atom is skipped, or matches the first letter and stays. -/
theorem prefix_star_iff :
    Prefix (⟨p, true⟩ :: as) anchored w ↔
      Prefix as anchored w ∨
        ∃ t w', w = t :: w' ∧ p t = true ∧ Prefix (⟨p, true⟩ :: as) anchored w' := by
  constructor
  · rintro ⟨u, v, rfl, hu, hv⟩
    rcases lang_star_iff.1 hu with hu | ⟨t, u', rfl, ht, hu'⟩
    · exact .inl ⟨u, v, rfl, hu, hv⟩
    · exact .inr ⟨t, u' ++ v, rfl, ht, u', v, rfl, hu', hv⟩
  · rintro (⟨u, v, rfl, hu, hv⟩ | ⟨t, w', rfl, ht, u, v, rfl, hu, hv⟩)
    · exact ⟨u, v, rfl, .skip hu, hv⟩
    · exact ⟨t :: u, v, rfl, .more ht hu, hv⟩

end Atoms
