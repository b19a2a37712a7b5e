import Mathlib

/-!
# Runs of computations that can fail

A computation in `Except ε` that succeeds ran each of its steps successfully. The lemmas
here take a successful `>>=` apart, and give the two rules for a loop written as
`List.foldlM`: an invariant that each successful round preserves holds after a successful
loop (`foldlM_invariant`), and a loop whose every round succeeds under the invariant
succeeds (`foldlM_exists_ok`). The rounds are counted, so that the invariant may speak of
how many rounds have run. A loop that refines a loop of total steps, round by round, succeeds
and ends related to it (`foldlM_simulate`).
-/

namespace Except

universe u v

variable {ε : Type u} {α β : Type v}

@[simp] theorem bind_eq_ok_iff {x : Except ε α} {f : α → Except ε β} {b : β} :
    x >>= f = .ok b ↔ ∃ a, x = .ok a ∧ f a = .ok b := by
  cases x <;> simp [bind, Except.bind]

@[simp] theorem ok_bind (a : α) (f : α → Except ε β) : (Except.ok a >>= f) = f a := rfl

theorem map_eq_ok_iff {x : Except ε α} {f : α → β} {b : β} :
    x.map f = .ok b ↔ ∃ a, x = .ok a ∧ f a = b := by
  cases x <;> simp [Except.map]

theorem map_eq_error_iff {x : Except ε α} {f : α → β} {e : ε} :
    x.map f = .error e ↔ x = .error e := by
  cases x <;> simp [Except.map]

/-- The error a computation stopped with, `none` when it succeeded. -/
def error? : Except ε α → Option ε
  | .error e => some e
  | .ok _ => none

theorem eq_error_of_error? {x : Except ε α} {e : ε} (h : x.error? = some e) : x = .error e := by
  cases x with
  | error e' => cases h; rfl
  | ok a => cases h

theorem pure_eq_ok_iff {a b : α} : (pure a : Except ε α) = .ok b ↔ a = b := by
  simp [pure, Except.pure]

/-- The invariant rule for `List.foldlM`, with the rounds counted from `n`. -/
theorem foldlM_invariant {f : β → α → Except ε β} (P : Nat → β → Prop) {l : List α} {n : Nat}
    {b b' : β}
    (hstep : ∀ k a c c', a ∈ l → k < n + l.length → P k c → f c a = .ok c' → P (k + 1) c')
    (hb : P n b) (h : l.foldlM f b = .ok b') : P (n + l.length) b' := by
  induction l generalizing n b with
  | nil =>
      rw [List.foldlM_nil, pure_eq_ok_iff] at h
      subst h
      simpa using hb
  | cons a l ih =>
      rw [List.foldlM_cons, bind_eq_ok_iff] at h
      obtain ⟨c, hc, hrest⟩ := h
      have hc' : P (n + 1) c := hstep n a b c (by simp) (by simp) hb hc
      have := ih (n := n + 1)
        (fun k a' c c' ha hk => hstep k a' c c' (List.mem_cons_of_mem _ ha) (by simp; omega))
        hc' hrest
      simpa [Nat.add_assoc, Nat.add_comm 1] using this

/-- A loop whose rounds all succeed under the invariant succeeds. -/
theorem foldlM_exists_ok {f : β → α → Except ε β} (P : Nat → β → Prop) {l : List α} {n : Nat}
    {b : β}
    (hstep : ∀ k a c, a ∈ l → k < n + l.length → P k c → ∃ c', f c a = .ok c' ∧ P (k + 1) c')
    (hb : P n b) : ∃ b', l.foldlM f b = .ok b' ∧ P (n + l.length) b' := by
  induction l generalizing n b with
  | nil => exact ⟨b, rfl, by simpa using hb⟩
  | cons a l ih =>
      obtain ⟨c, hc, hc'⟩ := hstep n a b (by simp) (by simp) hb
      obtain ⟨b', hb', hP⟩ := ih (n := n + 1)
        (fun k a' c hc hk => hstep k a' c (List.mem_cons_of_mem _ hc) (by simp; omega)) hc'
      refine ⟨b', ?_, by simpa [Nat.add_assoc, Nat.add_comm 1] using hP⟩
      rw [List.foldlM_cons, hc]
      exact hb'

/-- The simulation rule for `List.foldlM`: when each round of `f`, from a state related to one
of `g`, succeeds and keeps the relation, the whole loop succeeds and ends related to the fold of
`g`. -/
theorem foldlM_simulate {γ : Type*} {f : β → α → Except ε β} {g : γ → α → γ} (R : β → γ → Prop)
    (hstep : ∀ a b d, R b d → ∃ b', f b a = .ok b' ∧ R b' (g d a)) {l : List α} {b : β} {d : γ}
    (h : R b d) : ∃ b', l.foldlM f b = .ok b' ∧ R b' (l.foldl g d) := by
  induction l generalizing b d with
  | nil => exact ⟨b, rfl, h⟩
  | cons a l ih =>
      obtain ⟨c, hc, hR⟩ := hstep a b d h
      rw [List.foldlM_cons, hc, ok_bind, List.foldl_cons]
      exact ih hR

end Except
