import Mathlib

/-!
# Procedures interrupted by crashes

A procedure is the list of atomic steps it performs; which steps it performs may depend
on the state it starts from (a recovery procedure first reads what it must redo). A crash
after `k` steps keeps the effect of the first `k` of them and nothing else.

`recoverAfter prog ks s` runs `prog` from `s`, crashing after `k` steps for each `k` of
`ks` in turn, and then once to completion. The one general fact is
`recoverAfter_eq_complete`: if, on a class of states closed under crashed runs, a
complete run from a crashed run's state ends where a complete run from the start ends,
then no sequence of crashes changes the outcome. This is the sense in which a recovery
procedure is idempotent.
-/

namespace Crash

variable {σ : Type*}

/-- Perform the steps in order. -/
def run (steps : List (σ → σ)) (s : σ) : σ :=
  steps.foldl (fun s f => f s) s

/-- Run `prog` from `s`, crashing after its first `k` steps. -/
def crashAfter (prog : σ → List (σ → σ)) (s : σ) (k : Nat) : σ :=
  run ((prog s).take k) s

/-- Run `prog` from `s` to completion. -/
def complete (prog : σ → List (σ → σ)) (s : σ) : σ :=
  run (prog s) s

/-- Interrupted runs of `prog`, one for each crash point in `ks`, then a complete run. -/
def recoverAfter (prog : σ → List (σ → σ)) (ks : List Nat) (s : σ) : σ :=
  complete prog (ks.foldl (crashAfter prog) s)

@[simp] theorem run_nil (s : σ) : run [] s = s := rfl

@[simp] theorem run_cons (f : σ → σ) (steps : List (σ → σ)) (s : σ) :
    run (f :: steps) s = run steps (f s) := rfl

theorem run_append (steps steps' : List (σ → σ)) (s : σ) :
    run (steps ++ steps') s = run steps' (run steps s) := by
  simp [run, List.foldl_append]

/-- Crashing after every step has been taken is completing. -/
theorem crashAfter_of_length_le (prog : σ → List (σ → σ)) (s : σ) {k : Nat}
    (hk : (prog s).length ≤ k) : crashAfter prog s k = complete prog s := by
  rw [crashAfter, complete, List.take_of_length_le hk]

/-- A property of states that every step keeps holds after every run. -/
theorem run_induction (P : σ → Prop) (steps : List (σ → σ))
    (hstep : ∀ f ∈ steps, ∀ s, P s → P (f s)) (s : σ) (hs : P s) : P (run steps s) := by
  induction steps generalizing s with
  | nil => exact hs
  | cons f steps ih =>
      exact ih (fun g hg => hstep g (List.mem_cons_of_mem _ hg)) (f s)
        (hstep f List.mem_cons_self s hs)

section Idempotent

variable (prog : σ → List (σ → σ)) (P : σ → Prop)

/-- Crashes do not change where recovery ends: on a class `P` of states that crashed
runs stay in, if completing after a crash ends where completing from the start ends,
then completing after any sequence of crashes ends there too. -/
theorem recoverAfter_eq_complete
    (hstay : ∀ s k, P s → P (crashAfter prog s k))
    (hidem : ∀ s k, P s → complete prog (crashAfter prog s k) = complete prog s) :
    ∀ (ks : List Nat) (s : σ), P s → recoverAfter prog ks s = complete prog s
  | [], _, _ => rfl
  | k :: ks, s, hs => by
      have ih := recoverAfter_eq_complete hstay hidem ks (crashAfter prog s k) (hstay s k hs)
      rw [recoverAfter, List.foldl_cons, ← recoverAfter, ih, hidem s k hs]

end Idempotent

end Crash
