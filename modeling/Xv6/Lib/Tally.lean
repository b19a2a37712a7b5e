import Mathlib

/-!
# Counting holders

A finite table of holders, each holding at most one `ι` (`f : α → Option ι`). `Tally.count f i`
is the number of holders of `i`, as an integer so that counts can be compared by
subtraction. Changing one holder moves one unit (`count_update`), and over all of `ι` the
tally counts the holders that hold something (`sum_count`). A counter that changes by exactly
the units the holders take and give back therefore stays equal to the tally.
-/

namespace Tally

open Finset

variable {α ι : Type*} [DecidableEq ι]

/-- What a holder of `o` adds to the tally. -/
def one (o : Option ι) (i : ι) : ℤ := if o = some i then 1 else 0

@[simp] theorem one_none : one (none : Option ι) = 0 := by
  funext i
  simp [one]

@[simp] theorem one_some (i : ι) : one (some i) = Pi.single i 1 := by
  funext j
  simp [one, Pi.single_apply, eq_comm]

/-- The number of holders of each `i`. -/
def count [Fintype α] (f : α → Option ι) (i : ι) : ℤ := ∑ a, one (f a) i

@[simp] theorem count_none [Fintype α] : count (fun _ : α => (none : Option ι)) = 0 := by
  funext i
  simp [count]

/-- Giving holder `a` the value `v` takes its old unit away and adds the new one. -/
theorem count_update [Fintype α] [DecidableEq α] (f : α → Option ι) (a : α) (v : Option ι) :
    count (Function.update f a v) = count f - one (f a) + one v := by
  funext i
  have hupd : ∀ b, one (Function.update f a v b) i =
      Function.update (fun b => one (f b) i) a (one v i) b :=
    Function.apply_update (fun _ o => one o i) f a v
  simp only [count, Pi.add_apply, Pi.sub_apply, hupd]
  rw [sum_update_of_mem (mem_univ a), ← add_sum_erase _ _ (mem_univ a), sdiff_singleton_eq_erase]
  ring

theorem sum_one [Fintype ι] (o : Option ι) : ∑ i, one o i = if o.isSome then 1 else 0 := by
  cases o <;> simp [one]

/-- Summed over everything held, the tally counts the holders that hold something. -/
theorem sum_count [Fintype α] [Fintype ι] (f : α → Option ι) :
    ∑ i, count f i = ((univ.filter fun a => (f a).isSome).card : ℤ) := by
  simp only [count]
  rw [sum_comm, card_filter, Nat.cast_sum]
  simp only [sum_one, Nat.cast_ite, Nat.cast_one, Nat.cast_zero]

end Tally
