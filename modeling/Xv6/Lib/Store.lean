import Mathlib

/-!
# Stores updated by lists of writes

A store is a function from locations to values. `Store.writeList ws s` performs the
writes `ws` in order, each replacing the value at one location. Two facts carry every
use of it: a location that no write names keeps its value (`writeList_of_not_mem`), and
when every write to a location stores the value a fixed function `f` gives it, the
result is `f` on the written locations and `s` elsewhere, whatever order and however
many times the writes come (`writeList_consistent`). The second is what makes replaying
a redo log idempotent.
-/

namespace Store

variable {ι α : Type*} [DecidableEq ι]

/-- Perform the writes `ws` on the store `s`, first write first. -/
def writeList (ws : List (ι × α)) (s : ι → α) : ι → α :=
  ws.foldl (fun s w => Function.update s w.1 w.2) s

@[simp] theorem writeList_nil (s : ι → α) : writeList [] s = s := rfl

theorem writeList_cons (w : ι × α) (ws : List (ι × α)) (s : ι → α) :
    writeList (w :: ws) s = writeList ws (Function.update s w.1 w.2) := rfl

theorem writeList_append (ws vs : List (ι × α)) (s : ι → α) :
    writeList (ws ++ vs) s = writeList vs (writeList ws s) := by
  simp [writeList, List.foldl_append]

/-- A location that no write names keeps its value. -/
theorem writeList_of_not_mem (ws : List (ι × α)) (s : ι → α) {x : ι}
    (hx : x ∉ ws.map Prod.fst) : writeList ws s x = s x := by
  induction ws generalizing s with
  | nil => rfl
  | cons w ws ih =>
      have hne : x ≠ w.1 := fun h => hx (by simp [h])
      have hrest : x ∉ ws.map Prod.fst := fun h => hx (List.mem_cons_of_mem _ h)
      rw [writeList_cons, ih _ hrest, Function.update_of_ne hne]

/-- Writes that always store `f ℓ` at `ℓ` leave `f` on the written locations and the
old store elsewhere, in whatever order and multiplicity they come. -/
theorem writeList_consistent (f : ι → α) (ws : List (ι × α))
    (hws : ∀ w ∈ ws, w.2 = f w.1) (s : ι → α) (x : ι) :
    writeList ws s x = if x ∈ ws.map Prod.fst then f x else s x := by
  induction ws generalizing s with
  | nil => simp
  | cons w ws ih =>
      rw [writeList_cons, ih (fun v hv => hws v (List.mem_cons_of_mem _ hv))]
      by_cases hx : x ∈ ws.map Prod.fst
      · simp [hx]
      · by_cases hw : x = w.1
        · subst hw
          simp [hws w List.mem_cons_self]
        · simp [hx, hw]

/-- After consistent writes, every location holds either its old value or `f`'s. -/
theorem writeList_consistent_cases (f : ι → α) (ws : List (ι × α))
    (hws : ∀ w ∈ ws, w.2 = f w.1) (s : ι → α) (x : ι) :
    writeList ws s x = s x ∨ (x ∈ ws.map Prod.fst ∧ writeList ws s x = f x) := by
  rw [writeList_consistent f ws hws]
  by_cases hx : x ∈ ws.map Prod.fst
  · exact Or.inr ⟨hx, by simp [hx]⟩
  · exact Or.inl (by simp [hx])

end Store
