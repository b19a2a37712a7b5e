import Mathlib

/-!
# Histories tagged with their call

A run of several calls keeps, beside its state, the items the calls produced, in the order
they were produced, each with the call that produced it. `History.byCall l c` is what call `c`
produced, in order. A hold of one call appends its own items (`History.tag`): they go after
those of the call, and the other calls' stay as they were.
-/

namespace History

variable {ι α : Type*}

/-- The items `xs`, produced by call `c`. -/
def tag (c : ι) (xs : List α) : List (ι × α) := xs.map fun x => (c, x)

@[simp] theorem map_snd_tag (c : ι) (xs : List α) : (tag c xs).map Prod.snd = xs := by
  simp [tag, Function.comp_def]

@[simp] theorem length_tag (c : ι) (xs : List α) : (tag c xs).length = xs.length := by
  simp [tag]

/-- Keeping the items of one kind commutes with tagging them. -/
theorem tag_filter (c : ι) (xs : List α) (p : α → Bool) :
    tag c (xs.filter p) = (tag c xs).filter fun x => p x.2 := by
  simp [tag, List.filter_map, Function.comp_def]

section ByCall

variable [DecidableEq ι]

/-- The items of call `c`, in order. -/
def byCall (l : List (ι × α)) (c : ι) : List α := (l.filter fun x => x.1 = c).map Prod.snd

@[simp] theorem byCall_nil (c : ι) : byCall ([] : List (ι × α)) c = [] := rfl

@[simp] theorem byCall_append (l l' : List (ι × α)) (c : ι) :
    byCall (l ++ l') c = byCall l c ++ byCall l' c := by
  simp [byCall]

@[simp] theorem byCall_tag_self (c : ι) (xs : List α) : byCall (tag c xs) c = xs := by
  have hall : (tag c xs).filter (fun x => x.1 = c) = tag c xs :=
    List.filter_eq_self.2 (by simp [tag])
  rw [byCall, hall, map_snd_tag]

@[simp] theorem byCall_tag_of_ne {c c' : ι} (h : c' ≠ c) (xs : List α) :
    byCall (tag c xs) c' = [] := by
  simp [byCall, tag, Ne.symm h]

/-- Keeping the items of one kind commutes with taking the items of one call. -/
theorem byCall_filter (l : List (ι × α)) (c : ι) (p : α → Bool) :
    byCall (l.filter fun x => p x.2) c = (byCall l c).filter p := by
  simp only [byCall, List.filter_filter, List.filter_map]
  congr 1
  refine List.filter_congr fun x _ => ?_
  simp [Bool.and_comm]

end ByCall

end History
