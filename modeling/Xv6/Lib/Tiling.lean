import Mathlib

/-!
# Regions that tile a set

A list of regions, each the set of cells that `cells` gives it, tiles a set when no two regions
share a cell (`Apart`) and together they cover the set (`cover`): the free and the used blocks
of a heap tile the heap. The order of the list does not matter (`Apart.perm`, `cover_perm`).
Two regions merge into one whose cells are theirs (`Apart.merge`), and a region splits into two
that share no cell (`Apart.split`); both keep a tiling of the same set, wherever in the list the
regions stand (`Apart.merge_mid`, `Apart.split_mid`).
-/

namespace Tiling

variable {α β : Type*} (cells : β → Set α)

/-- The cells of the regions of `l`. -/
def cover (l : List β) : Set α := {c | ∃ b ∈ l, c ∈ cells b}

/-- No two regions of `l` share a cell. -/
def Apart (l : List β) : Prop := l.Pairwise fun a b => Disjoint (cells a) (cells b)

variable {cells} {l l' l₁ l₂ : List β} {b x y z : β}

@[simp] theorem cover_nil : cover cells [] = ∅ := by
  simp [cover]

@[simp] theorem cover_cons : cover cells (b :: l) = cells b ∪ cover cells l := by
  ext c
  simp [cover]

@[simp] theorem cover_append : cover cells (l₁ ++ l₂) = cover cells l₁ ∪ cover cells l₂ := by
  ext c
  simp only [cover, List.mem_append, Set.mem_union, Set.mem_ofPred_eq]
  constructor
  · rintro ⟨b, hb | hb, hc⟩
    · exact .inl ⟨b, hb, hc⟩
    · exact .inr ⟨b, hb, hc⟩
  · rintro (⟨b, hb, hc⟩ | ⟨b, hb, hc⟩)
    · exact ⟨b, .inl hb, hc⟩
    · exact ⟨b, .inr hb, hc⟩

theorem cover_perm (h : l.Perm l') : cover cells l = cover cells l' := by
  ext c
  simp [cover, h.mem_iff]

theorem subset_cover (hb : b ∈ l) : cells b ⊆ cover cells l := fun _ hc => ⟨b, hb, hc⟩

theorem Apart.perm (h : Apart cells l) (hp : l.Perm l') : Apart cells l' :=
  List.Pairwise.perm h hp fun hd => hd.symm

/-- Two regions at different places in the list share no cell. -/
theorem Apart.disjoint (h : Apart cells l) (hb : b ∈ l) (hc : x ∈ l) (hne : b ≠ x) :
    Disjoint (cells b) (cells x) := by
  induction l with
  | nil => cases hb
  | cons d l ih =>
    rw [Apart, List.pairwise_cons] at h
    rcases List.mem_cons.1 hb with rfl | hb' <;> rcases List.mem_cons.1 hc with rfl | hc'
    · exact absurd rfl hne
    · exact h.1 x hc'
    · exact (h.1 b hb').symm
    · exact ih h.2 hb' hc'

theorem apart_cons :
    Apart cells (b :: l) ↔ Disjoint (cells b) (cover cells l) ∧ Apart cells l := by
  have hdis : Disjoint (cells b) (cover cells l) ↔ ∀ a ∈ l, Disjoint (cells b) (cells a) := by
    simp only [Set.disjoint_left, cover, Set.mem_ofPred_eq, not_exists, not_and]
    exact ⟨fun h a ha c hc => h hc a ha, fun h c hc a ha => h a ha hc⟩
  rw [Apart, List.pairwise_cons, hdis]
  rfl

/-- Two regions merged into one with the cells of both. -/
theorem Apart.merge (h : Apart cells (x :: y :: l)) (hz : cells z = cells x ∪ cells y) :
    Apart cells (z :: l) := by
  rw [apart_cons, apart_cons, cover_cons] at h
  rw [apart_cons, hz]
  exact ⟨Disjoint.union_left (h.1.mono_right Set.subset_union_right) h.2.1, h.2.2⟩

/-- A region split into two that share no cell. -/
theorem Apart.split (h : Apart cells (z :: l)) (hz : cells z = cells x ∪ cells y)
    (hxy : Disjoint (cells x) (cells y)) : Apart cells (x :: y :: l) := by
  rw [apart_cons, hz] at h
  rw [apart_cons, apart_cons, cover_cons]
  exact ⟨Disjoint.union_right hxy (h.1.mono_left Set.subset_union_left),
    h.1.mono_left Set.subset_union_right, h.2⟩

/-- Two neighbours in the list, `x` just before `y`, brought to its front and back. -/
theorem perm_mid (l₁ l₂ : List β) (x y : β) :
    (l₁ ++ x :: y :: l₂).Perm (x :: y :: (l₁ ++ l₂)) :=
  List.perm_middle.trans (List.Perm.cons x List.perm_middle)

theorem Apart.merge_mid (h : Apart cells (l₁ ++ x :: y :: l₂)) (hz : cells z = cells x ∪ cells y) :
    Apart cells (l₁ ++ z :: l₂) :=
  ((h.perm (perm_mid l₁ l₂ x y)).merge hz).perm List.perm_middle.symm

theorem Apart.split_mid (h : Apart cells (l₁ ++ z :: l₂)) (hz : cells z = cells x ∪ cells y)
    (hxy : Disjoint (cells x) (cells y)) : Apart cells (l₁ ++ x :: y :: l₂) :=
  ((h.perm List.perm_middle).split hz hxy).perm (perm_mid l₁ l₂ x y).symm

theorem cover_merge_mid (hz : cells z = cells x ∪ cells y) :
    cover cells (l₁ ++ z :: l₂) = cover cells (l₁ ++ x :: y :: l₂) := by
  simp [hz, Set.union_assoc]

end Tiling
