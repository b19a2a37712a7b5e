import Mathlib

/-!
# Singly linked lists kept in memory

A list whose cells hold the address of the next one, the last one a null address, as an
allocator keeps its free pages. `Linked next null l` says that `next`, the read of a cell's
link, takes each element of `l` to the one after it and the last to `null`. `walk` follows the
links from a head for at most `n` cells, stopping at `null`, as a program that pops or
traverses the list does.

A linked list is what `walk` finds from its head (`walk_of_linked`); any change of `next` away
from the cells of the list keeps it linked (`Linked.congr`), and a list is linked when its two
parts are, the first linked to the head of the second (`linked_append`). A cell is taken out
of a list by linking the cell before it past it (`Linked.bypass`).

A list whose last cell links back to its head is a cycle, as a circular free list is. From any
of its cells, the cells on to the end and then from the head are a path along the links
(`Linked.path_rotate`), and `seek`, which follows the links to the first cell a test accepts,
finds along a path the first cell of it the test accepts (`seek_of_path`).
-/

namespace Chain

variable {α : Type*} {next next' : α → α} {null : α} {l : List α}

/-- Each cell of `l` links to the next one, and the last to `null`. -/
def Linked (next : α → α) (null : α) : List α → Prop
  | [] => True
  | a :: l => next a = l.headD null ∧ Linked next null l

@[simp] theorem linked_nil : Linked next null [] := trivial

@[simp] theorem linked_cons {a : α} :
    Linked next null (a :: l) ↔ next a = l.headD null ∧ Linked next null l := Iff.rfl

/-- The links read only at the cells of the list. -/
theorem Linked.congr (h : Linked next null l) (hn : ∀ a ∈ l, next' a = next a) :
    Linked next' null l := by
  induction l with
  | nil => trivial
  | cons a l ih =>
    rw [linked_cons] at h ⊢
    exact ⟨(hn a List.mem_cons_self).trans h.1,
      ih h.2 fun b hb => hn b (List.mem_cons_of_mem _ hb)⟩

theorem linked_append {l₁ l₂ : List α} :
    Linked next null (l₁ ++ l₂) ↔ Linked next (l₂.headD null) l₁ ∧ Linked next null l₂ := by
  induction l₁ with
  | nil => simp
  | cons a l₁ ih =>
    have hhead : (l₁ ++ l₂).headD null = l₁.headD (l₂.headD null) := by cases l₁ <;> rfl
    rw [List.cons_append, linked_cons, linked_cons, ih, hhead, and_assoc]

/-- The last cell of a list without repeats pointed elsewhere, the other links kept. -/
theorem Linked.retarget {a b z : α} (h : Linked next a l) (hnd : l.Nodup)
    (hz : l.getLast? = some z) (hn : ∀ x ∈ l, x ≠ z → next' x = next x)
    (hz' : next' z = b) :
    Linked next' b l := by
  induction l with
  | nil => trivial
  | cons x l ih =>
    rw [linked_cons] at h ⊢
    cases l with
    | nil =>
      -- `x` is the last cell
      obtain rfl : x = z := by simpa using hz
      exact ⟨hz', trivial⟩
    | cons y l =>
      have hxz : x ≠ z := by
        rintro rfl
        exact (List.nodup_cons.1 hnd).1 (List.mem_of_getLast? (by simpa using hz))
      refine ⟨(hn x List.mem_cons_self hxz).trans h.1, ih h.2 (List.nodup_cons.1 hnd).2 ?_ ?_⟩
      · simpa using hz
      · exact fun w hw => hn w (List.mem_cons_of_mem _ hw)

/-- A cell taken out of a linked list, the cell before it linked past it. -/
theorem Linked.bypass {l₁ l₂ : List α} {a z : α} (h : Linked next null (l₁ ++ a :: l₂))
    (hnd : l₁.Nodup) (hz : l₁.getLast? = some z) (hzl : z ∉ l₂)
    (hn : ∀ x ∈ l₁ ++ l₂, x ≠ z → next' x = next x) (hz' : next' z = next a) :
    Linked next' null (l₁ ++ l₂) := by
  rw [linked_append, linked_cons] at h
  rw [linked_append]
  refine ⟨h.1.retarget hnd hz (fun x hx => hn x (List.mem_append_left _ hx)) (hz'.trans h.2.1),
    h.2.2.congr fun x hx => hn x (List.mem_append_right _ hx) ?_⟩
  rintro rfl
  exact hzl hx

/-- A linked list is a path along the links whose last cell links to `null`. -/
theorem linked_iff_isChain :
    Linked next null l ↔
      List.IsChain (fun a b => next a = b) l ∧ ∀ z ∈ l.getLast?, next z = null := by
  induction l with
  | nil => simp
  | cons a l ih =>
    cases l with
    | nil => simp
    | cons b l =>
      rw [linked_cons, ih, List.isChain_cons_cons, List.getLast?_cons_cons, List.headD_cons,
        and_assoc]

/-- In a cycle, the cells from any one on and then round from the head are a path along the
links. -/
theorem Linked.path_rotate {t pre post : List α} {a : α} (h : Linked next null (null :: t))
    (hs : null :: t = pre ++ a :: post) :
    List.IsChain (fun x y => next x = y) ((a :: post) ++ pre) := by
  rw [linked_iff_isChain, hs, List.isChain_append] at h
  obtain ⟨⟨hpre, hpost, -⟩, hlast⟩ := h
  refine List.isChain_append.2 ⟨hpost, hpre, fun x hx y hy => ?_⟩
  -- the last cell links back to the head of the cycle, where the part before `a` starts
  have hhead : pre.head? = some null := by
    cases pre with
    | nil => simp at hy
    | cons b pre => simp_all
  rw [hhead, Option.mem_some_iff] at hy
  rw [← hy]
  exact hlast x (by rw [List.getLast?_append_of_ne_nil _ (List.cons_ne_nil a post)]; exact hx)

/-- In a linked list in increasing order, each cell links to the least cell above it, or, at the
top, to `null`. -/
theorem Linked.next_spec [LinearOrder α] (h : Linked next null l) (hs : l.Pairwise (· < ·))
    {x : α} (hx : x ∈ l) :
    (x < next x ∧ next x ∈ l ∧ ∀ y ∈ l, x < y → next x ≤ y) ∨
      (next x = null ∧ ∀ y ∈ l, y ≤ x) := by
  induction l with
  | nil => cases hx
  | cons a l ih =>
    rw [linked_cons] at h
    rw [List.pairwise_cons] at hs
    rcases List.mem_cons.1 hx with rfl | hx'
    · -- the head links to the next cell, the least above it
      cases l with
      | nil => exact .inr ⟨h.1, by simp⟩
      | cons b l =>
        have hb : next x = b := h.1
        refine .inl ⟨hb ▸ hs.1 b List.mem_cons_self, by simp [hb], fun y hy hxy => ?_⟩
        rw [hb]
        rcases List.mem_cons.1 hy with rfl | hy
        · exact absurd hxy (lt_irrefl _)
        · rcases List.mem_cons.1 hy with rfl | hy
          · exact le_rfl
          · exact (List.rel_of_pairwise_cons hs.2 hy).le
    · -- a cell further on links as in the rest, which lies above the head
      have hax := hs.1 x hx'
      rcases ih h.2 hs.2 hx' with ⟨hlt, hmem, hleast⟩ | ⟨hnull, htop⟩
      · refine .inl ⟨hlt, List.mem_cons_of_mem _ hmem, fun y hy hxy => ?_⟩
        rcases List.mem_cons.1 hy with rfl | hy
        · exact absurd (hax.trans hxy) (lt_irrefl _)
        · exact hleast y hy hxy
      · refine .inr ⟨hnull, fun y hy => ?_⟩
        rcases List.mem_cons.1 hy with rfl | hy
        · exact hax.le
        · exact htop y hy

/-- Following the links from `a` through at most `n` cells, up to `null`. -/
def walk [DecidableEq α] (next : α → α) (null : α) (a : α) : Nat → List α
  | 0 => []
  | n + 1 => if a = null then [] else a :: walk next null (next a) n

/-- A linked list without `null` in it is what a walk from its head finds, given as many steps
as it has cells. -/
theorem walk_of_linked [DecidableEq α] (h : Linked next null l) (hnull : null ∉ l) {n : Nat}
    (hn : l.length ≤ n) : walk next null (l.headD null) n = l := by
  induction l generalizing n with
  | nil =>
    cases n with
    | zero => rfl
    | succ n => simp [walk]
  | cons a l ih =>
    obtain ⟨n, rfl⟩ : ∃ m, n = m + 1 := ⟨n - 1, by simp at hn; omega⟩
    have ha : a ≠ null := fun ha => hnull (ha ▸ List.mem_cons_self)
    rw [linked_cons] at h
    rw [List.headD_cons, walk, if_neg ha, h.1,
      ih h.2 (fun hm => hnull (List.mem_cons_of_mem _ hm)) (by simpa using hn)]

/-- Following the links from `a` through at most `n` cells, up to the first that `P` accepts. -/
def seek (next : α → α) (P : α → Bool) : Nat → α → Option α
  | 0, _ => none
  | n + 1, a => if P a then some a else seek next P n (next a)

/-- Along a path of at most `n` cells, `seek` finds the first cell of the path that `P`
accepts. -/
theorem seek_of_path {P : α → Bool} {a x : α} {l : List α}
    (hp : List.IsChain (fun x y => next x = y) (a :: l)) {n : Nat} (hn : l.length < n)
    (hf : (a :: l).find? P = some x) : seek next P n a = some x := by
  induction l generalizing a n with
  | nil =>
    obtain ⟨m, rfl⟩ : ∃ m, n = m + 1 := ⟨n - 1, by simp at hn; omega⟩
    by_cases ha : P a = true
    · rw [List.find?_cons_of_pos ha] at hf
      rw [seek, if_pos ha, hf]
    · rw [List.find?_cons_of_neg ha] at hf
      simp at hf
  | cons b l ih =>
    obtain ⟨m, rfl⟩ : ∃ m, n = m + 1 := ⟨n - 1, by simp at hn; omega⟩
    rw [List.isChain_cons_cons] at hp
    by_cases ha : P a = true
    · rw [List.find?_cons_of_pos ha] at hf
      rw [seek, if_pos ha, hf]
    · rw [List.find?_cons_of_neg ha] at hf
      rw [seek, if_neg ha, hp.1]
      exact ih hp.2 (by simp at hn ⊢; omega) hf

/-- A cell of the list that alone passes the test is what `find?` finds. -/
theorem find?_of_unique {P : α → Bool} {x : α} {l : List α} (hx : x ∈ l)
    (hP : ∀ y ∈ l, P y = true ↔ y = x) : l.find? P = some x := by
  induction l with
  | nil => cases hx
  | cons y l ih =>
    by_cases hy : P y = true
    · rw [List.find?_cons_of_pos hy, (hP y List.mem_cons_self).1 hy]
    · have hne : y ≠ x := fun h => hy ((hP y List.mem_cons_self).2 h)
      rw [List.find?_cons_of_neg hy]
      exact ih ((List.mem_cons.1 hx).resolve_left hne.symm)
        fun z hz => hP z (List.mem_cons_of_mem _ hz)

/-- Within a set of cells closed under the links, `seek` finds a cell of the set that `P`
accepts. -/
theorem seek_mem {P : α → Bool} {S : List α} (hS : ∀ y ∈ S, next y ∈ S) {n : Nat} {a x : α}
    (ha : a ∈ S) (h : seek next P n a = some x) : x ∈ S ∧ P x = true := by
  induction n generalizing a with
  | zero => cases h
  | succ n ih =>
    rw [seek] at h
    split_ifs at h with hP
    · cases h
      exact ⟨ha, hP⟩
    · exact ih (hS a ha) h

end Chain
