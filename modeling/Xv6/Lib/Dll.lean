import Mathlib

/-!
# Doubly linked rings

The two links of every node, `next` and `prev`, as functions over the nodes. `Path L x l y`
says that following `next` from `x` goes through the nodes `l` in order and then reaches `y`,
and that `prev` leads back the same way. A ring through a sentinel `h` is a path from `h` back
to `h`; the sentinel holds no element.

`unlink b` takes `b` out of a ring by linking its two neighbours to each other, and
`pushFront h b` puts `b` right after the sentinel. Each is written as its pointer writes in
order, each write reading the links as the earlier ones left them. `ring_moveFront` is the
two together: a node of the ring goes to the front and the others keep their order.
-/

namespace Dll

/-- The links of every node. -/
structure Links (α : Type*) where
  next : α → α
  prev : α → α

namespace Links

variable {α : Type*} [DecidableEq α]

/-- `a->next = b`. -/
def setNext (L : Links α) (a b : α) : Links α := { L with next := Function.update L.next a b }

/-- `a->prev = b`. -/
def setPrev (L : Links α) (a b : α) : Links α := { L with prev := Function.update L.prev a b }

@[simp] theorem next_setNext (L : Links α) (a b : α) :
    (L.setNext a b).next = Function.update L.next a b := rfl
@[simp] theorem prev_setNext (L : Links α) (a b : α) : (L.setNext a b).prev = L.prev := rfl
@[simp] theorem next_setPrev (L : Links α) (a b : α) : (L.setPrev a b).next = L.next := rfl
@[simp] theorem prev_setPrev (L : Links α) (a b : α) :
    (L.setPrev a b).prev = Function.update L.prev a b := rfl

/-- `b->next->prev = b->prev; b->prev->next = b->next`. -/
def unlink (L : Links α) (b : α) : Links α :=
  let L := L.setPrev (L.next b) (L.prev b)
  L.setNext (L.prev b) (L.next b)

/-- `b->next = h->next; b->prev = h; h->next->prev = b; h->next = b`. -/
def pushFront (L : Links α) (h b : α) : Links α :=
  let L := L.setNext b (L.next h)
  let L := L.setPrev b h
  let L := L.setPrev (L.next h) b
  L.setNext h b

/-- When `b` is not its own successor, `unlink` is the two writes at `b`'s old neighbours. -/
theorem unlink_eq (L : Links α) {b : α} (hb : b ≠ L.next b) :
    L.unlink b = (L.setPrev (L.next b) (L.prev b)).setNext (L.prev b) (L.next b) := by
  unfold unlink
  simp only [prev_setPrev, next_setPrev, Function.update_of_ne hb]

/-- When `b` is not the sentinel, `pushFront` reads `h->next` before it changes. -/
theorem pushFront_eq (L : Links α) {h b : α} (hb : b ≠ h) :
    L.pushFront h b =
      (((L.setNext b (L.next h)).setPrev b h).setPrev (L.next h) b).setNext h b := by
  unfold pushFront
  simp only [next_setPrev, next_setNext, Function.update_of_ne hb.symm]

end Links

open Links

variable {α : Type*}

/-- Following `next` from `x` passes through `l` and reaches `y`; `prev` goes back. -/
def Path (L : Links α) : α → List α → α → Prop
  | x, [], y => L.next x = y ∧ L.prev y = x
  | x, a :: l, y => L.next x = a ∧ L.prev a = x ∧ Path L a l y

variable {L L' : Links α} {x y z b h : α} {l l₁ l₂ : List α}

theorem path_nil : Path L x [] y ↔ L.next x = y ∧ L.prev y = x := Iff.rfl

theorem path_cons {a : α} :
    Path L x (a :: l) y ↔ L.next x = a ∧ L.prev a = x ∧ Path L a l y :=
  Iff.rfl

/-- A path through `b` is a path to `b` and a path from it. -/
theorem path_append : Path L x (l₁ ++ b :: l₂) y ↔ Path L x l₁ b ∧ Path L b l₂ y := by
  induction l₁ generalizing x with
  | nil => simp only [List.nil_append, path_cons, path_nil, and_assoc]
  | cons a l₁ ih => simp only [List.cons_append, path_cons, ih, and_assoc]

/-- Only the links a path reads matter: `next` of its nodes but the last, `prev` of its nodes
but the first. -/
theorem Path.frame (hp : Path L x l y) (hn : ∀ z ∈ x :: l, L'.next z = L.next z)
    (hv : ∀ z ∈ l ++ [y], L'.prev z = L.prev z) : Path L' x l y := by
  induction l generalizing x with
  | nil =>
    obtain ⟨h1, h2⟩ := hp
    exact ⟨(hn x List.mem_cons_self).trans h1, (hv y List.mem_cons_self).trans h2⟩
  | cons a l ih =>
    obtain ⟨h1, h2, hrest⟩ := hp
    exact ⟨(hn x List.mem_cons_self).trans h1, (hv a List.mem_cons_self).trans h2,
      ih hrest (fun z hz => hn z (List.mem_cons_of_mem _ hz))
        (fun z hz => hv z (List.mem_cons_of_mem _ hz))⟩

/-- Along a path `prev` undoes `next`, at every node but the last. -/
theorem Path.prev_next (hp : Path L x l y) : ∀ z ∈ x :: l, L.prev (L.next z) = z := by
  induction l generalizing x with
  | nil =>
    intro z hz
    rw [List.mem_singleton.1 hz, hp.1, hp.2]
  | cons a l ih =>
    intro z hz
    rcases List.mem_cons.1 hz with rfl | hz
    · rw [hp.1, hp.2.1]
    · exact ih hp.2.2 z hz

/-- Along a path `next` undoes `prev`, at every node but the first. -/
theorem Path.next_prev (hp : Path L x l y) : ∀ z ∈ l ++ [y], L.next (L.prev z) = z := by
  induction l generalizing x with
  | nil =>
    intro z hz
    obtain rfl : z = y := by simpa using hz
    rw [hp.2, hp.1]
  | cons a l ih =>
    intro z hz
    rcases List.mem_cons.1 hz with rfl | hz
    · rw [hp.2.1, hp.1]
    · exact ih hp.2.2 z hz

/-- The end of a path points back at the path's last node. -/
theorem Path.prev_end (hp : Path L x l y) :
    L.prev y = (x :: l).getLast (List.cons_ne_nil _ _) := by
  induction l generalizing x with
  | nil => exact hp.2
  | cons a l ih => rw [List.getLast_cons_cons, ih hp.2.2]

variable [DecidableEq α]

/-- Pointing the last node of a path at a new end `z`, which the path does not go through. -/
theorem Path.retarget (hp : Path L x l y) (hnd : (x :: l).Nodup) (hz : z ∉ l) :
    Path ((L.setPrev z ((x :: l).getLast (List.cons_ne_nil _ _))).setNext
      ((x :: l).getLast (List.cons_ne_nil _ _)) z) x l z := by
  induction l generalizing x with
  | nil => simp [path_nil]
  | cons a l ih =>
    obtain ⟨h1, h2, hrest⟩ := hp
    have hx : x ∉ a :: l := (List.nodup_cons.1 hnd).1
    have hxl : x ≠ (a :: l).getLast (List.cons_ne_nil _ _) := fun he =>
      hx (he ▸ List.getLast_mem _)
    have hza : a ≠ z := fun he => hz (he ▸ List.mem_cons_self)
    rw [List.getLast_cons_cons]
    refine ⟨?_, ?_, ih hrest (List.nodup_cons.1 hnd).2 fun h => hz (List.mem_cons_of_mem _ h)⟩
    · simp only [next_setNext, next_setPrev, Function.update_of_ne hxl, h1]
    · simp only [prev_setNext, prev_setPrev, Function.update_of_ne hza, h2]

/-- Taking a node out of a ring leaves the ring of the others. -/
theorem ring_unlink (hnd : (h :: (l₁ ++ b :: l₂)).Nodup) (hr : Path L h (l₁ ++ b :: l₂) h) :
    Path (L.unlink b) h (l₁ ++ l₂) h := by
  obtain ⟨h1, h2⟩ := path_append.1 hr
  have hnd₁ : (h :: l₁).Nodup := hnd.sublist (by simp)
  have hall := hnd
  simp only [List.nodup_cons, List.nodup_append, List.mem_append, List.mem_cons] at hall
  -- `p`, the node before `b`, is the last of `h :: l₁`
  have hp : L.prev b = (h :: l₁).getLast (List.cons_ne_nil _ _) := h1.prev_end
  have hpmem := List.getLast_mem (List.cons_ne_nil h l₁)
  cases l₂ with
  | nil =>
    have hbh : b ≠ h := by grind
    rw [L.unlink_eq (by rw [h2.1]; exact hbh), h2.1, hp, List.append_nil]
    exact h1.retarget hnd₁ (by grind)
  | cons n l₂ =>
    obtain ⟨hbn, hnb, h3⟩ := h2
    have hne : b ≠ n := by grind
    rw [L.unlink_eq (by rw [hbn]; exact hne), hbn, hp, path_append]
    refine ⟨h1.retarget hnd₁ (by grind), h3.frame (fun w hw => ?_) (fun w hw => ?_)⟩
    · -- the nodes after `b` are not the one before it
      have : w ≠ (h :: l₁).getLast (List.cons_ne_nil _ _) := by
        rintro rfl
        simp only [List.mem_cons] at hw hpmem
        grind
      simp [Function.update_of_ne this]
    · have : w ≠ n := by
        rintro rfl
        simp only [List.mem_append, List.mem_cons] at hw
        grind
      simp [Function.update_of_ne this]

/-- Putting a new node right after the sentinel. -/
theorem ring_pushFront (hb : b ∉ h :: l) (hnd : (h :: l).Nodup) (hr : Path L h l h) :
    Path (L.pushFront h b) h (b :: l) h := by
  have hbh : b ≠ h := fun he => hb (he ▸ List.mem_cons_self)
  rw [L.pushFront_eq hbh]
  cases l with
  | nil =>
    rw [hr.1]
    simp [path_cons, path_nil, hbh]
  | cons a l =>
    obtain ⟨h1, h2, hrest⟩ := hr
    have hba : b ≠ a := fun he => hb (he ▸ List.mem_cons_of_mem _ List.mem_cons_self)
    rw [h1]
    refine ⟨by simp, by simp [hba], by simp [hbh], by simp, hrest.frame (fun w hw => ?_)
      (fun w hw => ?_)⟩
    · have hwh : w ≠ h := fun he => (List.nodup_cons.1 hnd).1 (he ▸ hw)
      have hwb : w ≠ b := fun he => hb (he ▸ List.mem_cons_of_mem _ hw)
      simp [hwh, hwb]
    · have hwa : w ≠ a := by
        rintro rfl
        simp only [List.nodup_cons, List.mem_cons, List.mem_append] at hnd hw
        grind
      have hwb : w ≠ b := by
        rintro rfl
        simp only [List.mem_cons, List.mem_append] at hb hw
        grind
      simp [hwa, hwb]

/-- A node of the ring moved to the front, the others kept in order. -/
theorem ring_moveFront (hnd : (h :: (l₁ ++ b :: l₂)).Nodup)
    (hr : Path L h (l₁ ++ b :: l₂) h) :
    Path ((L.unlink b).pushFront h b) h (b :: (l₁ ++ l₂)) h := by
  have hnd' : (h :: (l₁ ++ l₂)).Nodup := hnd.sublist (by simp)
  refine ring_pushFront ?_ hnd' (ring_unlink hnd hr)
  simp only [List.nodup_cons, List.nodup_append, List.mem_append, List.mem_cons] at hnd ⊢
  grind

/-- Pushing the nodes `bs` one after the other: the last pushed is first. -/
theorem ring_pushAll (bs : List α) (hnd : (h :: (bs ++ l)).Nodup) (hr : Path L h l h) :
    Path (bs.foldl (fun L b => L.pushFront h b) L) h (bs.reverse ++ l) h := by
  induction bs generalizing L l with
  | nil => exact hr
  | cons b bs ih =>
    have hb : b ∉ h :: l := by
      simp only [List.nodup_cons, List.nodup_append, List.mem_append, List.mem_cons] at hnd ⊢
      grind
    have hnd' : (h :: (bs ++ b :: l)).Nodup := by
      refine (List.perm_cons h).2 ?_ |>.nodup_iff.1 hnd
      exact List.perm_middle.symm
    rw [List.foldl_cons, List.reverse_cons, List.append_assoc, List.singleton_append]
    exact ih hnd' (ring_pushFront hb (hnd.sublist (by simp)) hr)

end Dll
