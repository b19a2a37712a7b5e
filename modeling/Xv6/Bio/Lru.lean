import Xv6.Bio
import Xv6.Lib.Dll
import Xv6.Lib.Except

/-!
# The links of the LRU list

`bcache.head` and the `prev` and `next` fields of the `NBUF` buffers make a ring. `binit` sets
`head` to point at itself and then pushes each buffer in turn right after `head`; `brelse`
unlinks the buffer it releases and pushes it after `head` again, six pointer writes in all.
`bget` only reads the links. `Bcache.lru` is the list that the links describe from `head.next`
on, which `bget` scans forwards for a cached block and backwards for a buffer to recycle.

Through every run of `bget` and `brelse` from `binit`, the links make the ring `head, lru…`
with each buffer on it once, so `b->next->prev == b` and `b->prev->next == b` for every node,
and `brelse` moves the released buffer to `head.next` and keeps the others in order
(`lru_ring`).
-/

namespace Xv6

open Dll

/-- A node of the ring: `none` is `bcache.head`, `some i` is `bcache.buf[i]`. -/
abbrev Node := Option (Fin NBUF)

/-- The links after `binit`, from whatever they held before. -/
def binitLinks (L₀ : Links Node) : Links Node :=
  ((List.finRange NBUF).map some).foldl (fun L b => L.pushFront none b)
    ((L₀.setPrev none none).setNext none none)

/-- The six writes of `brelse(b)`: `b` unlinked, then pushed after `head`. -/
def brelseLinks (L : Links Node) (i : Fin NBUF) : Links Node :=
  (L.unlink (some i)).pushFront none (some i)

/-- The buffer cache with its list links. -/
structure Lru where
  cache : Bcache
  links : Links Node

/-- The calls that reach the list. -/
inductive LruOp where
  | bget (dev blockno : Nat)
  | brelse (i : Fin NBUF)

namespace Lru

def binit (data : Fin NBUF → Block) (disk : Nat → Nat → Block) (L₀ : Links Node) : Lru :=
  ⟨Bcache.binit data disk, binitLinks L₀⟩

/-- One call: `bget` leaves the links as they are, `brelse` makes its six writes. -/
def step (s : Lru) : LruOp → Except String Lru
  | .bget dev blockno => do
    let r ← bget s.cache dev blockno
    pure ⟨r.2, s.links⟩
  | .brelse i => do
    let c ← brelse s.cache i
    pure ⟨c, brelseLinks s.links i⟩

/-- A sequence of calls; the first panic stops it. -/
def run (s : Lru) : List LruOp → Except String Lru
  | [] => .ok s
  | op :: ops => do
    let s' ← s.step op
    s'.run ops

/-- The links make the ring `head, lru…`, and `lru` holds every buffer once. -/
structure Inv (s : Lru) : Prop where
  ring : Path s.links none (s.cache.lru.map some) none
  perm : s.cache.lru.Perm (List.finRange NBUF)

theorem Inv.nodup {s : Lru} (hs : s.Inv) : (none :: s.cache.lru.map some).Nodup := by
  refine List.nodup_cons.2 ⟨by simp, ?_⟩
  exact (hs.perm.nodup_iff.2 (List.nodup_finRange NBUF)).map (Option.some_injective _)

theorem Inv.mem {s : Lru} (hs : s.Inv) (i : Fin NBUF) : i ∈ s.cache.lru :=
  hs.perm.mem_iff.2 (List.mem_finRange i)

/-- Every node is on the ring, so each one's neighbours point back at it. -/
theorem Inv.next_prev {s : Lru} (hs : s.Inv) (z : Node) :
    s.links.next (s.links.prev z) = z ∧ s.links.prev (s.links.next z) = z := by
  have hz : z ∈ none :: s.cache.lru.map some := by
    cases z with
    | none => exact List.mem_cons_self
    | some i => exact List.mem_cons_of_mem _ (List.mem_map_of_mem (hs.mem i))
  refine ⟨hs.ring.next_prev z ?_, hs.ring.prev_next z hz⟩
  rcases List.mem_cons.1 hz with rfl | hz
  · exact List.mem_append_right _ List.mem_cons_self
  · exact List.mem_append_left _ hz

theorem inv_binit (data : Fin NBUF → Block) (disk : Nat → Nat → Block) (L₀ : Links Node) :
    (binit data disk L₀).Inv := by
  have hself : Path ((L₀.setPrev none none).setNext none none) none [] none := by simp [path_nil]
  have hnd : (none :: ((List.finRange NBUF).map some ++ [])).Nodup := by
    rw [List.append_nil]
    exact List.nodup_cons.2 ⟨by simp, (List.nodup_finRange NBUF).map (Option.some_injective _)⟩
  refine ⟨?_, List.reverse_perm _⟩
  have hring := ring_pushAll _ hnd hself
  rwa [List.append_nil, ← List.map_reverse] at hring

theorem bget_lru {c : Bcache} {dev blockno : Nat} {r : BgetEnd × Bcache}
    (h : bget c dev blockno = .ok r) : r.2.lru = c.lru := by
  unfold Xv6.bget at h
  split at h
  · split at h <;> cases h <;> rfl
  · split at h
    · cases h
      rfl
    · cases h

theorem brelse_lru {c c' : Bcache} {i : Fin NBUF} (h : brelse c i = .ok c') :
    c'.lru = i :: c.lru.erase i := by
  unfold Xv6.brelse at h
  split at h
  · cases h
  · cases h
    rfl

/-- `brelse` moves the released buffer to `head.next`, the others kept in order. -/
theorem Inv.brelse {s s' : Lru} {i : Fin NBUF} (hs : s.Inv) (h : s.step (.brelse i) = .ok s') :
    Path s'.links none ((i :: s.cache.lru.erase i).map some) none := by
  simp only [step] at h
  obtain ⟨c, hc, h'⟩ := Except.bind_eq_ok_iff.1 h
  cases Except.pure_eq_ok_iff.1 h'
  -- the buffers before `i` on the list, and those after it
  obtain ⟨l₁, l₂, hl⟩ := List.append_of_mem (hs.mem i)
  have hnd := hs.nodup
  have hi : i ∉ l₁ := by
    rw [hl, List.map_append, List.map_cons] at hnd
    simp only [List.nodup_cons, List.nodup_append, List.mem_append, List.mem_map,
      List.mem_cons] at hnd
    grind
  have hring := hs.ring
  rw [hl, List.map_append, List.map_cons] at hring hnd
  rw [hl, List.erase_append_right _ hi, List.erase_cons_head, List.map_cons, List.map_append]
  exact ring_moveFront hnd hring

/-- Each call keeps the invariant. -/
theorem Inv.step {s s' : Lru} {op : LruOp} (hs : s.Inv) (h : s.step op = .ok s') : s'.Inv := by
  cases op with
  | bget dev blockno =>
    simp only [Lru.step] at h
    obtain ⟨r, hr, h'⟩ := Except.bind_eq_ok_iff.1 h
    cases Except.pure_eq_ok_iff.1 h'
    exact ⟨(bget_lru hr).symm ▸ hs.ring, (bget_lru hr).symm ▸ hs.perm⟩
  | brelse i =>
    have hring := hs.brelse h
    simp only [Lru.step] at h
    obtain ⟨c, hc, h'⟩ := Except.bind_eq_ok_iff.1 h
    cases Except.pure_eq_ok_iff.1 h'
    have hlru := brelse_lru hc
    refine ⟨?_, ?_⟩
    · dsimp only at hring ⊢
      rw [hlru]
      exact hring
    · dsimp only
      rw [hlru]
      exact (List.perm_cons_erase (hs.mem i)).symm.trans hs.perm

/-- Every run keeps the invariant. -/
theorem Inv.run {s s' : Lru} {ops : List LruOp} (hs : s.Inv) (h : s.run ops = .ok s') :
    s'.Inv := by
  induction ops generalizing s with
  | nil => cases h; exact hs
  | cons op ops ih =>
    simp only [Lru.run] at h
    obtain ⟨s₁, h₁, h₂⟩ := Except.bind_eq_ok_iff.1 h
    exact ih (hs.step h₁) h₂

end Lru

theorem lru_ring (data : Fin NBUF → Block) (disk : Nat → Nat → Block) (L₀ : Links Node)
    (ops : List LruOp) {s : Lru} (h : (Lru.binit data disk L₀).run ops = .ok s) :
    Path s.links none (s.cache.lru.map some) none ∧ s.cache.lru.Perm (List.finRange NBUF) ∧
      (∀ z, s.links.next (s.links.prev z) = z ∧ s.links.prev (s.links.next z) = z) ∧
      ∀ i s', s.step (.brelse i) = .ok s' →
        Path s'.links none ((i :: s.cache.lru.erase i).map some) none := by
  have hs := (Lru.inv_binit data disk L₀).run h
  exact ⟨hs.ring, hs.perm, hs.next_prev, fun _ _ h' => hs.brelse h'⟩

/-- Two `bget`s from `binit` and the `brelse` of the first buffer, the second still held: its
`brelse` is the move the last conjunct describes. -/
theorem lru_ring_bget_brelse :
    ∃ s s', (Lru.binit (fun _ _ => 0) (fun _ _ _ => 0) ⟨id, id⟩).run
        [.bget 1 5, .bget 1 6, .brelse ⟨0, by decide⟩] = .ok s ∧
      s.step (.brelse ⟨1, by decide⟩) = .ok s' ∧
      (Path s.links none (s.cache.lru.map some) none ∧ s.cache.lru.Perm (List.finRange NBUF) ∧
        (∀ z, s.links.next (s.links.prev z) = z ∧ s.links.prev (s.links.next z) = z) ∧
        ∀ i s', s.step (.brelse i) = .ok s' →
          Path s'.links none ((i :: s.cache.lru.erase i).map some) none) :=
  ⟨_, _, rfl, rfl, lru_ring (fun _ _ => 0) (fun _ _ _ => 0) ⟨id, id⟩
    [.bget 1 5, .bget 1 6, .brelse ⟨0, by decide⟩] rfl⟩

end Xv6
