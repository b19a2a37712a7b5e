import Xv6.User.Umalloc
import Xv6.Lib.Chain
import Xv6.Lib.Tiling

/-!
# The heap of `umalloc.c` over whole runs

`malloc` and `free` keep the free blocks on a circular list through their headers, in address
order from the static `base`, a header of size zero below the heap. `Umem.Ring u fl` says that
memory holds the list of the free blocks `fl`, and `Umem.Heap lo u fl live` that the heap
`[lo, sz)` is tiled by those blocks and the blocks `live` that `malloc` handed out and `free` has
not taken back: no byte of the heap is in two blocks, and none is in no block.

This module proves what one `free` of a live block does (`Heap.free_live`): its loop stops at the
free block before the one it frees, whatever `freep` was, and it joins the block to the free
blocks on either side when they touch it; the list stays in order and the tiling stays a tiling.
`morecore` is a `free` of the block it takes from `sbrk` (`Heap.morecore_grows`). When `malloc`
finds a free block larger than it needs, it hands out the block's tail and the heap stays tiled
(`Heap.malloc_split`); when the block has exactly the size asked, the header before it links
past it (`Heap.malloc_exact`). Either way, at a block large enough `malloc` hands out a block
of exactly the units asked (`Heap.malloc_fit`).
-/

namespace Xv6

namespace Umem

/-! ## The free list and the tiling of the heap -/

/-- The bytes of the block with its header at `b.1`, `b.2` header units long. -/
def cells (b : Nat × Nat) : Set Nat := Set.Ico b.1 (b.1 + sizeofHeader * b.2)

/-- The headers on the free list from `base`: `base`, of size zero, then the free blocks. -/
def headers (u : Umem) (fl : List (Nat × Nat)) : List (Nat × Nat) := (u.base, 0) :: fl

/-- Memory holds the free list of the blocks `fl`, in this order from `base`: each header links
to the next, the last back to `base`, each holds its size, and `freep` points at one of them. -/
structure Ring (u : Umem) (fl : List (Nat × Nat)) : Prop where
  linked : Chain.Linked u.ptr u.base ((u.headers fl).map Prod.fst)
  size_eq : ∀ b ∈ u.headers fl, u.size b.1 = b.2
  freep_mem : u.freep ∈ (u.headers fl).map Prod.fst

/-- The heap `[lo, sz)` is tiled by the free blocks `fl`, in address order, and the blocks
`live` handed out, whose headers hold their sizes. `base` lies below the heap, and before the
first `malloc`, while `freep` is null, there is no block. -/
structure Heap (lo : Nat) (u : Umem) (fl live : List (Nat × Nat)) : Prop where
  base_pos : 0 < u.base
  base_le : u.base + sizeofHeader ≤ lo
  lo_le : lo ≤ u.sz
  sz_le : u.sz ≤ u.top
  top_lt : u.top < 2 ^ 32
  start : u.freep = 0 → fl = [] ∧ live = []
  ring : u.freep ≠ 0 → Ring u fl
  sorted : fl.Pairwise fun a b => a.1 < b.1
  pos : ∀ b ∈ fl ++ live, 0 < b.2
  size_live : ∀ b ∈ live, u.size b.1 = b.2
  apart : Tiling.Apart cells (fl ++ live)
  cover : Tiling.cover cells (fl ++ live) = Set.Ico lo u.sz

@[simp] theorem setFreep_base {u : Umem} {v : Nat} : (u.setFreep v).base = u.base := rfl

@[simp] theorem setFreep_top {u : Umem} {v : Nat} : (u.setFreep v).top = u.top := rfl

theorem cells_disjoint_iff {b c : Nat × Nat} (hb : 0 < b.2) (hc : 0 < c.2) :
    Disjoint (cells b) (cells c) ↔
      b.1 + sizeofHeader * b.2 ≤ c.1 ∨ c.1 + sizeofHeader * c.2 ≤ b.1 := by
  rw [cells, cells, Set.Ico_disjoint_Ico]
  unfold sizeofHeader
  omega

@[simp] theorem cells_base (b : Nat) : cells (b, 0) = ∅ := by
  simp [cells]

theorem hdrAdd_of_lt {p n : Nat} (h : p + sizeofHeader * n < 2 ^ 32) :
    hdrAdd p n = p + sizeofHeader * n :=
  Nat.mod_eq_of_lt h

/-- The free list stays in memory when the headers on it and `base` and `freep` stay. -/
theorem Ring.congr {u u' : Umem} {fl : List (Nat × Nat)} (hr : Ring u fl)
    (hbase : u'.base = u.base) (hfreep : u'.freep = u.freep)
    (hhdr : ∀ c ∈ u.headers fl, u'.ptr c.1 = u.ptr c.1 ∧ u'.size c.1 = u.size c.1) :
    Ring u' fl := by
  have hH : u'.headers fl = u.headers fl := by rw [headers, headers, hbase]
  refine ⟨?_, fun c hc => ?_, ?_⟩
  · rw [hH, hbase]
    refine hr.linked.congr fun y hy => ?_
    obtain ⟨c, hc, rfl⟩ := List.mem_map.1 hy
    exact (hhdr c hc).1
  · rw [hH] at hc
    exact (hhdr c hc).2.trans (hr.size_eq c hc)
  · rw [hH, hfreep]
    exact hr.freep_mem

section Heap

variable {lo : Nat} {u : Umem} {fl live : List (Nat × Nat)}

/-- Every block lies in the heap. -/
theorem Heap.bounds (h : Heap lo u fl live) {b : Nat × Nat} (hb : b ∈ fl ++ live) :
    lo ≤ b.1 ∧ b.1 + sizeofHeader * b.2 ≤ u.sz := by
  have hpos := h.pos b hb
  have hsub : cells b ⊆ Tiling.cover cells (fl ++ live) := Tiling.subset_cover hb
  rw [h.cover] at hsub
  have h₁ := hsub (show b.1 ∈ cells b by simp [cells, sizeofHeader]; omega)
  have h₂ := hsub (show b.1 + sizeofHeader * b.2 - 1 ∈ cells b by
    simp [cells, sizeofHeader]; omega)
  simp only [Set.mem_Ico] at h₁ h₂
  omega

/-- Two blocks are apart. -/
theorem Heap.disjoint (h : Heap lo u fl live) {b c : Nat × Nat} (hb : b ∈ fl ++ live)
    (hc : c ∈ fl ++ live) (hne : b ≠ c) :
    b.1 + sizeofHeader * b.2 ≤ c.1 ∨ c.1 + sizeofHeader * c.2 ≤ b.1 :=
  (cells_disjoint_iff (h.pos b hb) (h.pos c hc)).1 (h.apart.disjoint hb hc hne)

/-- The headers of two blocks are apart. -/
theorem Heap.apart_hdr (h : Heap lo u fl live) {b c : Nat × Nat} (hb : b ∈ fl ++ live)
    (hc : c ∈ fl ++ live) (hne : b ≠ c) : Apart b.1 c.1 := by
  have := h.disjoint hb hc hne
  have := h.pos b hb
  have := h.pos c hc
  unfold Apart sizeofHeader at *
  omega

/-- `base`'s header is apart from every block's. -/
theorem Heap.apart_base (h : Heap lo u fl live) {b : Nat × Nat} (hb : b ∈ fl ++ live) :
    Apart u.base b.1 :=
  .inl ((h.base_le).trans (h.bounds hb).1)

/-- The free list's headers, `base` first, in address order. -/
theorem Heap.headers_sorted (h : Heap lo u fl live) :
    ((u.headers fl).map Prod.fst).Pairwise (· < ·) := by
  rw [headers, List.map_cons, List.pairwise_cons, List.pairwise_map]
  refine ⟨fun x hx => ?_, h.sorted⟩
  obtain ⟨b, hb, rfl⟩ := List.mem_map.1 hx
  have := (h.bounds (List.mem_append_left live hb)).1
  have := h.base_le
  unfold sizeofHeader at *
  omega

/-- Every header, `base`'s and those of the blocks, lies below the break. -/
theorem Heap.header_below (h : Heap lo u fl live) {c : Nat × Nat} (hc : c ∈ u.headers fl ++ live) :
    c.1 + sizeofHeader ≤ u.sz := by
  rcases List.mem_cons.1 (List.cons_append ▸ hc) with rfl | hc
  · have := h.base_le
    have := h.lo_le
    dsimp only
    omega
  · have := (h.bounds hc).2
    have := h.pos c hc
    unfold sizeofHeader at *
    omega

end Heap

/-! ## `free` after its loop -/

/-- The first half of `free` after its loop: `bp` joined to the free block after `p` when it
touches it, or linked to it. -/
def joinUpper (u : Umem) (bp p : Nat) : Umem :=
  if hdrAdd bp (u.size bp) = u.ptr p then
    let u := u.setSize bp ((u.size bp + u.size (u.ptr p)) % 2 ^ 32)
    u.setPtr bp (u.ptr (u.ptr p))
  else u.setPtr bp (u.ptr p)

/-- The second half: `bp` joined to `p` when `p` touches it, or linked after it. -/
def joinLower (u : Umem) (bp p : Nat) : Umem :=
  if hdrAdd p (u.size p) = bp then
    let u := u.setSize p ((u.size p + u.size bp) % 2 ^ 32)
    u.setPtr p (u.ptr bp)
  else u.setPtr p bp

/-- `free` is its loop, then the two halves. -/
theorem free_eq (u : Umem) (ap fuel : Nat) :
    u.free ap fuel =
      (u.freeSearch ((ap + 2 ^ 32 - sizeofHeader) % 2 ^ 32) fuel u.freep).map fun p =>
        ((u.joinUpper ((ap + 2 ^ 32 - sizeofHeader) % 2 ^ 32) p).joinLower
          ((ap + 2 ^ 32 - sizeofHeader) % 2 ^ 32) p).setFreep p := by
  unfold free joinUpper joinLower
  dsimp only
  cases u.freeSearch ((ap + 2 ^ 32 - sizeofHeader) % 2 ^ 32) fuel u.freep <;> rfl

section Join

variable {u : Umem} {bp p x : Nat}

@[simp] theorem joinUpper_freep : (u.joinUpper bp p).freep = u.freep := by
  unfold joinUpper; split_ifs <;> rfl

@[simp] theorem joinUpper_base : (u.joinUpper bp p).base = u.base := by
  unfold joinUpper; split_ifs <;> rfl

@[simp] theorem joinUpper_sz : (u.joinUpper bp p).sz = u.sz := by
  unfold joinUpper; split_ifs <;> rfl

@[simp] theorem joinUpper_top : (u.joinUpper bp p).top = u.top := by
  unfold joinUpper; split_ifs <;> rfl

@[simp] theorem joinLower_freep : (u.joinLower bp p).freep = u.freep := by
  unfold joinLower; split_ifs <;> rfl

@[simp] theorem joinLower_base : (u.joinLower bp p).base = u.base := by
  unfold joinLower; split_ifs <;> rfl

@[simp] theorem joinLower_sz : (u.joinLower bp p).sz = u.sz := by
  unfold joinLower; split_ifs <;> rfl

@[simp] theorem joinLower_top : (u.joinLower bp p).top = u.top := by
  unfold joinLower; split_ifs <;> rfl

/-- The first half writes `bp`'s header alone. -/
theorem joinUpper_of_apart (hx : Apart bp x) :
    (u.joinUpper bp p).ptr x = u.ptr x ∧ (u.joinUpper bp p).size x = u.size x := by
  unfold joinUpper
  split_ifs
  · exact ⟨by rw [ptr_setPtr_of_apart hx, ptr_setSize_of_apart hx],
      by rw [size_setPtr_of_apart hx, size_setSize_of_apart hx]⟩
  · exact ⟨ptr_setPtr_of_apart hx, size_setPtr_of_apart hx⟩

/-- The second half writes `p`'s header alone. -/
theorem joinLower_of_apart (hx : Apart p x) :
    (u.joinLower bp p).ptr x = u.ptr x ∧ (u.joinLower bp p).size x = u.size x := by
  unfold joinLower
  split_ifs
  · exact ⟨by rw [ptr_setPtr_of_apart hx, ptr_setSize_of_apart hx],
      by rw [size_setPtr_of_apart hx, size_setSize_of_apart hx]⟩
  · exact ⟨ptr_setPtr_of_apart hx, size_setPtr_of_apart hx⟩

/-- The header of `bp` after the first half: joined to the next block when it ends where that
block starts. -/
theorem joinUpper_self (hap : Apart bp p) (hs : 0 < u.size bp)
    (hw : bp + sizeofHeader * u.size bp < 2 ^ 32)
    (hsum : u.size bp + u.size (u.ptr p) < 2 ^ 32) :
    (u.joinUpper bp p).ptr bp =
        (if bp + sizeofHeader * u.size bp = u.ptr p then u.ptr (u.ptr p) else u.ptr p) ∧
      (u.joinUpper bp p).size bp =
        u.size bp + (if bp + sizeofHeader * u.size bp = u.ptr p then u.size (u.ptr p) else 0) := by
  unfold joinUpper
  rw [hdrAdd_of_lt hw]
  split_ifs with hup
  · -- the next block's header lies past `bp`'s
    have hnx : Apart bp (u.ptr p) := .inl (by unfold sizeofHeader at *; omega)
    rw [ptr_setPtr_self
      (by rw [ptr_setSize_of_apart hap, ptr_setSize_of_apart hnx]; exact ptr_lt _ _),
      ptr_setSize_of_apart hap, ptr_setSize_of_apart hnx, size_setPtr_self,
      size_setSize_self (by omega), Nat.mod_eq_of_lt hsum]
    exact ⟨rfl, rfl⟩
  · rw [ptr_setPtr_self (ptr_lt _ _), size_setPtr_self]
    exact ⟨rfl, by simp⟩

/-- The header of `p` after the second half: `bp` joined to it when `p` ends where `bp`
starts. -/
theorem joinLower_self (hap : Apart p bp) (hbp : bp < 2 ^ 32)
    (hw : p + sizeofHeader * u.size p < 2 ^ 32) (hsum : u.size p + u.size bp < 2 ^ 32) :
    (u.joinLower bp p).ptr p = (if p + sizeofHeader * u.size p = bp then u.ptr bp else bp) ∧
      (u.joinLower bp p).size p =
        u.size p + (if p + sizeofHeader * u.size p = bp then u.size bp else 0) := by
  unfold joinLower
  rw [hdrAdd_of_lt hw]
  split_ifs with hlow
  · rw [ptr_setPtr_self (by rw [ptr_setSize_of_apart hap]; exact ptr_lt _ _),
      ptr_setSize_of_apart hap, size_setPtr_self, size_setSize_self (by omega),
      Nat.mod_eq_of_lt hsum]
    exact ⟨rfl, rfl⟩
  · rw [ptr_setPtr_self hbp, size_setPtr_self]
    exact ⟨rfl, by simp⟩

end Join

/-! ## The loop of `free` -/

/-- The test of the loop of `free` at `p`. -/
def stopAt (u : Umem) (bp p : Nat) : Bool :=
  decide (bp > p ∧ bp < u.ptr p ∨ p ≥ u.ptr p ∧ (bp > p ∨ bp < u.ptr p))

/-- The loop of `free` follows the links to the first header that passes its test. -/
theorem freeSearch_eq_seek (u : Umem) (bp : Nat) :
    ∀ n p, u.freeSearch bp n p = Chain.seek u.ptr (u.stopAt bp) n p
  | 0, _ => rfl
  | n + 1, p => by
    rw [freeSearch, Chain.seek, freeSearch_eq_seek u bp n]
    by_cases h₁ : bp > p ∧ bp < u.ptr p
    · rw [if_pos h₁, if_pos (by simp [stopAt, h₁])]
    · by_cases h₂ : p ≥ u.ptr p ∧ (bp > p ∨ bp < u.ptr p)
      · rw [if_neg h₁, if_pos h₂, if_pos (by simp [stopAt, h₂])]
      · rw [if_neg h₁, if_neg h₂, if_neg (by simp only [stopAt, decide_eq_true_eq]; tauto)]

section Search

variable {u : Umem} {L : List Nat} {a p : Nat}

/-- On a free list in address order, the test of the loop of `free` holds at one header alone:
the last below `bp`, when every header is at most it or above `bp`. -/
theorem stopAt_iff (hl : Chain.Linked u.ptr u.base (u.base :: L))
    (hs : (u.base :: L).Pairwise (· < ·)) (hp : p ∈ u.base :: L) (hpa : p < a)
    (hgap : ∀ y ∈ u.base :: L, y ≤ p ∨ a < y) {x : Nat} (hx : x ∈ u.base :: L) :
    u.stopAt a x = true ↔ x = p := by
  have hmin : ∀ y ∈ u.base :: L, u.base ≤ y := by
    intro y hy
    rcases List.mem_cons.1 hy with rfl | hy
    · exact le_rfl
    · exact (List.rel_of_pairwise_cons hs hy).le
  have hbp := hmin p hp
  simp only [stopAt, decide_eq_true_eq]
  rcases hl.next_spec hs hx with ⟨hlt, hmem, hleast⟩ | ⟨hnull, htop⟩
  · -- below the top, the test holds when `bp` lies between `x` and the next header
    constructor
    · rintro (⟨h₁, h₂⟩ | ⟨h₁, -⟩)
      · rcases hgap x hx with hxp | hax
        · by_contra hne
          have := hleast p hp (by omega)
          omega
        · omega
      · omega
    · rintro rfl
      rcases hgap (u.ptr x) hmem with h | h
      · omega
      · exact .inl ⟨hpa, h⟩
  · -- at the top, the test holds when `bp` lies above it
    rw [hnull]
    constructor
    · rintro (⟨h₁, h₂⟩ | ⟨-, h₂ | h₂⟩)
      · omega
      · have := htop p hp
        rcases hgap x hx with h | h <;> omega
      · omega
    · rintro rfl
      exact .inr ⟨hbp, .inl hpa⟩

variable (hl : Chain.Linked u.ptr u.base (u.base :: L)) (hs : (u.base :: L).Pairwise (· < ·))
  (hp : p ∈ u.base :: L) (hpa : p < a) (hgap : ∀ y ∈ u.base :: L, y ≤ p ∨ a < y)
include hl hs hp hpa hgap

/-- From any header of the list, the loop of `free` stops at `p`, given a round of the list. -/
theorem freeSearch_eq {q fuel : Nat} (hq : q ∈ u.base :: L) (hfuel : L.length < fuel) :
    u.freeSearch a fuel q = some p := by
  obtain ⟨pre, post, hsplit⟩ := List.append_of_mem hq
  have hlen : (post ++ pre).length < fuel := by
    have := congrArg List.length hsplit
    simp at this
    simp
    omega
  have hpw : p ∈ (q :: post) ++ pre := by
    rw [hsplit] at hp
    simp only [List.mem_append, List.mem_cons] at hp ⊢
    tauto
  rw [freeSearch_eq_seek]
  refine Chain.seek_of_path (hl.path_rotate hsplit) hlen (Chain.find?_of_unique hpw fun y hy => ?_)
  refine stopAt_iff hl hs hp hpa hgap ?_
  rw [hsplit]
  simp only [List.append_eq, List.mem_append, List.mem_cons] at hy ⊢
  tauto

/-- Wherever the loop of `free` stops on the list, it stops at `p`. -/
theorem freeSearch_stops {q fuel r : Nat} (hq : q ∈ u.base :: L)
    (h : u.freeSearch a fuel q = some r) :
    r = p := by
  have hclosed : ∀ y ∈ u.base :: L, u.ptr y ∈ u.base :: L := by
    intro y hy
    rcases hl.next_spec hs hy with ⟨-, hmem, -⟩ | ⟨hnull, -⟩
    · exact hmem
    · rw [hnull]
      exact List.mem_cons_self
  rw [freeSearch_eq_seek] at h
  obtain ⟨hr, hstop⟩ := Chain.seek_mem hclosed hq h
  exact (stopAt_iff hl hs hp hpa hgap hr).1 hstop

end Search

/-! ## The free list after `free` -/

/-- `b` joined to the first block of `post` when it ends where that block starts. -/
def joinNext (b : Nat × Nat) : List (Nat × Nat) → (Nat × Nat) × List (Nat × Nat)
  | c :: post =>
    if b.1 + sizeofHeader * b.2 = c.1 then ((b.1, b.2 + c.2), post) else (b, c :: post)
  | [] => (b, [])

/-- `b` after `pw`, joined to it when `pw` ends where `b` starts. -/
def joinPrev (pw b : Nat × Nat) : List (Nat × Nat) :=
  if pw.1 + sizeofHeader * pw.2 = b.1 then [(pw.1, pw.2 + b.2)] else [pw, b]

/-- The headers of the free list after `free` puts `b` back between `pw` and the blocks
`post`, joined to the blocks it touches. -/
def release (I : List (Nat × Nat)) (pw b : Nat × Nat) (post : List (Nat × Nat)) :
    List (Nat × Nat) :=
  I ++ joinPrev pw (joinNext b post).1 ++ (joinNext b post).2

/-- Two blocks, one ending where the other starts, make one block. -/
theorem cells_join {x y : Nat × Nat} (h : x.1 + sizeofHeader * x.2 = y.1) :
    cells (x.1, x.2 + y.2) = cells x ∪ cells y := by
  simp only [cells]
  rw [← h, Set.Ico_union_Ico_eq_Ico (by omega) (by omega)]
  congr 1
  ring

section Lists

variable {l₁ rest post : List (Nat × Nat)} {b pw : Nat × Nat}

theorem joinNext_fst : (joinNext b post).1.1 = b.1 := by
  cases post with
  | nil => rfl
  | cons c post => rw [joinNext]; split_ifs <;> rfl

theorem joinNext_le : b.2 ≤ (joinNext b post).1.2 := by
  cases post with
  | nil => exact le_rfl
  | cons c post => rw [joinNext]; split_ifs <;> simp

theorem joinNext_sublist : (joinNext b post).2.Sublist post := by
  cases post with
  | nil => exact List.Sublist.refl _
  | cons c post =>
    rw [joinNext]
    split_ifs
    · exact List.sublist_cons_self c post
    · exact List.Sublist.refl _

/-- Joining `b` to the next block keeps a tiling of the same cells. -/
theorem joinNext_tiling (h : Tiling.Apart cells (l₁ ++ b :: (post ++ rest))) :
    Tiling.Apart cells (l₁ ++ (joinNext b post).1 :: ((joinNext b post).2 ++ rest)) ∧
      Tiling.cover cells (l₁ ++ (joinNext b post).1 :: ((joinNext b post).2 ++ rest)) =
        Tiling.cover cells (l₁ ++ b :: (post ++ rest)) := by
  cases post with
  | nil => exact ⟨h, rfl⟩
  | cons c post =>
    rw [joinNext]
    split_ifs with hj
    · exact ⟨h.merge_mid (cells_join hj), Tiling.cover_merge_mid (cells_join hj)⟩
    · exact ⟨h, rfl⟩

/-- Joining `b` to the block before it keeps a tiling of the same cells. -/
theorem joinPrev_tiling (h : Tiling.Apart cells (l₁ ++ pw :: b :: rest)) :
    Tiling.Apart cells (l₁ ++ joinPrev pw b ++ rest) ∧
      Tiling.cover cells (l₁ ++ joinPrev pw b ++ rest) =
        Tiling.cover cells (l₁ ++ pw :: b :: rest) := by
  unfold joinPrev
  split_ifs with hj
  · rw [List.append_assoc, List.singleton_append]
    exact ⟨h.merge_mid (cells_join hj), Tiling.cover_merge_mid (cells_join hj)⟩
  · rw [List.append_assoc, List.cons_append, List.cons_append, List.nil_append]
    exact ⟨h, rfl⟩

end Lists

section Free

variable {lo : Nat} {u : Umem} {fl live : List (Nat × Nat)}

theorem apart_base_cons {c : Nat} {l : List (Nat × Nat)} :
    Tiling.Apart cells ((c, 0) :: l) ↔ Tiling.Apart cells l := by
  rw [Tiling.apart_cons, cells_base]
  simp

/-- Headers at different addresses, of blocks or of `base`, are apart. -/
theorem Heap.apart_of_ne (h : Heap lo u fl live) {b c : Nat × Nat}
    (hb : b ∈ u.headers fl ++ live) (hc : c ∈ u.headers fl ++ live) (hne : b.1 ≠ c.1) :
    Apart b.1 c.1 := by
  simp only [headers, List.cons_append, List.mem_cons] at hb hc
  rcases hb with rfl | hb <;> rcases hc with rfl | hc
  · exact absurd rfl hne
  · exact h.apart_base hc
  · exact (h.apart_base hb).symm
  · exact h.apart_hdr hb hc fun e => hne (e ▸ rfl)

/-- The free blocks below a block apart from them all end before it, and those above it start
after its end. -/
theorem exists_split {b : Nat × Nat} (hb : 0 < b.2) :
    ∀ {fl : List (Nat × Nat)}, fl.Pairwise (fun c d => c.1 < d.1) →
      (∀ c ∈ fl, 0 < c.2 ∧
        (c.1 + sizeofHeader * c.2 ≤ b.1 ∨ b.1 + sizeofHeader * b.2 ≤ c.1)) →
      ∃ pre post, fl = pre ++ post ∧ (∀ c ∈ pre, c.1 + sizeofHeader * c.2 ≤ b.1) ∧
        ∀ c ∈ post, b.1 + sizeofHeader * b.2 ≤ c.1
  | [], _, _ => ⟨[], [], rfl, by simp, by simp⟩
  | c :: fl, hs, hd => by
    rw [List.pairwise_cons] at hs
    rcases (hd c List.mem_cons_self).2 with hc | hc
    · -- `c` lies below `b`
      obtain ⟨pre, post, rfl, hpre, hpost⟩ :=
        exists_split hb hs.2 fun d hd' => hd d (List.mem_cons_of_mem _ hd')
      refine ⟨c :: pre, post, rfl, fun d hd' => ?_, hpost⟩
      rcases List.mem_cons.1 hd' with rfl | hd'
      · exact hc
      · exact hpre d hd'
    · -- `c` lies above `b`, and so do all blocks after it
      refine ⟨[], c :: fl, rfl, by simp, fun d hd' => ?_⟩
      rcases List.mem_cons.1 hd' with rfl | hd'
      · exact hc
      · have := hs.1 d hd'
        rcases (hd d (List.mem_cons_of_mem _ hd')).2 with h' | h'
        · have := (hd d (List.mem_cons_of_mem _ hd')).1
          unfold sizeofHeader at *
          omega
        · exact h'


/-- Where `free` puts a live block `b` back on the free list: after the header `pw`, the last
below `b`, which follows the headers `I`, and before the free blocks `post`, all above `b`. -/
structure Slot (u : Umem) (fl : List (Nat × Nat)) (b pw : Nat × Nat)
    (I post : List (Nat × Nat)) : Prop where
  eq : u.headers fl = I ++ pw :: post
  below : ∀ c ∈ I ++ [pw], c.1 + sizeofHeader * c.2 ≤ b.1
  above : ∀ c ∈ post, b.1 + sizeofHeader * b.2 ≤ c.1

theorem Heap.disjoint_live (h : Heap lo u fl live) {b c : Nat × Nat} (hc : c ∈ fl)
    (hb : b ∈ live) : c.1 + sizeofHeader * c.2 ≤ b.1 ∨ b.1 + sizeofHeader * b.2 ≤ c.1 :=
  (cells_disjoint_iff (h.pos c (List.mem_append_left live hc))
    (h.pos b (List.mem_append_right fl hb))).1
    ((List.pairwise_append.1 h.apart).2.2 c hc b hb)

/-- No header on the free list is at a live block. -/
theorem Heap.addr_ne (h : Heap lo u fl live) {b c : Nat × Nat} (hc : c ∈ u.headers fl)
    (hb : b ∈ live) : c.1 ≠ b.1 := by
  have hlo := (h.bounds (List.mem_append_right fl hb)).1
  have hbase := h.base_le
  have hpos := h.pos b (List.mem_append_right fl hb)
  rcases List.mem_cons.1 hc with rfl | hc
  · unfold sizeofHeader at *
    dsimp only
    omega
  · have := h.disjoint_live hc hb
    have := h.pos c (List.mem_append_left live hc)
    unfold sizeofHeader at *
    omega

theorem Heap.slot (h : Heap lo u fl live) {b : Nat × Nat} (hb : b ∈ live) :
    ∃ I pw post, Slot u fl b pw I post := by
  have hbpos := h.pos b (List.mem_append_right fl hb)
  obtain ⟨pre, post, hfl, hpre, hpost⟩ := exists_split hbpos h.sorted fun c hc =>
    ⟨h.pos c (List.mem_append_left live hc), h.disjoint_live hc hb⟩
  rcases List.eq_nil_or_concat ((u.base, 0) :: pre) with hnil | ⟨I, pw, hI⟩
  · cases hnil
  · rw [List.concat_eq_append] at hI
    refine ⟨I, pw, post, ?_, fun c hc => ?_, hpost⟩
    · rw [headers, hfl, ← List.cons_append, hI, List.append_assoc, List.singleton_append]
    · rw [← hI] at hc
      rcases List.mem_cons.1 hc with rfl | hc
      · have := (h.bounds (List.mem_append_right fl hb)).1
        have := h.base_le
        dsimp only
        unfold sizeofHeader at *
        omega
      · exact hpre c hc

variable {I post : List (Nat × Nat)} {b pw : Nat × Nat}

/-- The header `pw` lies below `b`, and every header is at most it or above `b`. -/
theorem Slot.gap (h : Heap lo u fl live) (hb : b ∈ live) (hs : Slot u fl b pw I post) :
    pw.1 < b.1 ∧ ∀ y ∈ (u.headers fl).map Prod.fst, y ≤ pw.1 ∨ b.1 < y := by
  have hsort := h.headers_sorted
  rw [hs.eq, List.map_append, List.map_cons, List.pairwise_append, List.pairwise_cons] at hsort
  have hpw : pw ∈ u.headers fl := by rw [hs.eq]; simp
  have hbpos := h.pos b (List.mem_append_right fl hb)
  have hne := h.addr_ne hpw hb
  have hle := hs.below pw (by simp)
  refine ⟨by omega, fun y hy => ?_⟩
  rw [hs.eq, List.map_append, List.map_cons] at hy
  rcases List.mem_append.1 hy with hy | hy
  · exact .inl (hsort.2.2 y hy pw.1 List.mem_cons_self).le
  · rcases List.mem_cons.1 hy with rfl | hy
    · exact .inl le_rfl
    · obtain ⟨c, hc, rfl⟩ := List.mem_map.1 hy
      have := hs.above c hc
      unfold sizeofHeader at this
      exact .inr (by omega)

/-- The loop of `free` on a live block stops at `pw`, and does so from `freep` given a round of
the list. -/
theorem Slot.freeSearch (h : Heap lo u fl live) (hf : u.freep ≠ 0) (hb : b ∈ live)
    (hs : Slot u fl b pw I post) :
    (∀ fuel, fl.length < fuel → u.freeSearch b.1 fuel u.freep = some pw.1) ∧
      ∀ fuel r, u.freeSearch b.1 fuel u.freep = some r → r = pw.1 := by
  have hr := h.ring hf
  obtain ⟨hpa, hgap⟩ := hs.gap h hb
  have hpw : pw.1 ∈ (u.headers fl).map Prod.fst := by
    rw [hs.eq]
    simp
  have hl := hr.linked
  have hsort := h.headers_sorted
  have hfr := hr.freep_mem
  simp only [headers, List.map_cons] at hl hsort hpw hgap hfr
  refine ⟨fun fuel hfuel => freeSearch_eq hl hsort hpw hpa hgap hfr (by simpa using hfuel),
    fun fuel r hsearch => freeSearch_stops hl hsort hpw hpa hgap hfr hsearch⟩

/-- The free list around the slot: the headers before `pw` lead to it, `pw` links to the first
block after `b`'s place, and those blocks lead back to `base`. -/
theorem Slot.linked (hr : Ring u fl) (hs : Slot u fl b pw I post) :
    Chain.Linked u.ptr pw.1 (I.map Prod.fst) ∧
      u.ptr pw.1 = (post.map Prod.fst).headD u.base ∧
      Chain.Linked u.ptr u.base (post.map Prod.fst) := by
  have hl := hr.linked
  rw [hs.eq, List.map_append, Chain.linked_append, List.map_cons, Chain.linked_cons] at hl
  exact ⟨by simpa using hl.1, hl.2.1, hl.2.2⟩

/-- A header, of a block or of `base`, ends below `2 ^ 32`. -/
theorem Heap.end_lt (h : Heap lo u fl live) {c : Nat × Nat} (hc : c ∈ u.headers fl ++ live) :
    c.1 + sizeofHeader * c.2 < 2 ^ 32 := by
  have := h.sz_le
  have := h.top_lt
  rcases List.mem_cons.1 (List.cons_append ▸ hc) with rfl | hc
  · have := h.base_le
    have := h.lo_le
    unfold sizeofHeader at *
    dsimp only
    omega
  · have := (h.bounds hc).2
    omega

/-- The first half of `free` leaves `b` joined to the block after it when it touches it, and
linked to the block after that, or to the block after it. -/
theorem Slot.upper (h : Heap lo u fl live) (hf : u.freep ≠ 0) (hb : b ∈ live)
    (hs : Slot u fl b pw I post) :
    (u.joinUpper b.1 pw.1).ptr b.1 = ((joinNext b post).2.map Prod.fst).headD u.base ∧
      (u.joinUpper b.1 pw.1).size b.1 = (joinNext b post).1.2 := by
  have hr := h.ring hf
  obtain ⟨-, hnx, hpost⟩ := hs.linked hr
  have hsize := h.size_live b hb
  have hbmem : b ∈ u.headers fl ++ live := List.mem_append_right _ hb
  have hpwmem : pw ∈ u.headers fl := by rw [hs.eq]; simp
  have hap : Apart b.1 pw.1 :=
    h.apart_of_ne hbmem (List.mem_append_left _ hpwmem) (h.addr_ne hpwmem hb).symm
  have hend := h.end_lt hbmem
  have hpos := h.pos b (List.mem_append_right fl hb)
  have hbase : u.base < b.1 := by
    have := (h.bounds (List.mem_append_right fl hb)).1
    have := h.base_le
    unfold sizeofHeader at *
    omega
  cases post with
  | nil =>
    -- after the last block: `b` links back to `base`
    have hsb : u.size u.base = 0 := hr.size_eq (u.base, 0) List.mem_cons_self
    rw [List.map_nil, List.headD_nil] at hnx
    have := joinUpper_self hap (hsize ▸ hpos) (hsize ▸ hend)
      (by rw [hnx, hsb, hsize]; unfold sizeofHeader at hend; omega)
    have hne : ¬b.1 + sizeofHeader * b.2 = u.base := by omega
    rw [hnx, hsize] at this
    simp only [if_neg hne, add_zero] at this
    exact this
  | cons c post =>
    have hcmem : c ∈ u.headers fl := by rw [hs.eq]; simp
    have hsc : u.size c.1 = c.2 := hr.size_eq c hcmem
    have hcend := h.end_lt (List.mem_append_left live hcmem)
    rw [List.map_cons, List.headD_cons] at hnx
    rw [List.map_cons, Chain.linked_cons] at hpost
    have := joinUpper_self hap (hsize ▸ hpos) (hsize ▸ hend)
      (by rw [hnx, hsc, hsize]; unfold sizeofHeader at hend hcend; omega)
    rw [hnx, hsize, hsc] at this
    rw [joinNext]
    by_cases hj : b.1 + sizeofHeader * b.2 = c.1
    · -- `b` ends where the next free block starts: one block
      simp only [if_pos hj, hpost.1] at this ⊢
      exact this
    · simp only [if_neg hj, add_zero] at this ⊢
      exact this

/-- The headers before `pw` lie below it, and the blocks after `b`'s place above `b`. -/
theorem Slot.order (h : Heap lo u fl live) (hb : b ∈ live) (hs : Slot u fl b pw I post) :
    (∀ c ∈ I, c.1 < pw.1) ∧ ∀ c ∈ post, b.1 < c.1 := by
  have hsort := h.headers_sorted
  rw [hs.eq, List.map_append, List.map_cons, List.pairwise_append] at hsort
  refine ⟨fun c hc => hsort.2.2 c.1 (List.mem_map_of_mem hc) pw.1 List.mem_cons_self,
    fun c hc => ?_⟩
  have := hs.above c hc
  have := h.pos b (List.mem_append_right fl hb)
  unfold sizeofHeader at *
  omega

/-- `free` writes the headers of `b` and `pw` alone. -/
theorem Slot.frame (h : Heap lo u fl live) (hb : b ∈ live) (hs : Slot u fl b pw I post)
    {c : Nat × Nat} (hc : c ∈ u.headers fl ++ live) (hcb : c.1 ≠ b.1) (hcp : c.1 ≠ pw.1) :
    (((u.joinUpper b.1 pw.1).joinLower b.1 pw.1).setFreep pw.1).ptr c.1 = u.ptr c.1 ∧
      (((u.joinUpper b.1 pw.1).joinLower b.1 pw.1).setFreep pw.1).size c.1 = u.size c.1 := by
  have hpwmem : pw ∈ u.headers fl ++ live := List.mem_append_left _ (by rw [hs.eq]; simp)
  have hab : Apart b.1 c.1 := h.apart_of_ne (List.mem_append_right _ hb) hc (Ne.symm hcb)
  have hap : Apart pw.1 c.1 := h.apart_of_ne hpwmem hc (Ne.symm hcp)
  rw [ptr_setFreep, size_setFreep, (joinLower_of_apart hap).1, (joinLower_of_apart hap).2,
    (joinUpper_of_apart hab).1, (joinUpper_of_apart hab).2]
  exact ⟨rfl, rfl⟩

/-- The block `free` links in, joined to the next one or not, ends in the heap. -/
theorem Slot.joinNext_end (h : Heap lo u fl live) (hb : b ∈ live) (hs : Slot u fl b pw I post) :
    b.1 + sizeofHeader * (joinNext b post).1.2 ≤ u.sz := by
  have hbnd := (h.bounds (List.mem_append_right fl hb)).2
  cases post with
  | nil => exact hbnd
  | cons c post =>
    have hcmem : c ∈ fl := by
      have : c ∈ u.headers fl := by rw [hs.eq]; simp
      rcases List.mem_cons.1 this with rfl | hc
      · have := hs.above _ List.mem_cons_self
        have := h.base_le
        have := (h.bounds (List.mem_append_right fl hb)).1
        unfold sizeofHeader at *
        dsimp only at *
        omega
      · exact hc
    have hcnd := (h.bounds (List.mem_append_left live hcmem)).2
    rw [joinNext]
    split_ifs with hj
    · dsimp only
      unfold sizeofHeader at *
      omega
    · exact hbnd

/-- The second half of `free`: `pw` takes `b` in when it ends where `b` starts, and links past
it, or links to `b`. -/
theorem Slot.lower (h : Heap lo u fl live) (hf : u.freep ≠ 0) (hb : b ∈ live)
    (hs : Slot u fl b pw I post) :
    ((u.joinUpper b.1 pw.1).joinLower b.1 pw.1).ptr pw.1 =
        (if pw.1 + sizeofHeader * pw.2 = b.1 then
          ((joinNext b post).2.map Prod.fst).headD u.base else b.1) ∧
      ((u.joinUpper b.1 pw.1).joinLower b.1 pw.1).size pw.1 =
        pw.2 + (if pw.1 + sizeofHeader * pw.2 = b.1 then (joinNext b post).1.2 else 0) ∧
      ((u.joinUpper b.1 pw.1).joinLower b.1 pw.1).ptr b.1 =
        ((joinNext b post).2.map Prod.fst).headD u.base ∧
      ((u.joinUpper b.1 pw.1).joinLower b.1 pw.1).size b.1 = (joinNext b post).1.2 := by
  have hr := h.ring hf
  obtain ⟨hup_ptr, hup_size⟩ := hs.upper h hf hb
  have hpwmem : pw ∈ u.headers fl := by rw [hs.eq]; simp
  have hap : Apart pw.1 b.1 := h.apart_of_ne (List.mem_append_left _ hpwmem)
    (List.mem_append_right _ hb) (h.addr_ne hpwmem hb)
  have hsw : (u.joinUpper b.1 pw.1).size pw.1 = pw.2 :=
    (joinUpper_of_apart hap.symm).2.trans (hr.size_eq pw hpwmem)
  have hbelow := hs.below pw (by simp)
  have hend := hs.joinNext_end h hb
  have htop : u.sz < 2 ^ 32 := lt_of_le_of_lt h.sz_le h.top_lt
  have := joinLower_self (u := u.joinUpper b.1 pw.1) hap (by unfold sizeofHeader at *; omega)
    (by rw [hsw]; unfold sizeofHeader at *; omega)
    (by rw [hsw, hup_size]; unfold sizeofHeader at *; omega)
  rw [hsw, hup_ptr, hup_size] at this
  refine ⟨this.1, this.2, ?_, ?_⟩
  · rw [(joinLower_of_apart hap).1, hup_ptr]
  · rw [(joinLower_of_apart hap).2, hup_size]

theorem joinNext_linked {next : Nat → Nat} {null : Nat}
    (h : Chain.Linked next null (post.map Prod.fst)) :
    Chain.Linked next null ((joinNext b post).2.map Prod.fst) := by
  cases post with
  | nil => exact h
  | cons c post =>
    rw [joinNext]
    split_ifs
    · rw [List.map_cons, Chain.linked_cons] at h
      exact h.2
    · exact h

/-- The list `free` leaves starts at `base`. -/
theorem Slot.release_eq (h : Heap lo u fl live) (hb : b ∈ live) (hs : Slot u fl b pw I post) :
    release I pw b post = (u.base, 0) :: (release I pw b post).tail := by
  cases I with
  | nil =>
    -- `b` goes right after `base`, which never takes it in
    have hpw : pw = (u.base, 0) := by
      have := hs.eq
      rw [headers, List.nil_append, List.cons.injEq] at this
      exact this.1.symm
    subst hpw
    have hne : ¬u.base + sizeofHeader * 0 = (joinNext b post).1.1 := by
      rw [joinNext_fst]
      exact h.addr_ne List.mem_cons_self hb
    rw [release, joinPrev, if_neg hne]
    rfl
  | cons c I =>
    have hc : c = (u.base, 0) := by
      have := hs.eq
      rw [headers, List.cons_append, List.cons.injEq] at this
      exact this.1.symm
    subst hc
    rfl

/-- After `free`, memory holds the free list with `b` put back in its slot, joined to the blocks
it touches, and `freep` at `pw`. -/
theorem Slot.ring (h : Heap lo u fl live) (hf : u.freep ≠ 0) (hb : b ∈ live)
    (hs : Slot u fl b pw I post) :
    Ring (((u.joinUpper b.1 pw.1).joinLower b.1 pw.1).setFreep pw.1)
      (release I pw b post).tail := by
  have hr := h.ring hf
  obtain ⟨hI, -, hpost⟩ := hs.linked hr
  obtain ⟨hptr_pw, hsize_pw, hptr_b, hsize_b⟩ := hs.lower h hf hb
  obtain ⟨hIlt, hpostlt⟩ := hs.order h hb
  have hpwlt := (hs.gap h hb).1
  -- the headers before `pw` and the blocks after `b` keep their links and sizes
  have hkeep : ∀ c ∈ I ++ (joinNext b post).2,
      (((u.joinUpper b.1 pw.1).joinLower b.1 pw.1).setFreep pw.1).ptr c.1 = u.ptr c.1 ∧
      (((u.joinUpper b.1 pw.1).joinLower b.1 pw.1).setFreep pw.1).size c.1 = c.2 := by
    intro c hc
    have hc' : c ∈ I ∨ c ∈ post :=
      (List.mem_append.1 hc).imp id fun hc => joinNext_sublist.subset hc
    have hcmem : c ∈ u.headers fl := by
      rw [hs.eq, List.mem_append, List.mem_cons]
      rcases hc' with hc' | hc'
      · exact .inl hc'
      · exact .inr (.inr hc')
    have hne : c.1 ≠ pw.1 := by
      rcases hc' with hc' | hc'
      · exact (hIlt c hc').ne
      · have := hpostlt c hc'
        omega
    have := hs.frame h hb (List.mem_append_left _ hcmem) (h.addr_ne hcmem hb) hne
    exact ⟨this.1, this.2.trans (hr.size_eq c hcmem)⟩
  have hH : (((u.joinUpper b.1 pw.1).joinLower b.1 pw.1).setFreep pw.1).headers
      (release I pw b post).tail = release I pw b post := by
    rw [headers, setFreep_base, joinLower_base, joinUpper_base]
    exact (hs.release_eq h hb).symm
  refine ⟨?_, ?_, ?_⟩
  · rw [hH, setFreep_base, joinLower_base, joinUpper_base, release, List.map_append,
      List.map_append, List.append_assoc, Chain.linked_append]
    constructor
    · -- the headers before `pw` lead to it as before
      have hhead : ((joinPrev pw (joinNext b post).1).map Prod.fst ++
          (joinNext b post).2.map Prod.fst).headD u.base = pw.1 := by
        unfold joinPrev
        split_ifs <;> rfl
      rw [hhead]
      refine hI.congr fun y hy => ?_
      obtain ⟨c, hc, rfl⟩ := List.mem_map.1 hy
      exact (hkeep c (List.mem_append_left _ hc)).1
    · have hrest : Chain.Linked (((u.joinUpper b.1 pw.1).joinLower b.1 pw.1).setFreep pw.1).ptr
          u.base ((joinNext b post).2.map Prod.fst) := by
        refine (joinNext_linked hpost).congr fun y hy => ?_
        obtain ⟨c, hc, rfl⟩ := List.mem_map.1 hy
        exact (hkeep c (List.mem_append_right _ hc)).1
      unfold joinPrev
      split_ifs with hlow
      · -- `pw` took `b` in and links on past it
        rw [joinNext_fst] at hlow
        rw [List.map_cons, List.map_nil, List.cons_append, List.nil_append, Chain.linked_cons,
          ptr_setFreep, hptr_pw, if_pos hlow]
        exact ⟨rfl, hrest⟩
      · -- `pw` links to `b`, and `b` on
        rw [joinNext_fst] at hlow
        rw [List.map_cons, List.map_cons, List.map_nil, List.cons_append, List.cons_append,
          List.nil_append, Chain.linked_cons, Chain.linked_cons, ptr_setFreep, hptr_pw,
          if_neg hlow, joinNext_fst, ptr_setFreep, hptr_b]
        exact ⟨rfl, rfl, hrest⟩
  · rw [hH]
    intro c hc
    rw [release, List.append_assoc, List.mem_append, List.mem_append] at hc
    rcases hc with hc | hc | hc
    · exact (hkeep c (List.mem_append_left _ hc)).2
    · unfold joinPrev at hc
      rw [joinNext_fst] at hc
      split_ifs at hc with hlow
      · rw [List.mem_singleton] at hc
        subst hc
        rw [size_setFreep, hsize_pw, if_pos hlow]
      · rcases List.mem_pair.1 hc with rfl | rfl
        · rw [size_setFreep, hsize_pw, if_neg hlow, add_zero]
        · rw [size_setFreep, joinNext_fst, hsize_b]
    · exact (hkeep c (List.mem_append_right _ hc)).2
  · rw [hH, setFreep_freep, release, List.map_append, List.map_append, List.mem_append,
      List.mem_append]
    refine .inl (.inr ?_)
    unfold joinPrev
    split_ifs <;> simp

theorem joinPrev_mem {c : Nat × Nat} (hc : c ∈ joinPrev pw b) :
    (c.1 = pw.1 ∧ b.2 ≤ c.2 ∨ c = pw) ∨ c = b := by
  unfold joinPrev at hc
  split_ifs at hc
  · rw [List.mem_singleton] at hc
    subst hc
    exact .inl (.inl ⟨rfl, Nat.le_add_left _ _⟩)
  · rcases List.mem_pair.1 hc with rfl | rfl
    · exact .inl (.inr rfl)
    · exact .inr rfl

/-- The list `free` leaves is in address order. -/
theorem Slot.release_sorted (h : Heap lo u fl live) (hb : b ∈ live)
    (hs : Slot u fl b pw I post) :
    (release I pw b post).Pairwise fun c d => c.1 < d.1 := by
  have hH : (I ++ pw :: post).Pairwise fun c d => c.1 < d.1 := by
    rw [← hs.eq]
    exact List.pairwise_map.1 h.headers_sorted
  rw [List.pairwise_append, List.pairwise_cons] at hH
  obtain ⟨hI, ⟨-, hpost⟩, hIx⟩ := hH
  obtain ⟨hIlt, hpostlt⟩ := hs.order h hb
  have hpwlt := (hs.gap h hb).1
  -- the headers `joinPrev` leaves lie at `pw` or at `b`
  have hjp : ∀ d ∈ joinPrev pw (joinNext b post).1, pw.1 ≤ d.1 ∧ d.1 ≤ b.1 := by
    intro d hd
    rcases joinPrev_mem hd with (⟨hd, -⟩ | rfl) | rfl
    · omega
    · omega
    · rw [joinNext_fst]
      omega
  rw [release, List.pairwise_append, List.pairwise_append]
  refine ⟨⟨hI, ?_, fun c hc d hd => by have := hIlt c hc; have := hjp d hd; omega⟩,
    hpost.sublist joinNext_sublist, fun c hc d hd => ?_⟩
  · unfold joinPrev
    split_ifs
    · exact List.pairwise_singleton _ _
    · rw [List.pairwise_pair, joinNext_fst]
      exact hpwlt
  · have hd' := hpostlt d (joinNext_sublist.subset hd)
    rcases List.mem_append.1 hc with hc | hc
    · have := hIlt c hc
      omega
    · have := hjp c hc
      omega

/-- The blocks of the list `free` leaves, after `base`, are not empty. -/
theorem Slot.release_pos (h : Heap lo u fl live) (hb : b ∈ live) (hs : Slot u fl b pw I post) :
    ∀ c ∈ (release I pw b post).tail, 0 < c.2 := by
  have hsorted := hs.release_sorted h hb
  rw [hs.release_eq h hb, List.pairwise_cons] at hsorted
  intro c hc
  have hcb : u.base < c.1 := hsorted.1 c hc
  -- a header of the old list other than `base` is a free block
  have hold : ∀ d ∈ u.headers fl, u.base < d.1 → 0 < d.2 := by
    intro d hd hlt
    rcases List.mem_cons.1 hd with rfl | hd
    · exact absurd hlt (lt_irrefl _)
    · exact h.pos d (List.mem_append_left live hd)
  have hbpos := h.pos b (List.mem_append_right fl hb)
  have hc' : c ∈ release I pw b post := List.mem_of_mem_tail hc
  rw [release, List.append_assoc, List.mem_append, List.mem_append] at hc'
  rcases hc' with hc' | hc' | hc'
  · exact hold c (by rw [hs.eq]; simp [hc']) hcb
  · rcases joinPrev_mem hc' with (⟨-, hpos⟩ | rfl) | rfl
    · have := (joinNext_le : b.2 ≤ (joinNext b post).1.2)
      omega
    · exact hold c (by rw [hs.eq]; simp) hcb
    · have := (joinNext_le : b.2 ≤ (joinNext b post).1.2)
      omega
  · exact hold c (by rw [hs.eq]; simp [joinNext_sublist.subset hc']) hcb

/-- Putting `b` back on the free list, joined to the blocks it touches, keeps a tiling of the
same bytes. -/
theorem Slot.tiling (h : Heap lo u fl live) (hb : b ∈ live) (hs : Slot u fl b pw I post) :
    Tiling.Apart cells (release I pw b post ++ live.erase b) ∧
      Tiling.cover cells (release I pw b post ++ live.erase b) = Set.Ico lo u.sz := by
  have hA : Tiling.Apart cells (u.headers fl ++ live) := by
    rw [headers, List.cons_append, apart_base_cons]
    exact h.apart
  have hC : Tiling.cover cells (u.headers fl ++ live) = Set.Ico lo u.sz := by
    rw [headers, List.cons_append, Tiling.cover_cons, cells_base, Set.empty_union]
    exact h.cover
  -- `b` moved from the live blocks to its slot
  have hperm : (u.headers fl ++ live).Perm ((I ++ [pw]) ++ b :: (post ++ live.erase b)) := by
    rw [hs.eq, show (I ++ pw :: post) ++ live = (I ++ [pw]) ++ (post ++ live) by simp]
    exact List.Perm.append_left _ (((List.perm_cons_erase hb).append_left post).trans
      List.perm_middle)
  obtain ⟨hA₁, hC₁⟩ := joinNext_tiling (hA.perm hperm)
  rw [List.append_assoc, List.singleton_append] at hA₁ hC₁
  obtain ⟨hA₂, hC₂⟩ := joinPrev_tiling hA₁
  rw [release, List.append_assoc]
  refine ⟨hA₂, ?_⟩
  rw [hC₂, hC₁, ← Tiling.cover_perm hperm, hC]

/-- A live block other than `b` does not start at `b`. -/
theorem Heap.erase_ne (h : Heap lo u fl live) (hb : b ∈ live) {c : Nat × Nat}
    (hc : c ∈ live.erase b) : c.1 ≠ b.1 := by
  have hA : Tiling.Apart cells live := (List.pairwise_append.1 h.apart).2.1
  have hd := (Tiling.apart_cons.1 (hA.perm (List.perm_cons_erase hb))).1
  have hbc : Disjoint (cells b) (cells c) := hd.mono_right (Tiling.subset_cover hc)
  have hcl : c ∈ live := List.mem_of_mem_erase hc
  rw [cells_disjoint_iff (h.pos b (List.mem_append_right fl hb))
    (h.pos c (List.mem_append_right fl hcl))] at hbc
  have := h.pos b (List.mem_append_right fl hb)
  have := h.pos c (List.mem_append_right fl hcl)
  unfold sizeofHeader at *
  omega

end Free

section FreeRun

variable {lo : Nat} {u : Umem} {fl live : List (Nat × Nat)}

/-- `free` of a live block, from a heap set up by `malloc`: it returns once its loop has gone
round the free list at most once, puts `b` back in its slot on the free list, after the header
`pw` and joined to the free blocks it touches, leaves `freep` at `pw`, and leaves the heap tiled
by the free blocks and the other live blocks. -/
theorem Heap.free_keeps (h : Heap lo u fl live) (hf : u.freep ≠ 0) {b : Nat × Nat}
    (hb : b ∈ live) :
    ∃ I pw post u' fl', Slot u fl b pw I post ∧ (u.base, 0) :: fl' = release I pw b post ∧
      Heap lo u' fl' (live.erase b) ∧ u'.freep = pw.1 ∧ u'.sz = u.sz ∧ u'.freep ≠ 0 ∧
      ((b.2 ≤ u'.size (u'.ptr u'.freep) ∧ u'.ptr u'.freep ≠ u'.freep) ∨
        b.2 ≤ u'.size u'.freep) ∧
      (∀ fuel, fl.length < fuel → u.free (b.1 + sizeofHeader) fuel = some u') ∧
      ∀ fuel r, u.free (b.1 + sizeofHeader) fuel = some r → r = u' := by
  obtain ⟨I, pw, post, hs⟩ := h.slot hb
  obtain ⟨hsearch, hstops⟩ := hs.freeSearch h hf hb
  have hend := h.end_lt (List.mem_append_right _ hb)
  have hbp : (b.1 + sizeofHeader + 2 ^ 32 - sizeofHeader) % 2 ^ 32 = b.1 := by
    unfold sizeofHeader at *
    omega
  have hpwmem : pw ∈ u.headers fl := by rw [hs.eq]; simp
  have hpw0 : pw.1 ≠ 0 := by
    have := h.base_pos
    have := hs.order h hb
    rcases List.mem_cons.1 hpwmem with rfl | hpw
    · dsimp only
      omega
    · have := (h.bounds (List.mem_append_left live hpw)).1
      have := h.base_le
      unfold sizeofHeader at *
      omega
  obtain ⟨hA, hC⟩ := hs.tiling h hb
  rw [hs.release_eq h hb, List.cons_append, apart_base_cons] at hA
  rw [hs.release_eq h hb, List.cons_append, Tiling.cover_cons, cells_base,
    Set.empty_union] at hC
  have hsorted := hs.release_sorted h hb
  rw [hs.release_eq h hb, List.pairwise_cons] at hsorted
  refine ⟨I, pw, post, ((u.joinUpper b.1 pw.1).joinLower b.1 pw.1).setFreep pw.1,
    (release I pw b post).tail, hs, (hs.release_eq h hb).symm,
    ⟨?_, ?_, ?_, ?_, ?_, fun hz => absurd hz hpw0, fun _ => hs.ring h hf hb, hsorted.2, ?_, ?_,
      ?_, ?_⟩, rfl, ?_, hpw0, ?_, fun fuel hfuel => ?_, fun fuel r hr => ?_⟩
  · simpa using h.base_pos
  · simpa using h.base_le
  · simpa using h.lo_le
  · simpa using h.sz_le
  · simpa using h.top_lt
  · intro c hc
    rcases List.mem_append.1 hc with hc | hc
    · exact hs.release_pos h hb c hc
    · exact h.pos c (List.mem_append_right fl (List.mem_of_mem_erase hc))
  · -- the other live blocks keep their headers
    intro c hc
    have hcl := List.mem_of_mem_erase hc
    have := hs.frame h hb (List.mem_append_right _ hcl) (h.erase_ne hb hc)
      (h.addr_ne hpwmem hcl).symm
    exact this.2.trans (h.size_live c hcl)
  · exact hA
  · simpa using hC
  · simp
  · -- the freed bytes are in the block at `freep`, or in the next one
    obtain ⟨hptr_pw, hsize_pw, -, hsize_b⟩ := hs.lower h hf hb
    have hle := (joinNext_le : b.2 ≤ (joinNext b post).1.2)
    rw [setFreep_freep, ptr_setFreep]
    by_cases hlow : pw.1 + sizeofHeader * pw.2 = b.1
    · rw [if_pos hlow] at hsize_pw
      exact .inr (by rw [size_setFreep, hsize_pw]; omega)
    · rw [if_neg hlow] at hptr_pw
      refine .inl ⟨by rw [hptr_pw, size_setFreep, hsize_b]; exact hle, ?_⟩
      rw [hptr_pw]
      exact (h.addr_ne hpwmem hb).symm
  · rw [free_eq, hbp, hsearch fuel hfuel]
    rfl
  · rw [free_eq, hbp] at hr
    obtain ⟨q, hq, rfl⟩ := Option.map_eq_some_iff.1 hr
    rw [hstops fuel q hq]

/-- `free` of any block `malloc` handed out keeps the heap, returns within as many steps as there
are free blocks, and always returns the same memory. The free list it leaves is the old one with
`b` in its slot, between the last header `pw` below it and the blocks `post` above it, joined to
the first of `post` when it ends where that one starts, and taken into `pw` when `pw` ends where
it starts; `freep` is at `pw`. -/
theorem Heap.free_live (h : Heap lo u fl live) (hf : u.freep ≠ 0) {b : Nat × Nat}
    (hb : b ∈ live) :
    ∃ I pw post u' fl', Slot u fl b pw I post ∧ (u.base, 0) :: fl' = release I pw b post ∧
      Heap lo u' fl' (live.erase b) ∧ u'.freep = pw.1 ∧ u'.sz = u.sz ∧ u'.freep ≠ 0 ∧
      ((b.2 ≤ u'.size (u'.ptr u'.freep) ∧ u'.ptr u'.freep ≠ u'.freep) ∨
        b.2 ≤ u'.size u'.freep) ∧
      (∀ fuel, fl.length < fuel → u.free (b.1 + sizeofHeader) fuel = some u') ∧
      ∀ fuel r, u.free (b.1 + sizeofHeader) fuel = some r → r = u' :=
  h.free_keeps hf hb

/-- A heap whose free blocks at `16` and `48`, of two units each, lie on either side of a block
of two units handed out at `32`, above `base` at `8`; the break is at `64`, and `sbrk` may move
it up to `2 ^ 20`. -/
def twoFree : Umem :=
  ((((((({ mem := fun _ => 0, base := 8, freep := 8, sz := 64, top := 2 ^ 20 } : Umem).setPtr 8 16
    ).setSize 8 0).setPtr 16 48).setSize 16 2).setPtr 48 8).setSize 48 2).setSize 32 2

theorem heap_twoFree : Heap 16 twoFree [(16, 2), (48, 2)] [(32, 2)] where
  base_pos := by decide
  base_le := by decide
  lo_le := by decide
  sz_le := by decide
  top_lt := by decide
  start := fun h0 => absurd h0 (by decide)
  ring := fun _ => by
    refine ⟨?_, ?_, ?_⟩
    · simp only [headers, List.map_cons, List.map_nil, Chain.linked_cons, Chain.linked_nil,
        List.headD_cons, List.headD_nil, and_true]
      decide
    · simp only [headers, List.mem_cons, forall_eq_or_imp, forall_eq,
        List.not_mem_nil, or_false]
      decide
    · simp only [headers, List.map_cons, List.map_nil]
      decide
  sorted := by simp
  pos := by simp
  size_live := by simp only [List.mem_singleton, forall_eq]; decide
  apart := by
    simp only [Tiling.Apart, List.cons_append, List.nil_append, List.pairwise_cons,
      List.mem_cons, List.not_mem_nil, or_false, forall_eq_or_imp, forall_eq, cells,
      Set.Ico_disjoint_Ico, sizeofHeader, false_implies, implies_true, List.Pairwise.nil, and_true]
    decide
  cover := by
    ext x
    simp only [Tiling.cover, List.cons_append, List.nil_append, List.mem_cons, List.not_mem_nil,
      or_false, exists_eq_or_imp, exists_eq_left, cells, sizeofHeader, Set.mem_ofPred_eq,
      Set.mem_Ico, show twoFree.sz = 64 from rfl]
    omega

/-- `free` of the block at `32` joins it to both free blocks it touches: one free block of six
units at `16` is left, and `freep` is at it. -/
theorem free_live_twoFree :
    ∃ u', Heap 16 u' [(16, 6)] [] ∧ u'.freep = 16 ∧
      ∀ fuel, 2 < fuel → twoFree.free (32 + sizeofHeader) fuel = some u' := by
  obtain ⟨I, pw, post, u', fl', hs, hrel, hh, hfp, -, -, -, hrun, -⟩ :=
    Heap.free_live heap_twoFree (by decide) (b := (32, 2)) (by simp)
  -- the slot of the block at `32`: after the free block at `16`, before the one at `48`
  have heq : [(8, 0), (16, 2), (48, 2)] = I ++ pw :: post := hs.eq
  have hslot : I = [(8, 0)] ∧ pw = (16, 2) ∧ post = [(48, 2)] := by
    rcases I with _ | ⟨x, _ | ⟨y, _ | ⟨z, I⟩⟩⟩
    · obtain ⟨rfl, rfl⟩ : pw = (8, 0) ∧ post = [(16, 2), (48, 2)] := by simpa using heq.symm
      exact absurd (hs.above (16, 2) (by simp)) (by decide)
    · obtain ⟨rfl, rfl, rfl⟩ : x = (8, 0) ∧ pw = (16, 2) ∧ post = [(48, 2)] := by
        simpa using heq.symm
      exact ⟨rfl, rfl, rfl⟩
    · obtain ⟨rfl, rfl, rfl, rfl⟩ : x = (8, 0) ∧ y = (16, 2) ∧ pw = (48, 2) ∧ post = [] := by
        simpa using heq.symm
      exact absurd (hs.below (48, 2) (by simp)) (by decide)
    · -- the list has three headers
      have := congrArg List.length heq
      simp at this
  obtain ⟨rfl, rfl, rfl⟩ := hslot
  -- both joins happen
  obtain rfl : fl' = [(16, 6)] := by
    simpa [release, joinNext, joinPrev, sizeofHeader, show twoFree.base = 8 from rfl] using hrel
  exact ⟨u', hh, hfp, hrun⟩

end FreeRun

/-! ## `morecore` -/

section Morecore

variable {lo : Nat} {u : Umem} {fl live : List (Nat × Nat)}

/-- The heap grown by `k` units at the break, the new block's header holding its size: a block
of its own, handed out to nobody yet. -/
theorem Heap.grow (h : Heap lo u fl live) (hf : u.freep ≠ 0) {k : Nat} (hk : 0 < k)
    (hroom : u.sz + sizeofHeader * k ≤ u.top) :
    Heap lo ({ u with sz := u.sz + sizeofHeader * k }.setSize u.sz k) fl ((u.sz, k) :: live) := by
  have htop := h.top_lt
  have hk32 : k < 2 ^ 32 := by unfold sizeofHeader at hroom; omega
  -- every header so far lies below the break
  have hbelow : ∀ c ∈ u.headers fl ++ live, Apart u.sz c.1 := fun c hc =>
    .inr (h.header_below hc)
  have hcells : cells (u.sz, k) = Set.Ico u.sz (u.sz + sizeofHeader * k) := rfl
  have hperm : (fl ++ (u.sz, k) :: live).Perm ((u.sz, k) :: (fl ++ live)) := List.perm_middle
  have hlo := h.lo_le
  refine ⟨h.base_pos, h.base_le, show lo ≤ u.sz + sizeofHeader * k by omega, hroom, h.top_lt,
    fun h0 => absurd h0 hf, fun hf' => (h.ring hf').congr rfl rfl fun c hc =>
      ⟨ptr_setSize_of_apart (hbelow c (List.mem_append_left _ hc)),
        size_setSize_of_apart (hbelow c (List.mem_append_left _ hc))⟩,
    h.sorted, fun c hc => ?_, fun c hc => ?_, ?_, ?_⟩
  · rw [List.mem_append, List.mem_cons] at hc
    rcases hc with hc | rfl | hc
    · exact h.pos c (List.mem_append_left _ hc)
    · exact hk
    · exact h.pos c (List.mem_append_right _ hc)
  · rcases List.mem_cons.1 hc with rfl | hc
    · exact size_setSize_self hk32
    · rw [size_setSize_of_apart (hbelow c (List.mem_append_right _ hc))]
      exact h.size_live c hc
  · refine Tiling.Apart.perm ?_ hperm.symm
    rw [Tiling.apart_cons, h.cover, hcells, Set.Ico_disjoint_Ico]
    exact ⟨by simp, h.apart⟩
  · rw [Tiling.cover_perm hperm, Tiling.cover_cons, h.cover, hcells, Set.union_comm,
      Set.Ico_union_Ico_eq_Ico h.lo_le (by omega)]
    rfl

/-- `morecore(nu)` keeps the heap. It asks `sbrk` for `nu` units, at least `4096`. When `sbrk`
fails, past `top`, it returns `0` and changes nothing. Otherwise the break moves up by that
many units, and `free` puts the new block at the end of the free list, joined to the last free
block when that one ended at the old break; `morecore` returns `freep`, with a free block of at
least `nu` units at `freep` or just after it. -/
theorem Heap.morecore_grows (h : Heap lo u fl live) (hf : u.freep ≠ 0) {nu : Nat}
    (hnu : (if nu < 4096 then 4096 else nu) * sizeofHeader < 2 ^ 31) :
    ∃ p u' fl', Heap lo u' fl' live ∧ u'.freep ≠ 0 ∧
      ((u.top < u.sz + (if nu < 4096 then 4096 else nu) * sizeofHeader ∧ p = 0 ∧ u' = u) ∨
        (u.sz + (if nu < 4096 then 4096 else nu) * sizeofHeader ≤ u.top ∧
          u'.sz = u.sz + (if nu < 4096 then 4096 else nu) * sizeofHeader ∧ p = u'.freep ∧
          ((nu ≤ u'.size (u'.ptr u'.freep) ∧ u'.ptr u'.freep ≠ u'.freep) ∨
            nu ≤ u'.size u'.freep) ∧
          ∃ I pw, u.headers fl = I ++ [pw] ∧
            (u.base, 0) :: fl' = I ++ joinPrev pw (u.sz, if nu < 4096 then 4096 else nu))) ∧
      ∀ fuel, fl.length < fuel → u.morecore nu fuel = some (p, u') := by
  obtain ⟨k, hk⟩ : ∃ k, (if nu < 4096 then 4096 else nu) = k := ⟨_, rfl⟩
  rw [hk] at hnu ⊢
  have hnuk : nu ≤ k := by
    rw [← hk]
    split <;> omega
  have hk0 : 0 < k := by
    rw [← hk]
    split <;> omega
  by_cases hroom : u.sz + k * sizeofHeader ≤ u.top
  · -- the new block, handed out to nobody, is freed like any other
    have hg := h.grow hf hk0 (by rw [Nat.mul_comm]; exact hroom)
    obtain ⟨I, pw, post, u', fl', hs, hrel, hh, -, hsz, hf', hfit, hrun, -⟩ :=
      hg.free_keeps hf List.mem_cons_self
    rw [List.erase_cons_head] at hh
    -- every free block lies below the old break: the new block goes last
    have hpost : post = [] := by
      cases post with
      | nil => rfl
      | cons c post =>
        have habove := hs.above c List.mem_cons_self
        have hc : c ∈ u.headers fl := by
          have heq : u.headers fl = I ++ pw :: c :: post := hs.eq
          rw [heq]
          simp
        have := h.header_below (List.mem_append_left live hc)
        dsimp only at habove
        unfold sizeofHeader at *
        omega
    subst hpost
    refine ⟨u'.freep, u', fl', hh, hf', .inr ⟨hroom, ?_, rfl, ?_, I, pw, hs.eq, ?_⟩,
      fun fuel hfuel => ?_⟩
    · rw [hsz, setSize_sz, Nat.mul_comm]
    · rcases hfit with ⟨hsize, hne⟩ | hsize
      · exact .inl ⟨hnuk.trans hsize, hne⟩
      · exact .inr (hnuk.trans hsize)
    · exact hrel.trans (by simp only [release, joinNext, List.append_nil])
    · have htop := h.top_lt
      have hsz : hdrAdd u.sz 1 = u.sz + sizeofHeader := by
        rw [hdrAdd_of_lt (by unfold sizeofHeader at *; omega), Nat.mul_one]
      rw [morecore_of_room hk hnu hroom, hsz, hrun fuel hfuel]
      rfl
  · -- `sbrk` fails
    exact ⟨0, u, fl, h, hf, .inl ⟨by omega, rfl, rfl⟩,
      fun fuel _ => morecore_of_no_room hk hnu (by omega)⟩

/-- `morecore(1)` on the heap `twoFree`: `sbrk` moves the break up `4096` units, and the new
block joins the free block at `48`, which ended at the old break. -/
theorem morecore_grows_twoFree :
    ∃ u', Heap 16 u' [(16, 2), (48, 4098)] [(32, 2)] ∧ u'.sz = 64 + 4096 * sizeofHeader ∧
      ∀ fuel, 2 < fuel → twoFree.morecore 1 fuel = some (u'.freep, u') := by
  obtain ⟨p, u', fl', hh, -, hcase, hrun⟩ := Heap.morecore_grows heap_twoFree (by decide)
    (show (if 1 < 4096 then 4096 else 1) * sizeofHeader < 2 ^ 31 by decide)
  rcases hcase with ⟨hno, -, -⟩ | ⟨-, hsz, rfl, -, I, pw, heq, hrel⟩
  · exact absurd hno (by decide)
  -- the last free block is the one at `48`
  obtain ⟨rfl, hpw⟩ := List.append_inj'
    ((show twoFree.headers [(16, 2), (48, 2)] = [(8, 0), (16, 2)] ++ [(48, 2)] from rfl).symm.trans
      heq) rfl
  obtain rfl : pw = (48, 2) := by simpa using hpw.symm
  obtain rfl : fl' = [(16, 2), (48, 4098)] := by
    simpa [joinPrev, sizeofHeader, show twoFree.sz = 64 from rfl,
      show twoFree.base = 8 from rfl] using hrel
  exact ⟨u', hh, hsz, hrun⟩

end Morecore

/-! ## `malloc` cutting a block -/

section Split

variable {lo : Nat} {u : Umem} {fl live : List (Nat × Nat)}

/-- The header `malloc` puts at the tail of a free block `c` it cuts lies in `c`, apart from
every other header. -/
theorem Heap.apart_tail (h : Heap lo u fl live) {c d : Nat × Nat} (hc : c ∈ fl ++ live) {n : Nat}
    (hn : 0 < n) (hlt : n < c.2) (hd : d ∈ u.headers fl ++ live) (hne : d.1 ≠ c.1) :
    Apart (c.1 + sizeofHeader * (c.2 - n)) d.1 := by
  simp only [headers, List.cons_append, List.mem_cons] at hd
  rcases hd with rfl | hd
  · have := h.base_le
    have := (h.bounds hc).1
    exact .inr (by dsimp only; unfold sizeofHeader at *; omega)
  · have hdis := h.disjoint hd hc (fun he => hne (by rw [he]))
    have := h.pos d hd
    unfold Apart sizeofHeader at *
    omega

/-- Every header on the list lies above address `0`. -/
theorem Heap.header_pos (h : Heap lo u fl live) {p : Nat} (hp : p ∈ (u.headers fl).map Prod.fst) :
    0 < p := by
  simp only [headers, List.map_cons, List.mem_cons, List.mem_map] at hp
  have := h.base_pos
  rcases hp with rfl | ⟨d, hd, rfl⟩
  · exact this
  · have := h.base_le
    have := (h.bounds (List.mem_append_left live hd)).1
    omega

/-- `malloc` cutting `n` units off the tail of the free block `c`: `c` keeps the head, the tail
is handed out, and `freep` moves to `prevp`, a header on the list. -/
theorem Heap.split (h : Heap lo u fl live) (hf : u.freep ≠ 0) {I post : List (Nat × Nat)}
    {c : Nat × Nat} (hfl : fl = I ++ c :: post) {n prevp : Nat} (hn : 0 < n) (hlt : n < c.2)
    (hprev : prevp ∈ (u.headers fl).map Prod.fst) :
    Heap lo
      (((u.setSize c.1 (c.2 - n)).setSize (c.1 + sizeofHeader * (c.2 - n)) n).setFreep prevp)
      (I ++ (c.1, c.2 - n) :: post) ((c.1 + sizeofHeader * (c.2 - n), n) :: live) := by
  have hc : c ∈ fl ++ live := by simp [hfl]
  have hend := h.end_lt (List.mem_cons_of_mem _ hc)
  have hcpos := h.pos c hc
  set q := c.1 + sizeofHeader * (c.2 - n) with hq
  set u' := ((u.setSize c.1 (c.2 - n)).setSize q n).setFreep prevp
  have hqc : Apart c.1 q := by
    unfold Apart sizeofHeader at *
    omega
  -- every other header keeps its fields
  have hframe : ∀ d ∈ u.headers fl ++ live, d.1 ≠ c.1 →
      u'.ptr d.1 = u.ptr d.1 ∧ u'.size d.1 = u.size d.1 := by
    intro d hd hne
    have hcd : Apart c.1 d.1 :=
      h.apart_of_ne (List.mem_cons_of_mem _ hc) hd (Ne.symm hne)
    have hqd := h.apart_tail hc hn hlt hd hne
    exact ⟨by rw [ptr_setFreep, ptr_setSize_of_apart hqd, ptr_setSize_of_apart hcd],
      by rw [size_setFreep, size_setSize_of_apart hqd, size_setSize_of_apart hcd]⟩
  have hptr_c : u'.ptr c.1 = u.ptr c.1 := by
    rw [ptr_setFreep, ptr_setSize_of_apart hqc.symm, ptr_setSize_self]
  have hsize_c : u'.size c.1 = c.2 - n := by
    rw [size_setFreep, size_setSize_of_apart hqc.symm,
      size_setSize_self (by unfold sizeofHeader at hend; omega)]
  have hsize_q : u'.size q = n := by
    rw [size_setFreep, size_setSize_self (by unfold sizeofHeader at hend; omega)]
  -- the other free blocks lie below or above `c`
  have hne_c : ∀ d ∈ I ++ post, d.1 ≠ c.1 := by
    have hs := h.sorted
    rw [hfl, List.pairwise_append, List.pairwise_cons] at hs
    intro d hd
    rcases List.mem_append.1 hd with hd | hd
    · exact (hs.2.2 d hd c List.mem_cons_self).ne
    · exact (hs.2.1.1 d hd).ne'
  have hfst : (I ++ (c.1, c.2 - n) :: post).map Prod.fst = fl.map Prod.fst := by
    simp [hfl]
  have hheaders : (u'.headers (I ++ (c.1, c.2 - n) :: post)).map Prod.fst =
      (u.headers fl).map Prod.fst := by
    simp only [headers, List.map_cons, hfst]
    rfl
  have hbc : u.base ≠ c.1 := by
    have := h.base_le
    have := (h.bounds hc).1
    unfold sizeofHeader at *
    omega
  -- the cells of `c` are those of its head and of its tail
  have hz : cells c = cells (c.1, c.2 - n) ∪ cells (q, n) := by
    simp only [cells]
    rw [Set.Ico_union_Ico_eq_Ico (by omega) (by omega)]
    congr 1
    rw [hq, Nat.add_assoc, ← Nat.mul_add, Nat.sub_add_cancel hlt.le]
  have hxy : Disjoint (cells (c.1, c.2 - n)) (cells (q, n)) :=
    (cells_disjoint_iff (by dsimp only; omega) hn).2 (.inl (by dsimp only; omega))
  have hperm : (I ++ (c.1, c.2 - n) :: (q, n) :: (post ++ live)).Perm
      ((I ++ (c.1, c.2 - n) :: post) ++ (q, n) :: live) := by
    rw [List.append_assoc, List.cons_append]
    exact .append_left I (.cons _ List.perm_middle.symm)
  have hsplit : fl ++ live = I ++ c :: (post ++ live) := by
    rw [hfl, List.append_assoc, List.cons_append]
  refine ⟨h.base_pos, h.base_le, h.lo_le, h.sz_le, h.top_lt,
    fun h0 => absurd h0 (h.header_pos hprev).ne', fun _ => ⟨?_, ?_, ?_⟩, ?_, ?_, ?_, ?_, ?_⟩
  · -- the links: every header keeps its `ptr`
    rw [hheaders]
    refine (h.ring hf).linked.congr fun y hy => ?_
    obtain ⟨d, hd, rfl⟩ := List.mem_map.1 hy
    by_cases hdc : d.1 = c.1
    · rw [hdc]
      exact hptr_c
    · exact (hframe d (List.mem_append_left _ hd) hdc).1
  · -- the sizes: `c`'s is cut, the others stay
    intro d hd
    rcases List.mem_cons.1 hd with rfl | hd
    · exact (hframe (u.base, 0) (by simp [headers]) hbc).2.trans
        ((h.ring hf).size_eq (u.base, 0) (by simp [headers]))
    rcases List.mem_append.1 hd with hd | hd
    · have hdI : d ∈ I ++ post := List.mem_append_left _ hd
      exact (hframe d (by simp [headers, hfl, hd]) (hne_c d hdI)).2.trans
        ((h.ring hf).size_eq d (by simp [headers, hfl, hd]))
    rcases List.mem_cons.1 hd with rfl | hd
    · exact hsize_c
    · have hdI : d ∈ I ++ post := List.mem_append_right _ hd
      exact (hframe d (by simp [headers, hfl, hd]) (hne_c d hdI)).2.trans
        ((h.ring hf).size_eq d (by simp [headers, hfl, hd]))
  · rw [hheaders]
    exact hprev
  · have hs : (fl.map Prod.fst).Pairwise (· < ·) := List.pairwise_map.2 h.sorted
    rw [← hfst] at hs
    exact List.pairwise_map.1 hs
  · intro d hd
    simp only [List.mem_append, List.mem_cons] at hd
    rcases hd with (hd | rfl | hd) | rfl | hd
    · exact h.pos d (by simp [hfl, hd])
    · dsimp only
      omega
    · exact h.pos d (by simp [hfl, hd])
    · exact hn
    · exact h.pos d (by simp [hd])
  · intro d hd
    rcases List.mem_cons.1 hd with rfl | hd
    · exact hsize_q
    · have hne := h.addr_ne (show c ∈ u.headers fl by simp [headers, hfl]) hd
      exact (hframe d (List.mem_append_right _ hd) (Ne.symm hne)).2.trans (h.size_live d hd)
  · have ha := h.apart
    rw [hsplit] at ha
    exact (ha.split_mid hz hxy).perm hperm
  · rw [← Tiling.cover_perm hperm, ← Tiling.cover_merge_mid hz, ← hsplit]
    exact h.cover

/-- The branch of `malloc`'s loop that finds a free block `c` larger than asked: it hands out
the tail of `c`, and the heap stays tiled. -/
theorem Heap.malloc_split (h : Heap lo u fl live) (hf : u.freep ≠ 0) {I post : List (Nat × Nat)}
    {c : Nat × Nat} (hfl : fl = I ++ c :: post) {n prevp : Nat} (hn : 0 < n) (hlt : n < c.2)
    (hprev : prevp ∈ (u.headers fl).map Prod.fst) (fuel : Nat) :
    ∃ u', u'.freep = prevp ∧ u.mallocLoop n (fuel + 1) prevp c.1 =
        some (c.1 + sizeofHeader * (c.2 - n) + sizeofHeader, u') ∧
      Heap lo u' (I ++ (c.1, c.2 - n) :: post) ((c.1 + sizeofHeader * (c.2 - n), n) :: live) := by
  have hmem : c ∈ u.headers fl := by simp [headers, hfl]
  have hsize : u.size c.1 = c.2 := (h.ring hf).size_eq c hmem
  have hend := h.end_lt (List.mem_append_left live hmem)
  have hq : hdrAdd c.1 (c.2 - n) = c.1 + sizeofHeader * (c.2 - n) :=
    hdrAdd_of_lt (by unfold sizeofHeader at *; omega)
  have hq1 : hdrAdd (c.1 + sizeofHeader * (c.2 - n)) 1 =
      c.1 + sizeofHeader * (c.2 - n) + sizeofHeader := by
    rw [hdrAdd_of_lt (by unfold sizeofHeader at *; omega), Nat.mul_one]
  refine ⟨_, ?_, ?_, h.split hf hfl hn hlt hprev⟩
  · rfl
  rw [mallocLoop_split (by rw [hsize]; exact hlt), hsize, hq, hq1]

end Split

/-! ## `malloc` taking a block whole -/

section Unlink

variable {lo : Nat} {u : Umem} {fl live : List (Nat × Nat)}

/-- The header before a free block, the last of `base` and the blocks below it, is on the
list. -/
theorem prev_mem_headers {I post : List (Nat × Nat)} {c : Nat × Nat} (hfl : fl = I ++ c :: post)
    {prevp : Nat} (hprev : (u.base :: I.map Prod.fst).getLast? = some prevp) :
    prevp ∈ (u.headers fl).map Prod.fst := by
  have hpI := List.mem_of_getLast? hprev
  simp only [headers, hfl, List.map_cons, List.map_append, List.mem_cons,
    List.mem_append] at hpI ⊢
  rcases hpI with hp | hp
  · exact .inl hp
  · exact .inr (.inl hp)

/-- `malloc` handing out a free block `c` whole: the header before it, `prevp`, links past it,
and `freep` moves to `prevp`. -/
theorem Heap.unlink (h : Heap lo u fl live) (hf : u.freep ≠ 0) {I post : List (Nat × Nat)}
    {c : Nat × Nat} (hfl : fl = I ++ c :: post) {prevp : Nat}
    (hprev : (u.base :: I.map Prod.fst).getLast? = some prevp) :
    Heap lo ((u.setPtr prevp (u.ptr c.1)).setFreep prevp) (I ++ post) (c :: live) := by
  set u' := (u.setPtr prevp (u.ptr c.1)).setFreep prevp
  have hH : (u.headers fl).map Prod.fst =
      (u.base :: I.map Prod.fst) ++ c.1 :: post.map Prod.fst := by
    simp [headers, hfl]
  have hH' : (u'.headers (I ++ post)).map Prod.fst =
      (u.base :: I.map Prod.fst) ++ post.map Prod.fst := by
    change ((u.base, 0) :: (I ++ post)).map Prod.fst = _
    simp
  have hpI := List.mem_of_getLast? hprev
  have hpmem := prev_mem_headers hfl hprev
  have hcH : c ∈ u.headers fl := by simp [headers, hfl]
  -- the headers before `c` lie below it and those after it above
  have hsorted := h.headers_sorted
  rw [hH, List.pairwise_append] at hsorted
  have hnd : (u.base :: I.map Prod.fst).Nodup := hsorted.1.imp ne_of_lt
  have hzl : prevp ∉ post.map Prod.fst := fun hx =>
    lt_irrefl _ (hsorted.2.2 prevp hpI prevp (List.mem_cons_of_mem _ hx))
  -- every header other than `prevp` keeps its fields, and all keep their sizes
  have hframe : ∀ d ∈ u.headers fl ++ live, d.1 ≠ prevp →
      u'.ptr d.1 = u.ptr d.1 ∧ u'.size d.1 = u.size d.1 := by
    intro d hd hne
    obtain ⟨e, he, hep⟩ := List.mem_map.1 hpmem
    have hap := h.apart_of_ne (List.mem_append_left _ he) hd (by rw [hep]; exact Ne.symm hne)
    rw [hep] at hap
    exact ⟨by rw [ptr_setFreep, ptr_setPtr_of_apart hap],
      by rw [size_setFreep, size_setPtr_of_apart hap]⟩
  have hsize : ∀ d ∈ u.headers fl ++ live, u'.size d.1 = u.size d.1 := by
    intro d hd
    by_cases hne : d.1 = prevp
    · rw [hne, size_setFreep, size_setPtr_self]
    · exact (hframe d hd hne).2
  have hperm : ((I ++ post) ++ c :: live).Perm (fl ++ live) := by
    rw [hfl, List.append_assoc, List.append_assoc, List.cons_append]
    exact .append_left I List.perm_middle
  refine ⟨h.base_pos, h.base_le, h.lo_le, h.sz_le, h.top_lt,
    fun h0 => absurd h0 (h.header_pos hpmem).ne', fun _ => ⟨?_, ?_, ?_⟩,
    h.sorted.sublist (hfl ▸ (List.Sublist.refl I).append (List.sublist_cons_self c post)),
    fun d hd => h.pos d (hperm.subset hd), ?_,
    h.apart.perm hperm.symm, (Tiling.cover_perm hperm).trans h.cover⟩
  · -- the links: `prevp` now links past `c`
    have hl := (h.ring hf).linked
    rw [hH] at hl
    rw [hH']
    refine hl.bypass hnd hprev hzl (fun x hx hne => ?_)
      (by rw [ptr_setFreep, ptr_setPtr_self (ptr_lt _ _)])
    have hx' : x ∈ (u.headers fl).map Prod.fst := by
      rw [hH]
      rcases List.mem_append.1 hx with hx | hx
      · exact List.mem_append_left _ hx
      · exact List.mem_append_right _ (List.mem_cons_of_mem _ hx)
    obtain ⟨d, hd, rfl⟩ := List.mem_map.1 hx'
    exact (hframe d (List.mem_append_left _ hd) hne).1
  · intro d hd
    have hd' : d ∈ u.headers fl := by
      change d ∈ (u.base, 0) :: (I ++ post) at hd
      simp only [headers, hfl, List.mem_cons, List.mem_append] at hd ⊢
      rcases hd with hd | hd | hd
      · exact .inl hd
      · exact .inr (.inl hd)
      · exact .inr (.inr (.inr hd))
    exact (hsize d (List.mem_append_left _ hd')).trans ((h.ring hf).size_eq d hd')
  · rw [hH']
    exact List.mem_append_left _ hpI
  · intro d hd
    rcases List.mem_cons.1 hd with rfl | hd
    · exact (hsize d (List.mem_append_left _ hcH)).trans ((h.ring hf).size_eq d hcH)
    · exact (hsize d (List.mem_append_right _ hd)).trans (h.size_live d hd)

/-- The branch of `malloc`'s loop that finds a free block `c` of exactly the size asked: it hands
out `c` whole, and the heap stays tiled. -/
theorem Heap.malloc_exact (h : Heap lo u fl live) (hf : u.freep ≠ 0) {I post : List (Nat × Nat)}
    {c : Nat × Nat} (hfl : fl = I ++ c :: post) {prevp : Nat}
    (hprev : (u.base :: I.map Prod.fst).getLast? = some prevp) (fuel : Nat) :
    ∃ u', u'.freep = prevp ∧ u.mallocLoop c.2 (fuel + 1) prevp c.1 =
        some (c.1 + sizeofHeader, u') ∧ Heap lo u' (I ++ post) (c :: live) := by
  have hmem : c ∈ u.headers fl := by simp [headers, hfl]
  have hsize : u.size c.1 = c.2 := (h.ring hf).size_eq c hmem
  have hend := h.end_lt (List.mem_append_left live hmem)
  have hpos := h.pos c (by simp [hfl])
  refine ⟨_, ?_, ?_, h.unlink hf hfl hprev⟩
  · rfl
  rw [mallocLoop, if_pos hsize.ge, if_pos hsize,
    hdrAdd_of_lt (by unfold sizeofHeader at *; omega), Nat.mul_one]

end Unlink

section Fit

variable {lo : Nat} {u : Umem} {fl live : List (Nat × Nat)}

/-- `malloc`'s loop at a free block `c` of at least the `n` units asked, `prevp` the header
before it: it hands out a block of exactly `n` units, returns the address after that block's
header and moves `freep` to `prevp`. When `c` has `n` units it hands out `c` whole and unlinks
it; otherwise it hands out the tail of `c`, and the head of `c` stays free in its place. The heap
stays tiled, the new block among those handed out. -/
theorem Heap.malloc_fit (h : Heap lo u fl live) (hf : u.freep ≠ 0) {I post : List (Nat × Nat)}
    {c : Nat × Nat} (hfl : fl = I ++ c :: post) {prevp : Nat}
    (hprev : (u.base :: I.map Prod.fst).getLast? = some prevp) {n : Nat} (hn : 0 < n)
    (hle : n ≤ c.2) (fuel : Nat) :
    ∃ u', u'.freep = prevp ∧
      ((n = c.2 ∧ u.mallocLoop n (fuel + 1) prevp c.1 = some (c.1 + sizeofHeader, u') ∧
          Heap lo u' (I ++ post) (c :: live)) ∨
        (n < c.2 ∧ u.mallocLoop n (fuel + 1) prevp c.1 =
            some (c.1 + sizeofHeader * (c.2 - n) + sizeofHeader, u') ∧
          Heap lo u' (I ++ (c.1, c.2 - n) :: post)
            ((c.1 + sizeofHeader * (c.2 - n), n) :: live))) := by
  rcases hle.lt_or_eq with hlt | rfl
  · -- the tail of `c` is handed out, its head stays free
    obtain ⟨u', hfp, hrun, hh⟩ := h.malloc_split hf hfl hn hlt (prev_mem_headers hfl hprev) fuel
    exact ⟨u', hfp, .inr ⟨hlt, hrun, hh⟩⟩
  · -- `c` is handed out whole
    obtain ⟨u', hfp, hrun, hh⟩ := h.malloc_exact hf hfl hprev fuel
    exact ⟨u', hfp, .inl ⟨rfl, hrun, hh⟩⟩

/-- `malloc`'s loop asking for one unit at the free block at `48` of `twoFree`: it cuts off the
block's last unit and hands it out, and `freep` moves to the free block at `16` before it. -/
theorem malloc_fit_twoFree :
    ∃ u', u'.freep = 16 ∧ twoFree.mallocLoop 1 1 16 48 = some (64, u') ∧
      Heap 16 u' [(16, 2), (48, 1)] [(56, 1), (32, 2)] := by
  obtain ⟨u', hfp, hcase⟩ := Heap.malloc_fit heap_twoFree (by decide)
    (show [(16, 2), (48, 2)] = [(16, 2)] ++ (48, 2) :: [] from rfl)
    (show (twoFree.base :: [(16, 2)].map Prod.fst).getLast? = some 16 from rfl) (n := 1)
    (by decide) (by decide) 0
  rcases hcase with ⟨hn, -, -⟩ | ⟨-, hrun, hh⟩
  · exact absurd hn (by decide)
  · exact ⟨u', hfp, hrun, hh⟩

end Fit

end Umem

end Xv6
