import Xv6.Vm.Kalloc
import Xv6.Lib.Chain
import Xv6.Lib.Except

/-!
# The page allocator over whole runs

`kinit1` and `kinit2` hand the physical pages to the allocator through `freerange`; around and
after them any interleaving of `kalloc`, `kfree` and the clients' own stores follows. The
clients keep to the allocator's contract: they free only pages they got, and store only outside
the free pages. `KSys.held` records the pages they hold, which the code does not.

In every state such a run reaches (`KSys.Inv`, `KSys.inv_of_reachable`) no page is free twice
or both free and held, every page passed `kfree`'s checks, and the list `kfree` threads
through the free pages, each one's first word the address of the next and the last one's `0`,
is `kmem.freelist`. So the walk of the links from the head finds the free list, the `kalloc` of
the source, which reads `r->next`, takes what the list model takes, `kalloc` never returns a
page a client holds, and a client's `kfree` never panics (`kalloc_safe`).
-/

namespace Xv6

namespace Kmem

/-- The loop of `freerange` from the page `p`:
`for(; p + PGSIZE <= (char*)vend; p += PGSIZE) kfree(p);` -/
def freerangeFrom (k : Kmem) (p vend : Nat) : Except String Kmem :=
  if p + PGSIZE ≤ vend then
    match k.kfree p with
    | .error e => .error e
    | .ok k => freerangeFrom k (p + PGSIZE) vend
  else .ok k
termination_by vend - p
decreasing_by
  unfold PGSIZE at *
  omega

/-- `freerange(vstart, vend)`: every whole page from `PGROUNDUP(vstart)` up to `vend`. -/
def freerange (k : Kmem) (vstart vend : Nat) : Except String Kmem :=
  k.freerangeFrom (PGROUNDUP vstart) vend

/-- `kalloc` as the source runs it on memory, with `head` the pointer `kmem.freelist`:
`r = kmem.freelist; if(r) kmem.freelist = r->next;`. It gives `r` and the new head. -/
def kallocAt (k : Kmem) (head : Nat) : Nat × Nat :=
  if head ≠ 0 then (head, k.load head) else (head, head)

end Kmem

/-- The physical address `a` lies in the page at kernel address `v`. -/
def InPage (v a : Nat) : Prop := v2p v ≤ a ∧ a < v2p v + PGSIZE

instance (v a : Nat) : Decidable (InPage v a) := inferInstanceAs (Decidable (_ ∧ _))

/-- The allocator and its clients: `kmem`, `kmem.use_lock`, which `kinit2` sets, and the pages
the clients hold. -/
structure KSys where
  kmem : Kmem
  useLock : Bool
  held : List Nat

/-- One call of the allocator, or one store of a client between the calls. -/
inductive KAct where
  | kalloc
  | kfree (v : Nat)
  /-- A client stores the byte `b` at the physical address `a`. -/
  | store (a : Nat) (b : UInt8)
  | kinit2
  deriving DecidableEq, Repr

namespace KSys

/-- One step, `none` when the clients' contract does not allow it. -/
def step (s : KSys) : KAct → Option (Except String KSys)
  | .kalloc =>
    match s.kmem.kalloc with
    | (some r, k) => some (.ok { s with kmem := k, held := r :: s.held })
    | (none, k) => some (.ok { s with kmem := k })
  | .kfree v =>
    if v ∈ s.held then
      some ((s.kmem.kfree v).map fun k => { s with kmem := k, held := s.held.erase v })
    else none
  | .store a b =>
    if ∀ f ∈ s.kmem.freelist, ¬InPage f a then
      some (.ok { s with kmem := { s.kmem with mem := Function.update s.kmem.mem a b } })
    else none
  | .kinit2 =>
    -- `kinit2(P2V(4*1024*1024), P2V(PHYSTOP))`, once
    if s.useLock = false then
      some ((s.kmem.freerange (p2v 0x400000) (p2v PHYSTOP)).map fun k =>
        { s with kmem := k, useLock := true })
    else none

/-- `kinit1(end, P2V(4*1024*1024))`, on `kmem` as the loader leaves it: the list empty. -/
def kinit1 (k : Kmem) : Except String KSys :=
  (({ k with freelist := [] } : Kmem).freerange k.kend (p2v 0x400000)).map fun k => ⟨k, false, []⟩

end KSys

/-- The states of the allocator from `kinit1` on. -/
inductive KReachable : KSys → Prop
  | boot {k : Kmem} {s : KSys} : KSys.kinit1 k = .ok s → KReachable s
  | step {s s' : KSys} (a : KAct) : KReachable s → s.step a = some (.ok s') → KReachable s'

/-! ## Pages -/

/-- A page `kfree` accepts, at a kernel address below `2^32`. -/
def Page (k : Kmem) (v : Nat) : Prop :=
  v % PGSIZE = 0 ∧ k.kend ≤ v ∧ v2p v < PHYSTOP ∧ v < 2 ^ 32

section Page

variable {k : Kmem} {v w : Nat}

/-- A page is mapped at `KERNBASE` or above, so `V2P` subtracts `KERNBASE`. -/
theorem Page.v2p_eq (h : Page k v) : v2p v = v - KERNBASE ∧ KERNBASE ≤ v := by
  obtain ⟨-, -, hp, hv⟩ := h
  unfold v2p at hp ⊢
  unfold PHYSTOP at hp
  unfold KERNBASE at *
  omega

theorem Page.ne_zero (h : Page k v) : v ≠ 0 := by
  have := h.v2p_eq.2
  unfold KERNBASE at this
  omega

/-- Two pages are the same page or lie apart in physical memory. -/
theorem Page.apart (hv : Page k v) (hw : Page k w) (hne : v ≠ w) :
    v2p v + PGSIZE ≤ v2p w ∨ v2p w + PGSIZE ≤ v2p v := by
  rw [hv.v2p_eq.1, hw.v2p_eq.1]
  have := hv.v2p_eq.2
  have := hw.v2p_eq.2
  obtain ⟨hva, -⟩ := hv
  obtain ⟨hwa, -⟩ := hw
  unfold PGSIZE at *
  omega

theorem page_congr {k' : Kmem} (h : k'.kend = k.kend) : Page k' v ↔ Page k v := by
  rw [Page, Page, h]

end Page

/-! ## The pool of pages -/

/-- The allocator's pages: free or held, each once, each one `kfree` accepts, and the free ones
linked through their first words in the order of the list. -/
structure Pool (k : Kmem) (held : List Nat) : Prop where
  page : ∀ v ∈ k.freelist ++ held, Page k v
  nodup : (k.freelist ++ held).Nodup
  linked : Chain.Linked k.load 0 k.freelist

namespace Pool

variable {k k' : Kmem} {held : List Nat}

theorem perm {held' : List Nat} (h : Pool k held) (hp : held.Perm held') : Pool k held' where
  page v hv := h.page v ((List.Perm.append_left _ hp).mem_iff.2 hv)
  nodup := (List.Perm.append_left _ hp).nodup_iff.1 h.nodup
  linked := h.linked

/-- A page that is neither free nor held joins the held ones. -/
theorem add {v : Nat} (h : Pool k held) (hv : Page k v) (hfresh : v ∉ k.freelist ++ held) :
    Pool k (v :: held) := by
  have hp : (v :: (k.freelist ++ held)).Perm (k.freelist ++ v :: held) := List.perm_middle.symm
  refine ⟨fun w hw => ?_, hp.nodup_iff.1 (List.nodup_cons.2 ⟨hfresh, h.nodup⟩), h.linked⟩
  rcases List.mem_cons.1 (hp.mem_iff.2 hw) with rfl | hw
  · exact hv
  · exact h.page w hw

/-- `kalloc` moves the head of the list to the held pages. -/
theorem kalloc {r : Nat} (h : Pool k held) (hk : k.kalloc = (some r, k')) : Pool k' (r :: held) := by
  obtain ⟨hfl, hmem, hkend⟩ := Kmem.kalloc_some hk
  have hload : k'.load = k.load := by
    funext a
    rw [Kmem.load, Kmem.load, hmem]
  have hp : (k.freelist ++ held).Perm (k'.freelist ++ r :: held) := by
    rw [hfl]
    exact List.perm_middle.symm
  refine ⟨fun v hv => (page_congr hkend).2 (h.page v (hp.mem_iff.2 hv)), hp.nodup_iff.1 h.nodup, ?_⟩
  have hl := h.linked
  rw [hfl, Chain.linked_cons] at hl
  rw [hload]
  exact hl.2

/-- What `kfree` leaves when it does not panic: the page full of junk but for its first word,
which links it to the old head. -/
theorem kfree_eq_ok {v : Nat} (hk : k.kfree v = .ok k') :
    k'.mem = (k.mem.fill (v2p v) PGSIZE 1).store32 (v2p v) (k.freelist.headD 0) ∧
      k'.freelist = v :: k.freelist ∧ k'.kend = k.kend := by
  -- the fields of `k` are taken apart first, so that each side reduces to them
  obtain ⟨mem, fl, kend, data⟩ := k
  unfold Kmem.kfree at hk
  split at hk
  · cases hk
  · cases hk
    simp only [Kmem.memset, Kmem.store, and_self]

/-- `kfree` of a held page puts it at the head of the list. -/
theorem kfree {v : Nat} (h : Pool k (v :: held)) (hk : k.kfree v = .ok k') : Pool k' held := by
  obtain ⟨hmem, hfl, hkend⟩ := kfree_eq_ok hk
  have hp : (k'.freelist ++ held).Perm (k.freelist ++ v :: held) := by
    rw [hfl]
    exact List.perm_middle.symm
  have hpage : ∀ w ∈ k'.freelist ++ held, Page k' w := fun w hw =>
    (page_congr hkend).2 (h.page w (hp.mem_iff.1 hw))
  have hnodup := hp.nodup_iff.2 h.nodup
  have hv : Page k v := h.page v (List.mem_append_right _ List.mem_cons_self)
  refine ⟨hpage, hnodup, ?_⟩
  rw [hfl, Chain.linked_cons]
  constructor
  · -- the new head's first word is the old head, a page address or `0`
    have hhead : k.freelist.headD 0 < 2 ^ 32 := by
      cases hl : k.freelist with
      | nil => simp
      | cons f _ =>
        exact (h.page f (List.mem_append_left _ (by simp [hl]))).2.2.2
    rw [Kmem.load, hmem, Block.load32_store32_self _ _ hhead]
  · -- the other free pages lie apart from the page written
    refine h.linked.congr fun f hf => ?_
    have hfv : f ≠ v := by
      rintro rfl
      rw [hfl] at hnodup
      exact (List.nodup_cons.1 hnodup).1 (List.mem_append_left _ hf)
    have hap := (h.page f (List.mem_append_left _ hf)).apart hv hfv
    unfold PGSIZE at hap
    rw [Kmem.load, Kmem.load, hmem, Block.load32_store32_of_disjoint _ _ (by omega),
      Block.load32_fill_of_disjoint _ _ (by unfold PGSIZE; omega)]

/-- A store outside the free pages leaves the links. -/
theorem store {a : Nat} {b : UInt8} (h : Pool k held) (ha : ∀ f ∈ k.freelist, ¬InPage f a) :
    Pool { k with mem := Function.update k.mem a b } held where
  page := h.page
  nodup := h.nodup
  linked := h.linked.congr fun f hf => by
    refine Block.load32_congr fun j hj hj' => Function.update_of_ne ?_ _ _
    rintro rfl
    exact ha f hf ⟨hj, by unfold PGSIZE; omega⟩

/-- `freerange` from `p` frees the pages from `p` on, all above the pages the allocator had. -/
theorem freerangeFrom {p vend : Nat} (h : Pool k held)
    (hbelow : ∀ v ∈ k.freelist ++ held, v + PGSIZE ≤ p) (hvend : vend < 2 ^ 32)
    (hr : k.freerangeFrom p vend = .ok k') :
    Pool k' held ∧ k'.kend = k.kend ∧
      ∀ v ∈ k'.freelist ++ held, v ∈ k.freelist ++ held ∨ v + PGSIZE ≤ vend := by
  induction k, p using Kmem.freerangeFrom.induct vend with
  | case1 k p hp e hk =>
    rw [Kmem.freerangeFrom, if_pos hp, hk] at hr
    cases hr
  | case2 k p hp k₁ hk ih =>
    rw [Kmem.freerangeFrom, if_pos hp, hk] at hr
    -- `p` passed `kfree`'s checks, and lies above every page the allocator has
    have hpage : Page k p := by
      unfold Kmem.kfree at hk
      split at hk
      · cases hk
      · refine ⟨by omega, by omega, by omega, by unfold PGSIZE at hp; omega⟩
    have hfresh : p ∉ k.freelist ++ held := fun hm => by
      have := hbelow p hm
      unfold PGSIZE at this
      omega
    obtain ⟨-, hfl, hkend⟩ := kfree_eq_ok hk
    have h₁ := (h.add hpage hfresh).kfree hk
    obtain ⟨h', hkend', hnew⟩ := ih h₁ (fun v hv => by
      rw [hfl] at hv
      rcases List.mem_cons.1 hv with rfl | hv
      · exact le_rfl
      · exact (hbelow v hv).trans (Nat.le_add_right _ _)) hr
    refine ⟨h', hkend'.trans hkend, fun v hv => ?_⟩
    rcases hnew v hv with hv | hv
    · rw [hfl] at hv
      rcases List.mem_cons.1 hv with rfl | hv
      · exact .inr hp
      · exact .inl hv
    · exact .inr hv
  | case3 k p hp =>
    rw [Kmem.freerangeFrom, if_neg hp] at hr
    cases hr
    exact ⟨h, rfl, fun v hv => .inl hv⟩

/-- The code's `kalloc`, reading the link in the page, takes what the list model takes. -/
theorem kallocAt_eq (h : Pool k held) :
    k.kallocAt (k.freelist.headD 0) = ((k.kalloc.1).getD 0, (k.kalloc.2).freelist.headD 0) := by
  have hl := h.linked
  unfold Kmem.kallocAt Kmem.kalloc
  cases hf : k.freelist with
  | nil => simp [hf]
  | cons r rest =>
    rw [hf, Chain.linked_cons] at hl
    have hr : r ≠ 0 := (h.page r (by simp [hf])).ne_zero
    simp only [List.headD_cons, ne_eq, hr, not_false_eq_true, if_true, Option.getD_some]
    rw [hl.1]

end Pool

/-! ## Runs -/

namespace KSys

variable {s s' : KSys}

/-- What every reachable state keeps: the pool, and before `kinit2` every page below
`P2V(4MB)`, where `kinit2` starts. -/
structure Inv (s : KSys) : Prop where
  pool : Pool s.kmem s.held
  low : s.useLock = false → ∀ v ∈ s.kmem.freelist ++ s.held, v + PGSIZE ≤ p2v 0x400000

theorem inv_kinit1 {k : Kmem} (h : kinit1 k = .ok s) : s.Inv := by
  obtain ⟨k', hr, rfl⟩ := Except.map_eq_ok_iff.1 h
  have hempty : Pool ({ k with freelist := [] } : Kmem) [] :=
    ⟨fun _ hv => by simp at hv, List.nodup_nil, trivial⟩
  obtain ⟨hp, -, hnew⟩ := hempty.freerangeFrom (fun _ hv => by simp at hv) (by decide) hr
  refine ⟨hp, fun _ v hv => ?_⟩
  rcases hnew v hv with hv | hv
  · simp at hv
  · exact hv

theorem Inv.step {a : KAct} (h : s.Inv) (hs : s.step a = some (.ok s')) : s'.Inv := by
  cases a with
  | kalloc =>
    rw [KSys.step] at hs
    split at hs
    · rename_i r k hk
      cases hs
      refine ⟨h.pool.kalloc hk, fun hl v hv => h.low hl v ?_⟩
      obtain ⟨hfl, -⟩ := Kmem.kalloc_some hk
      rw [hfl]
      simpa [or_comm, or_left_comm] using hv
    · rename_i k hk
      cases hs
      obtain ⟨-, rfl⟩ := Kmem.kalloc_none hk
      exact h
  | kfree v =>
    rw [KSys.step] at hs
    split_ifs at hs with hv
    obtain ⟨k, hk, rfl⟩ := Except.map_eq_ok_iff.1 (Option.some.inj hs)
    have hperm := List.perm_cons_erase hv
    refine ⟨(h.pool.perm hperm).kfree hk, fun hl w hw => h.low hl w ?_⟩
    obtain ⟨-, hfl, -⟩ := Pool.kfree_eq_ok hk
    rw [hfl] at hw
    rw [(List.Perm.append_left _ hperm).mem_iff]
    simp only [List.cons_append, List.mem_cons, List.mem_append] at hw ⊢
    rcases hw with rfl | hw | hw
    · exact .inr (.inl rfl)
    · exact .inl hw
    · exact .inr (.inr hw)
  | store a b =>
    rw [KSys.step] at hs
    split_ifs at hs with ha
    cases hs
    exact ⟨h.pool.store ha, h.low⟩
  | kinit2 =>
    rw [KSys.step] at hs
    split_ifs at hs with hl
    obtain ⟨k, hk, rfl⟩ := Except.map_eq_ok_iff.1 (Option.some.inj hs)
    have hup : PGROUNDUP (p2v 0x400000) = p2v 0x400000 := by decide
    rw [Kmem.freerange, hup] at hk
    exact ⟨(h.pool.freerangeFrom (h.low hl) (by decide) hk).1, fun hl' => absurd hl' (by simp)⟩

theorem inv_of_reachable (h : KReachable s) : s.Inv := by
  induction h with
  | boot hk => exact inv_kinit1 hk
  | step a _ hs ih => exact ih.step hs

/-- The allocator over every run whose clients keep to its contract: no page is free twice or
both free and held, every page passed `kfree`'s checks, the links in the pages walked from
the head are the free list, the `kalloc` of the source takes what the model takes, `kalloc`
never hands out a held page, and the `kfree` of a held page never panics. -/
theorem kalloc_safe (h : KReachable s) :
    (s.kmem.freelist ++ s.held).Nodup ∧
    (∀ v ∈ s.kmem.freelist ++ s.held, v % PGSIZE = 0 ∧ s.kmem.kend ≤ v ∧ v2p v < PHYSTOP) ∧
    Chain.walk s.kmem.load 0 (s.kmem.freelist.headD 0) s.kmem.freelist.length =
      s.kmem.freelist ∧
    s.kmem.kallocAt (s.kmem.freelist.headD 0) =
      ((s.kmem.kalloc.1).getD 0, (s.kmem.kalloc.2).freelist.headD 0) ∧
    (∀ r, s.kmem.kalloc.1 = some r → r ∉ s.held) ∧
    ∀ v ∈ s.held, ∃ s', s.step (.kfree v) = some (.ok s') := by
  have hp := (inv_of_reachable h).pool
  refine ⟨hp.nodup, fun v hv => ?_, ?_, hp.kallocAt_eq, fun r hr => ?_, fun v hv => ?_⟩
  · obtain ⟨h₁, h₂, h₃, -⟩ := hp.page v hv
    exact ⟨h₁, h₂, h₃⟩
  · exact Chain.walk_of_linked hp.linked
      (fun h0 => (hp.page 0 (List.mem_append_left _ h0)).ne_zero rfl) le_rfl
  · -- the page `kalloc` takes is the head of the free list
    cases hf : s.kmem.freelist with
    | nil => simp [Kmem.kalloc, hf] at hr
    | cons f rest =>
      simp only [Kmem.kalloc, hf, Option.some.injEq] at hr
      subst hr
      have hn := hp.nodup
      rw [hf, List.cons_append, List.nodup_cons] at hn
      exact fun hm => hn.1 (List.mem_append_right _ hm)
  · obtain ⟨h₁, h₂, h₃, -⟩ := hp.page v (List.mem_append_right _ hv)
    obtain ⟨k, hk⟩ := Kmem.kfree_valid ⟨h₁, h₂, h₃⟩
    exact ⟨_, by rw [KSys.step, if_pos hv, hk]; rfl⟩

/-- A kernel whose image ends two pages below `P2V(4MB)`: `kinit1` frees those two pages, a
client takes one with `kalloc` and stores a byte in it. -/
theorem kalloc_safe_alloc_store :
    ∃ s, KReachable s ∧ s.held = [p2v 0x3FF000] ∧ s.kmem.freelist = [p2v 0x3FE000] ∧
      ((s.kmem.freelist ++ s.held).Nodup ∧
      (∀ v ∈ s.kmem.freelist ++ s.held, v % PGSIZE = 0 ∧ s.kmem.kend ≤ v ∧ v2p v < PHYSTOP) ∧
      Chain.walk s.kmem.load 0 (s.kmem.freelist.headD 0) s.kmem.freelist.length =
        s.kmem.freelist ∧
      s.kmem.kallocAt (s.kmem.freelist.headD 0) =
        ((s.kmem.kalloc.1).getD 0, (s.kmem.kalloc.2).freelist.headD 0) ∧
      (∀ r, s.kmem.kalloc.1 = some r → r ∉ s.held) ∧
      ∀ v ∈ s.held, ∃ s', s.step (.kfree v) = some (.ok s')) := by
  have hup : PGROUNDUP (p2v 0x3FE000) = p2v 0x3FE000 := by decide
  -- `kinit1` frees the two pages, the lower first
  obtain ⟨k₁, hk₁⟩ : ∃ k, ({ (⟨fun _ => 0, [], p2v 0x3FE000, 0⟩ : Kmem) with freelist := [] }).kfree
      (p2v 0x3FE000) = .ok k := Kmem.kfree_valid ⟨by decide, by decide, by decide⟩
  have h₁ := Kmem.kfree_ok hk₁
  obtain ⟨k₂, hk₂⟩ : ∃ k, k₁.kfree (p2v 0x3FE000 + PGSIZE) = .ok k :=
    Kmem.kfree_valid ⟨by decide, by rw [h₁.2]; decide, by decide⟩
  have h₂ := Kmem.kfree_ok hk₂
  have hboot : KSys.kinit1 ⟨fun _ => 0, [], p2v 0x3FE000, 0⟩ = .ok ⟨k₂, false, []⟩ := by
    rw [KSys.kinit1, Kmem.freerange, hup, Kmem.freerangeFrom.eq_1, if_pos (by decide), hk₁]
    dsimp only
    rw [Kmem.freerangeFrom.eq_1, if_pos (by decide), hk₂]
    dsimp only
    rw [Kmem.freerangeFrom.eq_1, if_neg (by decide)]
    rfl
  have hfl : k₂.freelist = [p2v 0x3FF000, p2v 0x3FE000] := by
    rw [h₂.1, h₁.1]
    rfl
  -- a client takes the page at the head, then writes into it
  have halloc : (⟨k₂, false, []⟩ : KSys).step .kalloc =
      some (.ok ⟨⟨k₂.mem, [p2v 0x3FE000], k₂.kend, k₂.data⟩, false, [p2v 0x3FF000]⟩) := by
    simp only [KSys.step, Kmem.kalloc, hfl]
  have hstore : (⟨⟨k₂.mem, [p2v 0x3FE000], k₂.kend, k₂.data⟩, false, [p2v 0x3FF000]⟩ : KSys).step
      (.store 0x3FF000 42) = some (.ok ⟨⟨Function.update k₂.mem 0x3FF000 42, [p2v 0x3FE000],
        k₂.kend, k₂.data⟩, false, [p2v 0x3FF000]⟩) := by
    rw [KSys.step, if_pos (show ∀ f ∈ [p2v 0x3FE000], ¬InPage f 0x3FF000 by decide)]
  have hr : KReachable _ := .step _ (.step _ (.boot hboot) halloc) hstore
  exact ⟨_, hr, rfl, rfl, kalloc_safe hr⟩

end KSys

end Xv6
