import Xv6.Vm.Uvm

/-!
# `mappages`: what a page table maps

A page directory and its page tables are words in physical memory; what they mean is a map from
virtual pages to entries. `Kmem.entry k pgdir va` is that map: the entry of the page table for
`va`, or `0` where the directory has none. `translate` of `Uvm.lean` is read off it
(`translate_eq_entry`).

The map is only a function of the memory when the page tables do not overlap one another, the
directory or a free page: `PageDir` is that, the shape every directory built by `setupkvm` and
grown by `walkpgdir` has. Over it, a write to a page-table entry is the update of the map at one
page (`entry_store_self`, `entry_store_of_not_samePage`), and the page table `walkpgdir` adds
changes the map nowhere (`entry_addTable`): it only takes its page off the free list (`Grows`).

`mappages` loops until its counter reaches the last page, `last = PGROUNDDOWN(va + size - 1)`,
not while it is below an end. With `va + size - 1` below `2 ^ 32` the counter meets `last`
after one round per page, also for the `DEVSPACE` entry of `kmap`, whose size `0 - DEVSPACE`
wraps and whose last page is the top of the address space: the `k`-th page gets the entry
`(pa + k * PGSIZE) | perm | PTE_P`, and nothing else changes (`mappages_exact`).
-/

namespace Xv6

namespace Block

/-- A store followed by a load of the same word gives the value as a `uint`. -/
theorem load32_store32_mod (m : Block) (a v : Nat) : (m.store32 a v).load32 a = v % 2 ^ 32 := by
  simp only [load32, store32, if_pos, show a + 1 ≠ a by omega, show a + 2 ≠ a by omega,
    show a + 2 ≠ a + 1 by omega, show a + 3 ≠ a by omega, show a + 3 ≠ a + 1 by omega,
    show a + 3 ≠ a + 2 by omega, if_false, UInt8.toNat_ofNat', Nat.reducePow]
  omega

end Block

theorem PTX_lt (va : Nat) : PTX va < NPTENTRIES := by
  unfold PTX NPTENTRIES
  omega

theorem p2v_v2p {a : Nat} (h1 : KERNBASE ≤ a) (h2 : a < 2 ^ 32) : p2v (v2p a) = a := by
  unfold p2v v2p KERNBASE at *
  omega

/-- The directory entry `walkpgdir` writes for a new page table is an entry the kernel builds. -/
theorem newPde_eq (pa : Nat) : pa ||| PTE_P ||| PTE_W ||| PTE_U = mkPte pa (PTE_W ||| PTE_U) := by
  apply Nat.eq_of_testBit_eq
  intro i
  simp only [mkPte, Nat.testBit_or]
  cases pa.testBit i <;> cases PTE_P.testBit i <;> cases PTE_W.testBit i <;>
    cases PTE_U.testBit i <;> rfl

/-- Two addresses in one virtual page: the same slot of the directory and of its page table. -/
def SamePage (va b : Nat) : Prop := PDX va = PDX b ∧ PTX va = PTX b

/-- Below `2 ^ 32` the slots are the page number. -/
theorem samePage_iff {va b : Nat} (hva : va < 2 ^ 32) (hb : b < 2 ^ 32) :
    SamePage va b ↔ va / PGSIZE = b / PGSIZE := by
  unfold SamePage PDX PTX PGSIZE
  omega

/-- The pages from `a`, one `PGSIZE` apart and below `2 ^ 32`, are different pages. -/
theorem not_samePage_of_ne {a i j : Nat} (hi : a + i * PGSIZE < 2 ^ 32)
    (hj : a + j * PGSIZE < 2 ^ 32) (hne : i ≠ j) : ¬SamePage (a + i * PGSIZE) (a + j * PGSIZE) := by
  have hP : 0 < PGSIZE := by decide
  rw [samePage_iff hi hj, Nat.add_mul_div_right _ _ hP, Nat.add_mul_div_right _ _ hP]
  omega

/-- An entry stored as a `uint` depends on the address only as a `uint`. -/
theorem mkPte_mod (pa perm : Nat) : mkPte (pa % 2 ^ 32) perm % 2 ^ 32 = mkPte pa perm % 2 ^ 32 := by
  simp only [mkPte, Nat.or_mod_two_pow, Nat.mod_mod]

namespace Kmem

variable {k k' : Kmem} {pgdir : Nat}

/-! ## Words in pages -/

section Slots

variable {P Q F i j : Nat}

/-- The word at slot `i` of a page lies inside the page. -/
theorem slot_le (hi : i < NPTENTRIES) : 4 * i + 4 ≤ PGSIZE := by
  unfold NPTENTRIES at hi
  unfold PGSIZE
  omega

theorem load_store_self (k : Kmem) (p v : Nat) : (k.store p v).load p = v % 2 ^ 32 :=
  Block.load32_store32_mod _ _ _

/-- A store to one word of a page leaves every other word of that page and of every other page. -/
theorem load_store_slot (hP : IsPage P) (hQ : IsPage Q) (hi : i < NPTENTRIES)
    (hj : j < NPTENTRIES) (hne : P ≠ Q ∨ i ≠ j) (v : Nat) :
    (k.store (Q + 4 * j) v).load (P + 4 * i) = k.load (P + 4 * i) := by
  have hi' := slot_le hi
  have hj' := slot_le hj
  unfold load store
  dsimp only
  rw [hP.v2p_add (show 4 * i < PGSIZE by omega), hQ.v2p_add (show 4 * j < PGSIZE by omega)]
  apply Block.load32_store32_of_disjoint
  by_cases hPQ : P = Q
  · subst hPQ
    omega
  · have hsep := hP.disjoint hQ hPQ
    omega

/-- `memset` of a page to zero: its words read zero … -/
theorem load_memset_self (hF : IsPage F) (hi : i < NPTENTRIES) :
    (k.memset F 0 PGSIZE).load (F + 4 * i) = 0 := by
  have hi' := slot_le hi
  unfold load memset
  dsimp only
  rw [hF.v2p_add (show 4 * i < PGSIZE by omega)]
  exact Block.load32_fill_zero _ (by omega) (by omega)

/-- … and the words of every other page are as they were. -/
theorem load_memset_of_ne (hP : IsPage P) (hF : IsPage F) (hi : i < NPTENTRIES) (hne : P ≠ F)
    (c : UInt8) : (k.memset F c PGSIZE).load (P + 4 * i) = k.load (P + 4 * i) := by
  have hi' := slot_le hi
  have hsep := hP.disjoint hF hne
  unfold load memset
  dsimp only
  rw [hP.v2p_add (show 4 * i < PGSIZE by omega)]
  apply Block.load32_fill_of_disjoint
  omega

end Slots

/-! ## The page table as a map -/

/-- The kernel address of the page table a directory entry points to. -/
def tableOf (pde : Nat) : Nat := p2v (PTE_ADDR pde)

/-- The entry of `pgdir`'s page tables for `va`, `0` where the directory has no page table. -/
def entry (k : Kmem) (pgdir va : Nat) : Nat :=
  if k.load (pgdir + 4 * PDX va) &&& PTE_P ≠ 0 then
    k.load (tableOf (k.load (pgdir + 4 * PDX va)) + 4 * PTX va)
  else 0

theorem entry_congr {va b : Nat} (h : SamePage va b) : k.entry pgdir va = k.entry pgdir b := by
  unfold entry
  rw [h.1, h.2]

/-- `walkpgdir` where the directory has a page table for `va`: the entry in it, nothing
allocated. -/
theorem walkpgdir_of_present {va : Nat} (h : k.load (pgdir + 4 * PDX va) &&& PTE_P ≠ 0)
    (alloc : Bool) :
    k.walkpgdir pgdir va alloc = (some (tableOf (k.load (pgdir + 4 * PDX va)) + 4 * PTX va), k) := by
  unfold walkpgdir
  dsimp only
  rw [if_pos h]
  rfl

/-- `translate` is the address in the entry, where it is present. -/
theorem translate_eq_entry (va : Nat) :
    k.translate pgdir va =
      if k.entry pgdir va &&& PTE_P ≠ 0 then some (PTE_ADDR (k.entry pgdir va)) else none := by
  by_cases hp : k.load (pgdir + 4 * PDX va) &&& PTE_P ≠ 0
  · rw [translate, walkpgdir_of_present hp, entry, if_pos hp]
  · rw [translate, walkpgdir_absent (not_not.1 hp), entry, if_neg hp]
    rfl

/-- `t` is the page table of a present entry of `pgdir`. -/
def IsTable (k : Kmem) (pgdir t : Nat) : Prop :=
  ∃ i < NPDENTRIES, k.load (pgdir + 4 * i) &&& PTE_P ≠ 0 ∧ tableOf (k.load (pgdir + 4 * i)) = t

/-- `pgdir` is a page directory: a page, whose page tables are pages of their own, one for each
present entry, and none of them a free page. -/
structure PageDir (k : Kmem) (pgdir : Nat) : Prop where
  dir : IsPage pgdir
  table : ∀ t, k.IsTable pgdir t → IsPage t ∧ t ≠ pgdir
  table_inj : ∀ i < NPDENTRIES, ∀ j < NPDENTRIES, k.load (pgdir + 4 * i) &&& PTE_P ≠ 0 →
    k.load (pgdir + 4 * j) &&& PTE_P ≠ 0 →
    tableOf (k.load (pgdir + 4 * i)) = tableOf (k.load (pgdir + 4 * j)) → i = j
  free : ∀ f ∈ k.freelist, IsPage f ∧ f ≠ pgdir ∧ ¬k.IsTable pgdir f
  nodup : k.freelist.Nodup

/-- What a call that only adds page tables to `pgdir` leaves: every page table is still one, and
the pages it took off the free list are page tables now. -/
structure Grows (k : Kmem) (pgdir : Nat) (k' : Kmem) : Prop where
  tables : ∀ t, k.IsTable pgdir t → k'.IsTable pgdir t
  taken : ∃ l, k.freelist = l ++ k'.freelist ∧ ∀ f ∈ l, k'.IsTable pgdir f

theorem Grows.refl (k : Kmem) (pgdir : Nat) : k.Grows pgdir k :=
  ⟨fun _ h => h, [], rfl, by simp⟩

theorem Grows.trans {k₁ k₂ k₃ : Kmem} (h₁ : k₁.Grows pgdir k₂)
    (h₂ : k₂.Grows pgdir k₃) : k₁.Grows pgdir k₃ := by
  obtain ⟨l₁, hl₁, ht₁⟩ := h₁.taken
  obtain ⟨l₂, hl₂, ht₂⟩ := h₂.taken
  refine ⟨fun t h => h₂.tables t (h₁.tables t h), l₁ ++ l₂, ?_, ?_⟩
  · rw [hl₁, hl₂, List.append_assoc]
  · intro f hf
    rcases List.mem_append.1 hf with hf | hf
    · exact h₂.tables f (ht₁ f hf)
    · exact ht₂ f hf

section SameDir

variable (hpde : ∀ i < NPDENTRIES, k'.load (pgdir + 4 * i) = k.load (pgdir + 4 * i))
include hpde

/-- The page tables are read off the directory alone … -/
theorem isTable_congr (t : Nat) : k'.IsTable pgdir t ↔ k.IsTable pgdir t := by
  constructor
  · rintro ⟨i, hi, hp, ht⟩
    rw [hpde i hi] at hp ht
    exact ⟨i, hi, hp, ht⟩
  · rintro ⟨i, hi, hp, ht⟩
    rw [← hpde i hi] at hp ht
    exact ⟨i, hi, hp, ht⟩

/-- … and so is `PageDir`, with the free list. -/
theorem PageDir.of_pde (hd : k.PageDir pgdir) (hfl : k'.freelist = k.freelist) :
    k'.PageDir pgdir where
  dir := hd.dir
  table t ht := hd.table t ((isTable_congr hpde t).1 ht)
  table_inj i hi j hj hpi hpj hij := by
    rw [hpde i hi] at hpi hij
    rw [hpde j hj] at hpj hij
    exact hd.table_inj i hi j hj hpi hpj hij
  free f hf := by
    rw [hfl] at hf
    obtain ⟨h1, h2, h3⟩ := hd.free f hf
    exact ⟨h1, h2, fun h => h3 ((isTable_congr hpde f).1 h)⟩
  nodup := hfl ▸ hd.nodup

theorem Grows.of_pde (hfl : k'.freelist = k.freelist) : k.Grows pgdir k' :=
  ⟨fun t h => (isTable_congr hpde t).2 h, [], by rw [hfl]; rfl, by simp⟩

end SameDir

/-! ## A write to an entry -/

section Store

variable {a v : Nat} (hd : k.PageDir pgdir) (hp : k.load (pgdir + 4 * PDX a) &&& PTE_P ≠ 0)
include hd hp

/-- The page table that maps `a` is a page, and not the directory. -/
theorem PageDir.table_of_present :
    IsPage (tableOf (k.load (pgdir + 4 * PDX a))) ∧ tableOf (k.load (pgdir + 4 * PDX a)) ≠ pgdir :=
  hd.table _ ⟨PDX a, PDX_lt a, hp, rfl⟩

/-- A write to the entry for `a` leaves the directory … -/
theorem load_store_pde {i : Nat} (hi : i < NPDENTRIES) :
    (k.store (tableOf (k.load (pgdir + 4 * PDX a)) + 4 * PTX a) v).load (pgdir + 4 * i) =
      k.load (pgdir + 4 * i) :=
  load_store_slot hd.dir (hd.table_of_present hp).1 hi (PTX_lt a)
    (.inl (hd.table_of_present hp).2.symm) v

/-- … sets the entry of `a`'s page … -/
theorem entry_store_self {va : Nat} (hva : SamePage va a) :
    (k.store (tableOf (k.load (pgdir + 4 * PDX a)) + 4 * PTX a) v).entry pgdir va = v % 2 ^ 32 := by
  rw [entry_congr hva, entry, load_store_pde hd hp (PDX_lt a), if_pos hp, load_store_self]

/-- … and no other. -/
theorem entry_store_of_not_samePage {va : Nat} (hva : ¬SamePage va a) :
    (k.store (tableOf (k.load (pgdir + 4 * PDX a)) + 4 * PTX a) v).entry pgdir va =
      k.entry pgdir va := by
  unfold entry
  rw [load_store_pde hd hp (PDX_lt va)]
  split_ifs with hpv
  · -- the table of `va` is another page than `a`'s, or the same page at another slot
    have hne : tableOf (k.load (pgdir + 4 * PDX va)) ≠ tableOf (k.load (pgdir + 4 * PDX a)) ∨
        PTX va ≠ PTX a := by
      by_cases hx : PDX va = PDX a
      · exact .inr fun hy => hva ⟨hx, hy⟩
      · exact .inl fun ht => hx (hd.table_inj _ (PDX_lt va) _ (PDX_lt a) hpv hp ht)
    exact load_store_slot (hd.table_of_present hpv).1 (hd.table_of_present hp).1 (PTX_lt va)
      (PTX_lt a) hne v
  · rfl

end Store

/-! ## A new page table -/

/-- The memory after `walkpgdir` has made the first free page `f` the page table for `va`: the
page zeroed, and the directory entry pointing to it. -/
def addTable (k : Kmem) (pgdir va f : Nat) (rest : List Nat) : Kmem :=
  (({ k with freelist := rest } : Kmem).memset f 0 PGSIZE).store (pgdir + 4 * PDX va)
    (v2p f ||| PTE_P ||| PTE_W ||| PTE_U)

theorem walkpgdir_of_absent {va f : Nat} {rest : List Nat}
    (h : k.load (pgdir + 4 * PDX va) &&& PTE_P = 0) (hfl : k.freelist = f :: rest) :
    k.walkpgdir pgdir va true = (some (f + 4 * PTX va), k.addTable pgdir va f rest) := by
  unfold walkpgdir kalloc
  dsimp only
  rw [if_neg (not_not.2 h), hfl]
  rfl

section AddTable

variable {va f : Nat} {rest : List Nat} (hd : k.PageDir pgdir) (hfl : k.freelist = f :: rest)
include hd hfl

theorem PageDir.free_head : IsPage f ∧ f ≠ pgdir ∧ ¬k.IsTable pgdir f :=
  hd.free f (hfl ▸ List.mem_cons_self)

/-- The new directory entry points to `f`, and is present. -/
theorem tableOf_newPde :
    tableOf (v2p f ||| PTE_P ||| PTE_W ||| PTE_U) = f ∧
      (v2p f ||| PTE_P ||| PTE_W ||| PTE_U) &&& PTE_P ≠ 0 ∧
      v2p f ||| PTE_P ||| PTE_W ||| PTE_U < 2 ^ 32 := by
  obtain ⟨⟨halign, hlo, hhi⟩, -, -⟩ := hd.free_head hfl
  have hv : v2p f % PGSIZE = 0 := by unfold v2p KERNBASE PGSIZE at *; omega
  have hvlt : v2p f < 2 ^ 32 := by unfold v2p; omega
  have hperm : PTE_W ||| PTE_U < PGSIZE := by decide
  -- each flag is one bit below `2 ^ 32`
  have hP : PTE_P < 2 ^ 32 := by decide
  have hW : PTE_W < 2 ^ 32 := by decide
  have hU : PTE_U < 2 ^ 32 := by decide
  refine ⟨?_, ?_, Nat.or_lt_two_pow (Nat.or_lt_two_pow (Nat.or_lt_two_pow hvlt hP) hW) hU⟩
  · rw [newPde_eq, tableOf, mkPte_addr hv hperm,
      p2v_v2p hlo (by unfold KERNBASE PHYSTOP at hhi; omega)]
  · rw [newPde_eq]
    exact mkPte_present _ _

/-- The directory after the new page table: the new entry at `va`'s slot, the others as they
were. -/
theorem load_addTable_pde {i : Nat} (hi : i < NPDENTRIES) :
    (k.addTable pgdir va f rest).load (pgdir + 4 * i) =
      if i = PDX va then v2p f ||| PTE_P ||| PTE_W ||| PTE_U else k.load (pgdir + 4 * i) := by
  obtain ⟨hf, hfne, -⟩ := hd.free_head hfl
  unfold addTable
  split_ifs with h
  · subst h
    rw [load_store_self, Nat.mod_eq_of_lt (tableOf_newPde hd hfl).2.2]
  · rw [load_store_slot hd.dir hd.dir hi (PDX_lt va) (.inr h),
      load_memset_of_ne hd.dir hf hi hfne.symm]
    rfl

/-- The new page table is all zeros: the map is as it was. -/
theorem entry_addTable (habs : k.load (pgdir + 4 * PDX va) &&& PTE_P = 0) (b : Nat) :
    (k.addTable pgdir va f rest).entry pgdir b = k.entry pgdir b := by
  obtain ⟨hf, hfne, hft⟩ := hd.free_head hfl
  obtain ⟨htab, hpres, -⟩ := tableOf_newPde hd hfl
  unfold entry
  rw [load_addTable_pde hd hfl (PDX_lt b)]
  by_cases hb : PDX b = PDX va
  · -- `b` is in the new table, which reads zero; before, it had no table
    rw [if_pos hb, if_pos hpres, htab, hb, if_neg (not_not.2 habs)]
    unfold addTable
    rw [load_store_slot hf hd.dir (PTX_lt b) (PDX_lt va) (.inl hfne), load_memset_self hf (PTX_lt b)]
  · rw [if_neg hb]
    split_ifs with hpb
    · -- `b`'s table is neither the directory nor the new page
      obtain ⟨ht, htne⟩ := hd.table_of_present hpb
      have htf : tableOf (k.load (pgdir + 4 * PDX b)) ≠ f := fun h =>
        hft ⟨PDX b, PDX_lt b, hpb, h⟩
      unfold addTable
      rw [load_store_slot ht hd.dir (PTX_lt b) (PDX_lt va) (.inl htne),
        load_memset_of_ne ht hf (PTX_lt b) htf]
      rfl
    · rfl

/-- The page tables after: the new one and the old ones. -/
theorem isTable_addTable (habs : k.load (pgdir + 4 * PDX va) &&& PTE_P = 0) (t : Nat) :
    (k.addTable pgdir va f rest).IsTable pgdir t ↔ t = f ∨ k.IsTable pgdir t := by
  obtain ⟨htab, hpres, -⟩ := tableOf_newPde hd hfl
  constructor
  · rintro ⟨i, hi, hp, ht⟩
    rw [load_addTable_pde hd hfl hi] at hp ht
    split_ifs at hp ht with h
    · exact .inl (htab ▸ ht.symm)
    · exact .inr ⟨i, hi, hp, ht⟩
  · rintro (rfl | ⟨i, hi, hp, ht⟩)
    · refine ⟨PDX va, PDX_lt va, ?_, ?_⟩ <;> rw [load_addTable_pde hd hfl (PDX_lt va), if_pos rfl]
      · exact hpres
      · exact htab
    · -- the slot was present, so it is not `va`'s, which was absent
      have hne : i ≠ PDX va := by
        rintro rfl
        exact hp habs
      refine ⟨i, hi, ?_, ?_⟩ <;> rw [load_addTable_pde hd hfl hi, if_neg hne]
      · exact hp
      · exact ht

/-- The new page table keeps `pgdir` a page directory: `f` was a page apart from every table,
and the free list was without duplicates. -/
theorem PageDir.addTable (habs : k.load (pgdir + 4 * PDX va) &&& PTE_P = 0) :
    (k.addTable pgdir va f rest).PageDir pgdir := by
  obtain ⟨hf, hfne, hft⟩ := hd.free_head hfl
  obtain ⟨htab, -, -⟩ := tableOf_newPde hd hfl
  have hnd := hfl ▸ hd.nodup
  rw [List.nodup_cons] at hnd
  refine ⟨hd.dir, fun t ht => ?_, fun i hi j hj hpi hpj hij => ?_, fun g hg => ?_, hnd.2⟩
  · rcases (isTable_addTable hd hfl habs t).1 ht with rfl | ht
    · exact ⟨hf, hfne⟩
    · exact hd.table t ht
  · rw [load_addTable_pde hd hfl hi] at hpi hij
    rw [load_addTable_pde hd hfl hj] at hpj hij
    -- a slot other than `va`'s has an old table, which is not `f`
    split_ifs at hpi hpj hij with h1 h2 h2
    · exact h1.trans h2.symm
    · exact absurd ⟨j, hj, hpj, hij.symm.trans htab⟩ hft
    · exact absurd ⟨i, hi, hpi, hij.trans htab⟩ hft
    · exact hd.table_inj i hi j hj hpi hpj hij
  · have hg' : g ∈ k.freelist := hfl ▸ List.mem_cons_of_mem f hg
    obtain ⟨hgp, hgne, hgt⟩ := hd.free g hg'
    refine ⟨hgp, hgne, fun ht => ?_⟩
    rcases (isTable_addTable hd hfl habs g).1 ht with rfl | ht
    · exact hnd.1 hg
    · exact hgt ht

theorem Grows.addTable (habs : k.load (pgdir + 4 * PDX va) &&& PTE_P = 0) :
    k.Grows pgdir (k.addTable pgdir va f rest) :=
  ⟨fun t ht => (isTable_addTable hd hfl habs t).2 (.inr ht), [f], hfl,
    by simpa using (isTable_addTable hd hfl habs f).2 (.inl rfl)⟩

end AddTable

/-! ## `walkpgdir` and the loop of `mappages` -/

/-- What `walkpgdir(pgdir, va, 1)` does to a page directory: the null pointer with nothing
changed, or the entry for `va` in a page table that is now present, with at most that page table
added and the map unchanged. -/
theorem walkpgdir_alloc (hd : k.PageDir pgdir) (va : Nat) :
    k.walkpgdir pgdir va true = (none, k) ∨
      ∃ k₁, k.walkpgdir pgdir va true =
          (some (tableOf (k₁.load (pgdir + 4 * PDX va)) + 4 * PTX va), k₁) ∧
        k₁.load (pgdir + 4 * PDX va) &&& PTE_P ≠ 0 ∧ k₁.PageDir pgdir ∧ k.Grows pgdir k₁ ∧
        ∀ b, k₁.entry pgdir b = k.entry pgdir b := by
  by_cases hp : k.load (pgdir + 4 * PDX va) &&& PTE_P ≠ 0
  · exact .inr ⟨k, walkpgdir_of_present hp true, hp, hd, Grows.refl k pgdir, fun _ => rfl⟩
  have habs : k.load (pgdir + 4 * PDX va) &&& PTE_P = 0 := not_not.1 hp
  cases hfl : k.freelist with
  | nil => exact .inl (walkpgdir_absent_exhausted habs hfl true)
  | cons f rest =>
    obtain ⟨htab, hpres, -⟩ := tableOf_newPde hd hfl
    have hpde : (k.addTable pgdir va f rest).load (pgdir + 4 * PDX va) =
        v2p f ||| PTE_P ||| PTE_W ||| PTE_U := by
      rw [load_addTable_pde hd hfl (PDX_lt va), if_pos rfl]
    refine .inr ⟨k.addTable pgdir va f rest, ?_, ?_, hd.addTable hfl habs,
      Grows.addTable hd hfl habs, entry_addTable hd hfl habs⟩
    · rw [walkpgdir_of_absent habs hfl, hpde, htab]
    · rw [hpde]
      exact hpres

variable {perm a pa : Nat}

/-- One round of `mappages` at a page with no present entry: `-1` with nothing changed, or the
entry of that page written, nothing else, and the loop goes on or ends with `0`. -/
theorem mappagesLoop_cases (perm n pa : Nat) (hd : k.PageDir pgdir)
    (hfree : k.entry pgdir a &&& PTE_P = 0) :
    k.mappagesLoop pgdir perm n a pa = .ok (-1, k) ∨
      ∃ k₂, k₂.PageDir pgdir ∧ k.Grows pgdir k₂ ∧
        (∀ b, SamePage b a → k₂.entry pgdir b = mkPte pa perm % 2 ^ 32) ∧
        (∀ b, ¬SamePage b a → k₂.entry pgdir b = k.entry pgdir b) ∧
        k.mappagesLoop pgdir perm n a pa = match n with
          | 0 => .ok (0, k₂)
          | n + 1 =>
            k₂.mappagesLoop pgdir perm n ((a + PGSIZE) % 2 ^ 32) ((pa + PGSIZE) % 2 ^ 32) := by
  rcases walkpgdir_alloc hd a with hw | ⟨k₁, hw, hp, hd₁, hg₁, he₁⟩
  · left
    rw [mappagesLoop, hw]
  right
  -- no `remap`: the entry `walkpgdir` found is the map at `a`, which is not present
  have hold : k₁.load (tableOf (k₁.load (pgdir + 4 * PDX a)) + 4 * PTX a) &&& PTE_P = 0 := by
    have he := he₁ a
    rw [entry, if_pos hp] at he
    rw [he]
    exact hfree
  have hpde := fun i (hi : i < NPDENTRIES) => load_store_pde (v := mkPte pa perm) hd₁ hp hi
  refine ⟨_, hd₁.of_pde hpde rfl, hg₁.trans (Grows.of_pde hpde rfl),
    fun b hb => entry_store_self hd₁ hp hb,
    fun b hb => (entry_store_of_not_samePage hd₁ hp hb).trans (he₁ b), ?_⟩
  -- with `n` split, the source's `match` on it and the statement's reduce alike
  cases n <;>
  · rw [mappagesLoop, hw]
    dsimp only
    rw [if_neg (not_not.2 hold)]

/-- The first `m` pages from `a` map the pages from `pa`, with the permissions `perm`, and every
other entry is as in `k`. -/
structure Mapped (k : Kmem) (pgdir perm a pa m : Nat) (k' : Kmem) : Prop where
  pages : ∀ j < m,
    k'.entry pgdir (a + j * PGSIZE) = mkPte ((pa + j * PGSIZE) % 2 ^ 32) perm % 2 ^ 32
  others : ∀ b, (∀ j < m, ¬SamePage b (a + j * PGSIZE)) → k'.entry pgdir b = k.entry pgdir b

theorem Mapped.refl : k.Mapped pgdir perm a pa 0 k :=
  ⟨fun _ hj => absurd hj (Nat.not_lt_zero _), fun _ _ => rfl⟩

/-- The loop of `mappages` over `n + 1` pages below `2 ^ 32` with no entry present maps them all
and returns `0`, or maps the first `m ≤ n` and returns `-1`; either way it changes no other entry,
and the pages it took are page tables. -/
theorem mappagesLoop_run (perm : Nat) {n : Nat} (a pa : Nat) (hd : k.PageDir pgdir)
    (hend : a + n * PGSIZE < 2 ^ 32)
    (hfree : ∀ j ≤ n, k.entry pgdir (a + j * PGSIZE) &&& PTE_P = 0) :
    ∃ r k' m, k.mappagesLoop pgdir perm n a pa = .ok (r, k') ∧ k'.PageDir pgdir ∧
      k.Grows pgdir k' ∧ (r = 0 ∧ m = n + 1 ∨ r = -1 ∧ m ≤ n) ∧
      k.Mapped pgdir perm a pa m k' := by
  -- induction on the pages left, from any memory, page and physical address
  induction n generalizing k a pa with
  | zero =>
    rcases mappagesLoop_cases perm 0 pa hd (by simpa using hfree 0 le_rfl)
      with h | ⟨k₂, hd₂, hg₂, hself, hother, hloop⟩
    · exact ⟨-1, k, 0, h, hd, Grows.refl k pgdir, .inr ⟨rfl, le_rfl⟩, Mapped.refl⟩
    refine ⟨0, k₂, 1, hloop, hd₂, hg₂, .inl ⟨rfl, rfl⟩, fun j hj => ?_, fun b hb => ?_⟩
    · obtain rfl : j = 0 := by omega
      rw [Nat.zero_mul, Nat.add_zero, Nat.add_zero, hself a ⟨rfl, rfl⟩, mkPte_mod]
    · exact hother b (by simpa using hb 0 Nat.one_pos)
  | succ n ih =>
    rcases mappagesLoop_cases perm (n + 1) pa hd
        (by simpa using hfree 0 (Nat.zero_le _))
      with h | ⟨k₂, hd₂, hg₂, hself, hother, hloop⟩
    · exact ⟨-1, k, 0, h, hd, Grows.refl k pgdir, .inr ⟨rfl, Nat.zero_le _⟩, Mapped.refl⟩
    -- the rest of the run starts at the next page, which is below `2 ^ 32`
    have hstep : ∀ j, a + PGSIZE + j * PGSIZE = a + (j + 1) * PGSIZE := fun j => by
      rw [Nat.add_mul, Nat.one_mul]
      omega
    have hlt : ∀ j ≤ n + 1, a + j * PGSIZE < 2 ^ 32 := fun j hj =>
      calc a + j * PGSIZE ≤ a + (n + 1) * PGSIZE :=
            Nat.add_le_add_left (Nat.mul_le_mul_right _ hj) a
        _ < 2 ^ 32 := hend
    have ha' : (a + PGSIZE) % 2 ^ 32 = a + PGSIZE :=
      Nat.mod_eq_of_lt (by simpa using hlt 1 (by omega))
    -- the pages after `a` are not `a`'s page
    have hne : ∀ j ≤ n, ¬SamePage (a + PGSIZE + j * PGSIZE) a := fun j hj => by
      simpa [hstep] using not_samePage_of_ne (hlt (j + 1) (by omega)) (hlt 0 (Nat.zero_le _))
        (Nat.succ_ne_zero j)
    have hfree' : ∀ j ≤ n, k₂.entry pgdir (a + PGSIZE + j * PGSIZE) &&& PTE_P = 0 :=
      fun j hj => by
        rw [hother _ (hne j hj), hstep]
        exact hfree (j + 1) (by omega)
    obtain ⟨r, k', m, hrun, hd', hg', hr, hm⟩ :=
      ih (a + PGSIZE) ((pa + PGSIZE) % 2 ^ 32) hd₂ (by rw [hstep]; exact hlt _ le_rfl)
        hfree'
    refine ⟨r, k', m + 1, ?_, hd', hg₂.trans hg', by omega, fun j hj => ?_, fun b hb => ?_⟩
    · rw [hloop, ha']
      exact hrun
    · cases j with
      | zero =>
        -- `a`'s page, which the rest of the run leaves as the first round wrote it
        have hrest : ∀ j < m, ¬SamePage a (a + PGSIZE + j * PGSIZE) := fun j hj => by
          simpa [hstep] using not_samePage_of_ne (hlt 0 (Nat.zero_le _)) (hlt (j + 1) (by omega))
            (Nat.succ_ne_zero j).symm
        rw [Nat.zero_mul, Nat.add_zero, Nat.add_zero, hm.others a hrest, hself a ⟨rfl, rfl⟩,
          mkPte_mod]
      | succ j =>
        have hpa : ((pa + PGSIZE) % 2 ^ 32 + j * PGSIZE) % 2 ^ 32 =
            (pa + (j + 1) * PGSIZE) % 2 ^ 32 := by
          rw [Nat.mod_add_mod, Nat.add_assoc, Nat.add_mul, Nat.one_mul, Nat.add_comm PGSIZE]
        rw [← hstep, hm.pages j (by omega), hpa]
    · refine (hm.others b fun j hj => ?_).trans (hother b (by simpa using hb 0 (by omega)))
      rw [hstep]
      exact hb (j + 1) (by omega)

/-! ## `mappages` -/

theorem mappages_exact (k : Kmem) (pgdir va size pa perm : Nat) (hd : k.PageDir pgdir)
    (hsize : 1 ≤ size) (htop : va + size - 1 ≤ 2 ^ 32 - 1)
    (hfree : ∀ j, PGROUNDDOWN va + j * PGSIZE ≤ PGROUNDDOWN (va + size - 1) →
      k.entry pgdir (PGROUNDDOWN va + j * PGSIZE) &&& PTE_P = 0) :
    ∃ r k' m, k.mappages pgdir va size pa perm = .ok (r, k') ∧ k'.PageDir pgdir ∧
      k.Grows pgdir k' ∧
      (r = 0 ∧ PGROUNDDOWN va + m * PGSIZE = PGROUNDDOWN (va + size - 1) + PGSIZE ∨
        r = -1 ∧ PGROUNDDOWN va + m * PGSIZE ≤ PGROUNDDOWN (va + size - 1)) ∧
      (∀ j < m, k'.entry pgdir (PGROUNDDOWN va + j * PGSIZE) =
        mkPte ((pa + j * PGSIZE) % 2 ^ 32) perm % 2 ^ 32) ∧
      ∀ b < 2 ^ 32, (b < PGROUNDDOWN va ∨ PGROUNDDOWN va + m * PGSIZE ≤ b) →
        k'.entry pgdir b = k.entry pgdir b := by
  have hP : 0 < PGSIZE := by decide
  -- the pages by number: from `y`, the first, to `x`, the last
  obtain ⟨x, hx⟩ : ∃ x, (va + size - 1) / PGSIZE = x := ⟨_, rfl⟩
  obtain ⟨y, hy⟩ : ∃ y, va / PGSIZE = y := ⟨_, rfl⟩
  have hyx : y ≤ x := by
    rw [← hx, ← hy]
    exact Nat.div_le_div_right (by omega)
  have hL : PGROUNDDOWN (va + size - 1) = x * PGSIZE := by rw [PGROUNDDOWN, hx]
  have ha : PGROUNDDOWN va = y * PGSIZE := by rw [PGROUNDDOWN, hy]
  have hLlt : x * PGSIZE < 2 ^ 32 := by
    have := PGROUNDDOWN_le (va + size - 1)
    omega
  have hyxP : y * PGSIZE ≤ x * PGSIZE := Nat.mul_le_mul_right _ hyx
  have hend : y * PGSIZE + (x - y) * PGSIZE = x * PGSIZE := by
    rw [← Nat.add_mul, Nat.add_sub_cancel' hyx]
  -- `last` does not wrap, and the loop runs `x - y` rounds after the first
  have hmap : k.mappages pgdir va size pa perm =
      k.mappagesLoop pgdir perm (x - y) (y * PGSIZE) pa := by
    have hw : (va + size + 2 ^ 32 - 1) % 2 ^ 32 = va + size - 1 := by
      rw [show va + size + 2 ^ 32 - 1 = va + size - 1 + 2 ^ 32 by omega, Nat.add_mod_right,
        Nat.mod_eq_of_lt (by omega)]
    have hcount : (x * PGSIZE + 2 ^ 32 - y * PGSIZE) % 2 ^ 32 / PGSIZE = x - y := by
      rw [show x * PGSIZE + 2 ^ 32 - y * PGSIZE = x * PGSIZE - y * PGSIZE + 2 ^ 32 by omega,
        Nat.add_mod_right, Nat.mod_eq_of_lt (by omega), ← Nat.sub_mul, Nat.mul_div_cancel _ hP]
    unfold mappages
    dsimp only
    rw [hw, hL, ha, hcount]
  -- where the pages are, by number
  have hnum : ∀ j, (y * PGSIZE + j * PGSIZE) / PGSIZE = y + j := fun j => by
    rw [← Nat.add_mul, Nat.mul_div_cancel _ hP]
  have hle : ∀ j ≤ x - y, y * PGSIZE + j * PGSIZE ≤ x * PGSIZE := fun j hj =>
    calc y * PGSIZE + j * PGSIZE ≤ y * PGSIZE + (x - y) * PGSIZE :=
          Nat.add_le_add_left (Nat.mul_le_mul_right _ hj) _
      _ = x * PGSIZE := hend
  simp only [ha, hL] at hfree ⊢
  obtain ⟨r, k', m, hrun, hd', hg, hr, hm⟩ := mappagesLoop_run perm _ pa hd
    (by rw [hend]; exact hLlt) fun j hj => hfree j (hle j hj)
  refine ⟨r, k', m, hmap.trans hrun, hd', hg, ?_, hm.pages, fun b hb hout => hm.others b ?_⟩
  · rcases hr with ⟨rfl, rfl⟩ | ⟨rfl, hm⟩
    · refine .inl ⟨rfl, ?_⟩
      rw [Nat.add_mul, Nat.one_mul, ← Nat.add_assoc, hend]
    · exact .inr ⟨rfl, hle m hm⟩
  · -- `b` is below the first page or above the last one mapped
    intro j hj
    have hjm : j ≤ x - y := by omega
    rw [samePage_iff hb (Nat.lt_of_le_of_lt (hle j hjm) hLlt), hnum]
    rcases hout with hlo | hhi
    · have : b / PGSIZE < y := (Nat.div_lt_iff_lt_mul hP).2 hlo
      omega
    · have : y + m ≤ b / PGSIZE := (Nat.le_div_iff_mul_le hP).2 (by rw [Nat.add_mul]; exact hhi)
      omega

/-- Memory of zeros with one free page: the directory at `KERNBASE + 0x400000` has no page
table yet. -/
def emptyDir : Kmem :=
  ⟨fun _ => 0, [KERNBASE + 0x500000], KERNBASE + 0x400000, KERNBASE + 0x200000⟩

theorem load_emptyDir (p : Nat) : emptyDir.load p = 0 := by
  simp [emptyDir, load, Block.load32]

theorem entry_emptyDir (pgdir va : Nat) : emptyDir.entry pgdir va = 0 := by
  simp [entry, load_emptyDir]

theorem pageDir_emptyDir : emptyDir.PageDir (KERNBASE + 0x400000) := by
  -- no entry of the directory is present
  have habs : ∀ p, ¬emptyDir.load p &&& PTE_P ≠ 0 := fun p hp => hp (by rw [load_emptyDir]; rfl)
  have hnone : ∀ t, ¬emptyDir.IsTable (KERNBASE + 0x400000) t := by
    rintro t ⟨i, -, hp, -⟩
    exact habs _ hp
  have hdir : IsPage (KERNBASE + 0x400000) := by
    unfold IsPage
    decide
  refine ⟨hdir, fun t ht => absurd ht (hnone t), fun i _ _ _ hp => absurd hp (habs _),
    fun f hf => ?_, by decide⟩
  rw [emptyDir, List.mem_singleton] at hf
  subst hf
  refine ⟨?_, by decide, hnone _⟩
  unfold IsPage
  decide

/-- The `DEVSPACE` entry of `kmap`, whose size `0 - DEVSPACE` wraps and whose last page is the top
of the address space, into the empty directory. -/
theorem mappages_exact_devspace :
    emptyDir.PageDir (KERNBASE + 0x400000) ∧
      ∃ r k' m, emptyDir.mappages (KERNBASE + 0x400000) DEVSPACE (2 ^ 32 - DEVSPACE) DEVSPACE
          PTE_W = .ok (r, k') ∧ k'.PageDir (KERNBASE + 0x400000) ∧
        emptyDir.Grows (KERNBASE + 0x400000) k' ∧
        (r = 0 ∧ PGROUNDDOWN DEVSPACE + m * PGSIZE =
            PGROUNDDOWN (DEVSPACE + (2 ^ 32 - DEVSPACE) - 1) + PGSIZE ∨
          r = -1 ∧ PGROUNDDOWN DEVSPACE + m * PGSIZE ≤
            PGROUNDDOWN (DEVSPACE + (2 ^ 32 - DEVSPACE) - 1)) ∧
        (∀ j < m, k'.entry (KERNBASE + 0x400000) (PGROUNDDOWN DEVSPACE + j * PGSIZE) =
          mkPte ((DEVSPACE + j * PGSIZE) % 2 ^ 32) PTE_W % 2 ^ 32) ∧
        ∀ b < 2 ^ 32, (b < PGROUNDDOWN DEVSPACE ∨ PGROUNDDOWN DEVSPACE + m * PGSIZE ≤ b) →
          k'.entry (KERNBASE + 0x400000) b = emptyDir.entry (KERNBASE + 0x400000) b :=
  ⟨pageDir_emptyDir, mappages_exact emptyDir _ _ _ _ _ pageDir_emptyDir (by decide) (by decide)
    fun j _ => by rw [entry_emptyDir]; rfl⟩

end Kmem

end Xv6
