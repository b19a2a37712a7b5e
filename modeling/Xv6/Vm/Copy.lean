import Xv6.Vm.Size

/-!
# Copying address spaces: `copyuvm` and `copyout`

`copyuvm` begins with `setupkvm`, which takes a page for the new directory and then needs page
tables for the kernel's mappings. When those cannot be had it returns `0`, and `copyuvm` returns
`0` at once: the directory page is never freed. With one free page that is what happens
(`copyuvm_one_free`).

`uva2ka` takes the entry `walkpgdir` returns and reads it without asking whether it is the null
pointer; it is whenever the directory has no page table for the address
(`uva2ka_absent`), and `copyout` reaches it for any such destination (`copyout_absent`).
-/

namespace Xv6

namespace Kmem

variable {k : Kmem} {pgdir sz m va uva : Nat} {buf : List UInt8}

/-! ## `setupkvm` and `copyuvm` -/

/-- With one free page `m`, `setupkvm` zeroes it as the directory; its first `mappages` then
needs a page table, finds no page for it and fails, and the directory is not freed. -/
theorem setupkvm_one_free (hfl : k.freelist = [m]) (hm : KERNBASE ≤ m)
    (hm' : m < KERNBASE + PHYSTOP) :
    ∃ k', k.setupkvm = .ok (none, k') ∧ k'.free = 0 := by
  obtain ⟨mem, fl, kend, data⟩ := k
  dsimp only at hfl
  subst hfl
  -- the directory after `kalloc` and `memset`
  let k2 : Kmem := (⟨mem, [], kend, data⟩ : Kmem).memset m 0 PGSIZE
  -- the zeroed directory has no entry for the first kernel page
  have habs : k2.load (m + 4 * PDX (PGROUNDDOWN KERNBASE)) &&& PTE_P = 0 := by
    have hpdx : 4 * PDX (PGROUNDDOWN KERNBASE) = 2048 := by decide
    have hv : v2p (m + 2048) = v2p m + 2048 := by
      unfold v2p
      unfold KERNBASE at hm hm' ⊢
      unfold PHYSTOP at hm'
      omega
    have hz : k2.load (m + 2048) = 0 := by
      dsimp only [k2, load, memset]
      exact Block.load32_fill_zero mem (by omega) (by unfold PGSIZE; omega)
    rw [hpdx, hz]
    rfl
  have hmap : k2.mappages m KERNBASE ((EXTMEM + 2 ^ 32 - 0) % 2 ^ 32) 0 PTE_W = .ok (-1, k2) :=
    mappagesLoop_of_none (walkpgdir_absent_exhausted habs rfl true)
  refine ⟨k2, ?_, rfl⟩
  unfold setupkvm
  dsimp only [kalloc]
  rw [if_neg (by decide)]
  exact setupLoop_cons_of_neg hmap (by decide)

theorem copyuvm_one_free (hfl : k.freelist = [m]) (hm : KERNBASE ≤ m)
    (hm' : m < KERNBASE + PHYSTOP) :
    ∃ k', k.copyuvm pgdir sz = .ok (none, k') ∧ k'.free = 0 := by
  obtain ⟨k', hk', hfree⟩ := setupkvm_one_free hfl hm hm'
  refine ⟨k', ?_, hfree⟩
  rw [copyuvm, hk']
  rfl

/-- The one-page process of `onePage`, with one free page. -/
def onePageOneFree : Kmem := { onePage with freelist := [KERNBASE + 0x500000] }

/-- Forking it: `copyuvm` returns `0`, and the free page is gone. -/
theorem copyuvm_leaks_directory :
    onePageOneFree.free = 1 ∧
      (onePageOneFree.copyuvm (KERNBASE + 0x400000) 0x1000).map (fun r => (r.1, r.2.free)) =
        .ok (none, 0) := by
  decide +kernel

/-! ## `uva2ka` and `copyout` -/

/-- With no page table for `uva`, `uva2ka` reads through the null pointer. -/
theorem uva2ka_absent (h : k.load (pgdir + 4 * PDX uva) &&& PTE_P = 0) :
    k.uva2ka pgdir uva = .error "uva2ka: *pte with pte = 0" := by
  rw [uva2ka, walkpgdir_absent h]

/-- `copyout` to a page whose page table is missing reaches that read. -/
theorem copyout_absent (hb : buf ≠ [])
    (h : k.load (pgdir + 4 * PDX (PGROUNDDOWN va)) &&& PTE_P = 0) :
    k.copyout pgdir va buf = .error "uva2ka: *pte with pte = 0" := by
  rw [copyout, if_pos (List.length_pos_iff.mpr hb)]
  dsimp only
  rw [uva2ka_absent h]

/-- Physical memory of zeroes, with a page directory at physical `0x400000` that maps nothing. -/
def blankDir : Kmem where
  mem := fun _ => 0
  freelist := []
  kend := KERNBASE + 0x400000
  data := KERNBASE + 0x200000

/-- `copyout` of one byte to `0x1000` through that directory reads through the null pointer. -/
theorem copyout_reads_null :
    blankDir.copyout (KERNBASE + 0x400000) 0x1000 [0x2a] = .error "uva2ka: *pte with pte = 0" :=
  copyout_absent (List.cons_ne_nil _ _) (by decide)

end Kmem

end Xv6
