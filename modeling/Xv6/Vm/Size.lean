import Xv6.Vm.Uvm
import Xv6.Lib.Except

/-!
# Growing and shrinking a process: `deallocuvm` and `growproc`

`deallocuvm` walks the pages from `PGROUNDUP(newsz)` to `oldsz` and frees each present one.
Where the directory has no page table, it adds `(NPTENTRIES - 1) * PGSIZE` to its counter and
the loop adds `PGSIZE`: it goes on at the same offset in the next `4 MB`, not at that region's
start. From an address that is not a multiple of `4 MB` it then passes over the first pages of
the next page table (`deallocuvm_of_absent`).

`allocuvm` takes a page from `kalloc` for each new page and maps it, but does not look at what
`mappages` returns: when the page table for it cannot be allocated, the page is left unmapped and
off the free list, and `allocuvm` still returns `newsz` (`allocuvm_one_free`).

`growproc(n)` calls `deallocuvm` for `n < 0` and takes a new size of `0` for a failure; for
`n = -proc->sz` the new size is `0` by right, so the call frees all of the process's pages and
still reports `-1` with `proc->sz` unchanged (`growproc_neg_size`).
-/

namespace Xv6

namespace Kmem

variable {k k1 k2 : Kmem} {pgdir oldsz newsz sz a m p : Nat} {r : Int}

/-! ## The loop of `deallocuvm` -/

theorem deallocLoop_done (h : oldsz ≤ a) : k.deallocLoop pgdir oldsz a = .ok k := by
  rw [deallocLoop, if_neg (Nat.not_lt.2 h)]

/-- With no page table for `a`, the loop goes on `NPTENTRIES` pages later. -/
theorem deallocLoop_absent (h : a < oldsz) (habs : k.load (pgdir + 4 * PDX a) &&& PTE_P = 0) :
    k.deallocLoop pgdir oldsz a = k.deallocLoop pgdir oldsz (a + NPTENTRIES * PGSIZE) := by
  have hstep : a + (NPTENTRIES - 1) * PGSIZE + PGSIZE = a + NPTENTRIES * PGSIZE := by
    unfold NPTENTRIES PGSIZE
    omega
  rw [deallocLoop, if_pos h, walkpgdir_absent habs]
  show k.deallocLoop pgdir oldsz (a + (NPTENTRIES - 1) * PGSIZE + PGSIZE) = _
  rw [hstep]

theorem deallocuvm_of_lt (h : newsz < oldsz) :
    k.deallocuvm pgdir oldsz newsz =
      (k.deallocLoop pgdir oldsz (PGROUNDUP newsz)).map (newsz, ·) := by
  rw [deallocuvm, if_neg (Nat.not_le.2 h)]
  cases k.deallocLoop pgdir oldsz (PGROUNDUP newsz) <;> rfl

/-- The skip: with no page table for the first page of the range, and `oldsz` before the same
offset in the next `4 MB`, `deallocuvm` changes nothing, whatever the next page table maps. -/
theorem deallocuvm_of_absent (hlt : newsz < oldsz)
    (habs : k.load (pgdir + 4 * PDX (PGROUNDUP newsz)) &&& PTE_P = 0)
    (hend : oldsz ≤ PGROUNDUP newsz + NPTENTRIES * PGSIZE) :
    k.deallocuvm pgdir oldsz newsz = .ok (newsz, k) := by
  rw [deallocuvm_of_lt hlt]
  by_cases ha : PGROUNDUP newsz < oldsz
  · rw [deallocLoop_absent ha habs, deallocLoop_done hend]
    rfl
  · rw [deallocLoop_done (Nat.not_lt.1 ha)]
    rfl

/-- A page directory at physical `0x400000` with no page table for its first `4 MB`, and one
for the next `4 MB`, at `0x401000`, that maps `0x400000` to the page at `0x402000`. -/
def tableAt4M : Kmem where
  mem := Block.store32 (Block.store32 (fun _ => 0) 0x400004 (mkPte 0x401000 (PTE_W ||| PTE_U)))
    0x401000 (mkPte 0x402000 (PTE_W ||| PTE_U))
  freelist := []
  kend := KERNBASE + 0x400000
  data := KERNBASE + 0x200000

/-- Shrinking that process from `0x401000` to `0x1000` leaves `0x400000` mapped, and its page is
never freed. -/
theorem deallocuvm_leaves_mapping :
    (tableAt4M.deallocuvm (KERNBASE + 0x400000) 0x401000 0x1000).map
        (fun r => (r.1, r.2.translate (KERNBASE + 0x400000) 0x400000, r.2.free)) =
      .ok (0x1000, some 0x402000, 0) := by
  decide +kernel

/-! ## The loop of `allocuvm` -/

theorem allocLoop_done (h : newsz ≤ a) : k.allocLoop pgdir oldsz newsz a = .ok (newsz, k) := by
  rw [allocLoop, if_neg (Nat.not_lt.2 h)]

/-- A round of the loop with a page from `kalloc`: whatever `mappages` returns, the loop goes on
at the next page. -/
theorem allocLoop_of_some (h : a < newsz) (hk : k.kalloc = (some p, k1))
    (hmap : (k1.memset p 0 PGSIZE).mappages pgdir a PGSIZE (v2p p) (PTE_W ||| PTE_U) = .ok (r, k2)) :
    k.allocLoop pgdir oldsz newsz a = k2.allocLoop pgdir oldsz newsz (a + PGSIZE) := by
  rw [allocLoop, if_pos h]
  -- the branches of the match on `kalloc`, taken apart by their equations
  split
  · rename_i heq
    rw [hk] at heq
    cases heq
  · rename_i heq
    rw [hk] at heq
    cases heq
    dsimp only
    rw [hmap, Except.ok_bind]

/-- With one free page `m` and no page table for the first new page, `allocuvm` takes `m` for
the data, finds no page for the page table, and still returns `newsz`: `m` is neither mapped nor
free. -/
theorem allocuvm_one_free (hfl : k.freelist = [m]) (hm : IsPage m) (hd : IsPage pgdir)
    (hne : pgdir ≠ m) (habs : k.load (pgdir + 4 * PDX (PGROUNDUP oldsz)) &&& PTE_P = 0)
    (hle : oldsz ≤ newsz) (hlt : PGROUNDUP oldsz < newsz)
    (hnew : newsz ≤ PGROUNDUP oldsz + PGSIZE) (hk : newsz < KERNBASE) :
    ∃ k', k.allocuvm pgdir oldsz newsz = .ok (newsz, k') ∧ k'.free = 0 ∧
      k'.translate pgdir (PGROUNDUP oldsz) = none := by
  obtain ⟨mem, fl, kend, data⟩ := k
  dsimp only at hfl
  subst hfl
  -- the page `m` after `kalloc` and `memset`
  let k2 : Kmem := (⟨mem, [], kend, data⟩ : Kmem).memset m 0 PGSIZE
  -- the directory entry lies outside the zeroed page
  have hpde : k2.load (pgdir + 4 * PDX (PGROUNDUP oldsz)) =
      (⟨mem, [m], kend, data⟩ : Kmem).load (pgdir + 4 * PDX (PGROUNDUP oldsz)) := by
    have hx := PDX_lt (PGROUNDUP oldsz)
    have hv := hd.v2p_add (show 4 * PDX (PGROUNDUP oldsz) < PGSIZE by
      unfold NPDENTRIES at hx
      unfold PGSIZE
      omega)
    have hsep := hd.disjoint hm hne
    dsimp only [k2, load, memset]
    rw [hv]
    exact Block.load32_fill_of_disjoint mem 0 (by unfold NPDENTRIES PGSIZE at *; omega)
  have habs2 : k2.load (pgdir + 4 * PDX (PGROUNDUP oldsz)) &&& PTE_P = 0 := by
    rw [hpde]
    exact habs
  have hmap : k2.mappages pgdir (PGROUNDUP oldsz) PGSIZE (v2p m) (PTE_W ||| PTE_U) =
      .ok (-1, k2) := by
    have hw : k2.walkpgdir pgdir (PGROUNDDOWN (PGROUNDUP oldsz)) true = (none, k2) := by
      rw [PGROUNDDOWN_PGROUNDUP]
      exact walkpgdir_absent_exhausted habs2 rfl true
    exact mappagesLoop_of_none hw
  refine ⟨k2, ?_, rfl, ?_⟩
  · rw [allocuvm, if_neg (by omega), if_neg (by omega), allocLoop_of_some hlt rfl hmap,
      allocLoop_done hnew]
  · rw [translate, walkpgdir_absent habs2]

/-! ## `growproc` with a negative `n` -/

/-- `growproc(-sz)` runs the whole loop of `deallocuvm` over `[0, sz)`, and then reports `-1`
with the size left at `sz`. -/
theorem growproc_neg_size (h0 : 0 < sz) :
    k.growproc pgdir sz (-sz) = (k.deallocLoop pgdir sz 0).map fun k' => (-1, sz, k') := by
  have hnew : (((sz : Int) + -sz) % 2 ^ 32).toNat = 0 := by simp
  have hup : PGROUNDUP 0 = 0 := by decide
  unfold growproc
  dsimp only
  rw [hnew, if_neg (by omega), if_pos (by omega), deallocuvm_of_lt h0, hup]
  cases k.deallocLoop pgdir sz 0 <;> rfl

/-- A page directory at physical `0x400000` whose first page table, at `0x401000`, maps the
page `0` to the page at `0x402000`. -/
def onePage : Kmem where
  mem := Block.store32 (Block.store32 (fun _ => 0) 0x400000 (mkPte 0x401000 (PTE_W ||| PTE_U)))
    0x401000 (mkPte 0x402000 (PTE_W ||| PTE_U))
  freelist := []
  kend := KERNBASE + 0x400000
  data := KERNBASE + 0x200000

/-- `growproc(-4096)` for that one-page process returns `-1` and leaves its size at `4096`, with
its page unmapped and on the free list. -/
theorem growproc_fails_after_freeing :
    (onePage.growproc (KERNBASE + 0x400000) 0x1000 (-0x1000)).map
        (fun r => (r.1, r.2.1, r.2.2.translate (KERNBASE + 0x400000) 0, r.2.2.free)) =
      .ok (-1, 0x1000, none, 1) := by
  decide +kernel

end Kmem

end Xv6
