import Xv6.Vm.Mmu

/-!
# The physical page allocator

`kalloc.c` keeps the free pages on the list `kmem.freelist`, threaded through the pages
themselves. `Kmem` holds physical memory and that list, as the kernel addresses of the free
pages with the next one to be allocated first, and the two addresses of the kernel's image that
the code reads from `kernel.ld`: `end`, below which `kfree` refuses a page, and `data`, where
`setupkvm` starts the writable kernel mapping. `kfree` writes the page with junk and the old head of the list,
as the code does; `kalloc` takes the head.

`Kmem.free` counts the free pages: a call that returns with fewer free pages than it started
with, and holds no page it allocated, has lost pages.
-/

namespace Xv6

/-- Physical memory and the allocator's state. -/
structure Kmem where
  /-- Physical memory, by byte address. -/
  mem : Block
  /-- The free pages, by kernel address, the next to be allocated first. -/
  freelist : List Nat
  /-- `end`: the first address after the kernel loaded from its ELF file. -/
  kend : Nat
  /-- `data`: the start of the kernel's data, after its text and read-only data. -/
  data : Nat

namespace Kmem

/-- The `uint` at kernel address `p`. -/
def load (k : Kmem) (p : Nat) : Nat := k.mem.load32 (v2p p)

/-- `*p = v` for a `uint` pointer `p`. -/
def store (k : Kmem) (p v : Nat) : Kmem := { k with mem := k.mem.store32 (v2p p) v }

/-- `memset(p, c, n)`. -/
def memset (k : Kmem) (p : Nat) (c : UInt8) (n : Nat) : Kmem :=
  { k with mem := k.mem.fill (v2p p) n c }

/-- `memmove(dst, src, n)`. -/
def memmove (k : Kmem) (dst src n : Nat) : Kmem :=
  { k with mem := k.mem.copy (v2p dst) (v2p src) n }

/-- The number of free pages. -/
def free (k : Kmem) : Nat := k.freelist.length

/-- `kalloc`: a free page, or `0` (`none`) if there is none. -/
def kalloc (k : Kmem) : Option Nat × Kmem :=
  match k.freelist with
  | [] => (none, k)
  | r :: rest => (some r, { k with freelist := rest })

/-- `kfree(v)`. -/
def kfree (k : Kmem) (v : Nat) : Except String Kmem :=
  if v % PGSIZE ≠ 0 ∨ v < k.kend ∨ v2p v ≥ PHYSTOP then .error "kfree"
  else
    -- fill with junk to catch dangling references, then link the page in
    let k := k.memset v 1 PGSIZE
    let k := k.store v (k.freelist.headD 0)
    .ok { k with freelist := v :: k.freelist }

theorem kalloc_of_freelist_nil {k : Kmem} (h : k.freelist = []) : k.kalloc = (none, k) := by
  unfold kalloc
  rw [h]

theorem kalloc_some {k k' : Kmem} {r : Nat} (h : k.kalloc = (some r, k')) :
    k.freelist = r :: k'.freelist ∧ k'.mem = k.mem ∧ k'.kend = k.kend := by
  unfold kalloc at h
  cases hf : k.freelist with
  | nil =>
    rw [hf] at h
    cases h
  | cons r' rest =>
    rw [hf] at h
    cases h
    simp

theorem kalloc_none {k k' : Kmem} (h : k.kalloc = (none, k')) : k.freelist = [] ∧ k' = k := by
  unfold kalloc at h
  cases hf : k.freelist with
  | nil =>
    rw [hf] at h
    cases h
    exact ⟨rfl, rfl⟩
  | cons r' rest =>
    rw [hf] at h
    cases h

/-- A page `kfree` takes goes on the list; the list loses nothing. -/
theorem kfree_ok {k k' : Kmem} {v : Nat} (h : k.kfree v = .ok k') :
    k'.freelist = v :: k.freelist ∧ k'.kend = k.kend := by
  -- the fields of `k` are taken apart first, so that each side reduces to them
  obtain ⟨mem, fl, kend, data⟩ := k
  unfold kfree at h
  split at h
  · cases h
  · cases h
    dsimp only
    exact ⟨rfl, rfl⟩

/-- A page that passes `kfree`'s checks is freed. -/
theorem kfree_valid {km : Kmem} {v : Nat} (hv : v % PGSIZE = 0 ∧ km.kend ≤ v ∧ v2p v < PHYSTOP) :
    ∃ km', km.kfree v = .ok km' := by
  unfold Kmem.kfree
  rw [if_neg (by omega)]
  exact ⟨_, rfl⟩

end Kmem

end Xv6
