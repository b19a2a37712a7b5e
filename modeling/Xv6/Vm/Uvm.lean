import Xv6.Vm.Kalloc

/-!
# Page tables: `vm.c`

The functions of `vm.c` that build, grow, shrink, copy and free a process's two-level page
table, and `copyout`, over `Kmem`. A page directory is a page of `NPDENTRIES` entries; a present
entry holds the physical address of a page table of `NPTENTRIES` entries, and a present entry
there the physical address of the page that maps a virtual page. `Kmem.translate` reads a page
table as what it means: the physical page each virtual address maps to.

A call that panics returns `.error` with the panic's text. The loops `for (; a < bound; a +=
PGSIZE)` are on a `Nat` counter, which is the `uint` one as long as it stays below `2 ^ 32`: it
does wherever `bound` is at most `KERNBASE`, as in every call the kernel makes. `mappages`
loops until its counter reaches the last page; its loop counts the pages still to map.
-/

namespace Xv6

namespace Kmem

/-- `walkpgdir(pgdir, va, alloc)`: the kernel address of the entry for `va`, with a new page
table made for it if `alloc`, or `none` for the null pointer. -/
def walkpgdir (k : Kmem) (pgdir va : Nat) (alloc : Bool) : Option Nat × Kmem :=
  let pde := pgdir + 4 * PDX va
  if k.load pde &&& PTE_P ≠ 0 then (some (p2v (PTE_ADDR (k.load pde)) + 4 * PTX va), k)
  else if !alloc then (none, k)
  else
    match k.kalloc with
    | (none, k) => (none, k)
    | (some pgtab, k) =>
      -- make sure all those `PTE_P` bits are zero
      let k := k.memset pgtab 0 PGSIZE
      (some (pgtab + 4 * PTX va), k.store pde (v2p pgtab ||| PTE_P ||| PTE_W ||| PTE_U))

section Walk

variable {k k' : Kmem} {pgdir va : Nat}

/-- With no page table for `va`, `walkpgdir` without `alloc` returns the null pointer … -/
theorem walkpgdir_absent (h : k.load (pgdir + 4 * PDX va) &&& PTE_P = 0) :
    k.walkpgdir pgdir va false = (none, k) := by
  unfold walkpgdir
  dsimp only
  rw [if_neg (not_not.2 h)]
  rfl

/-- … and so does it with `alloc` when there is no free page. -/
theorem walkpgdir_absent_exhausted (h : k.load (pgdir + 4 * PDX va) &&& PTE_P = 0)
    (hfl : k.freelist = []) (alloc : Bool) : k.walkpgdir pgdir va alloc = (none, k) := by
  cases alloc with
  | false => exact walkpgdir_absent h
  | true =>
    unfold walkpgdir
    dsimp only
    rw [if_neg (not_not.2 h), kalloc_of_freelist_nil hfl]
    rfl

end Walk

/-- The loop of `mappages` at the page `a`, mapped to `pa`, with `n` pages after it up to
`last`. -/
def mappagesLoop (k : Kmem) (pgdir perm : Nat) : Nat → Nat → Nat → Except String (Int × Kmem)
  | n, a, pa =>
    match k.walkpgdir pgdir a true with
    | (none, k) => .ok (-1, k)
    | (some pte, k) =>
      if k.load pte &&& PTE_P ≠ 0 then .error "remap"
      else
        let k := k.store pte (mkPte pa perm)
        match n with
        | 0 => .ok (0, k)
        | n + 1 => k.mappagesLoop pgdir perm n ((a + PGSIZE) % 2 ^ 32) ((pa + PGSIZE) % 2 ^ 32)

/-- Where `walkpgdir` cannot make a page table, `mappages` stops with `-1`. -/
theorem mappagesLoop_of_none {k k' : Kmem} {pgdir perm n a pa : Nat}
    (h : k.walkpgdir pgdir a true = (none, k')) :
    k.mappagesLoop pgdir perm n a pa = .ok (-1, k') := by
  rw [mappagesLoop, h]

/-- `mappages(pgdir, va, size, pa, perm)`: map the pages of `[va, va + size)` to the pages from
`pa`; `-1` if a page table cannot be allocated. -/
def mappages (k : Kmem) (pgdir va size pa perm : Nat) : Except String (Int × Kmem) :=
  let a := PGROUNDDOWN va
  let last := PGROUNDDOWN ((va + size + 2 ^ 32 - 1) % 2 ^ 32)
  k.mappagesLoop pgdir perm ((last + 2 ^ 32 - a) % 2 ^ 32 / PGSIZE) a pa

/-- An entry of `kmap`: a range of physical memory, where it is mapped and how. -/
structure Kmap where
  virt : Nat
  phys_start : Nat
  phys_end : Nat
  perm : Nat

/-- `kmap`: the kernel's mappings, present in every process's page table. -/
def kmap (data : Nat) : List Kmap :=
  [⟨KERNBASE, 0, EXTMEM, PTE_W⟩,          -- I/O space
   ⟨KERNLINK, v2p KERNLINK, v2p data, 0⟩,  -- kernel text and read-only data
   ⟨data, v2p data, PHYSTOP, PTE_W⟩,       -- kernel data and free memory
   ⟨DEVSPACE, DEVSPACE, 0, PTE_W⟩]         -- more devices

/-- The loop of `setupkvm` over `kmap`: `0` (`none`) on the first `mappages` that fails. -/
def setupLoop (k : Kmem) (pgdir : Nat) : List Kmap → Except String (Option Nat × Kmem)
  | [] => .ok (some pgdir, k)
  | e :: es => do
    let (r, k) ← k.mappages pgdir e.virt ((e.phys_end + 2 ^ 32 - e.phys_start) % 2 ^ 32)
      e.phys_start e.perm
    if r < 0 then .ok (none, k) else k.setupLoop pgdir es

theorem setupLoop_cons_of_neg {k k' : Kmem} {pgdir : Nat} {e : Kmap} {es : List Kmap} {r : Int}
    (h : k.mappages pgdir e.virt ((e.phys_end + 2 ^ 32 - e.phys_start) % 2 ^ 32) e.phys_start
      e.perm = .ok (r, k')) (hr : r < 0) :
    k.setupLoop pgdir (e :: es) = .ok (none, k') := by
  rw [setupLoop, h]
  exact if_pos hr

/-- `setupkvm()`: a page directory with the kernel's mappings, or `0` (`none`). -/
def setupkvm (k : Kmem) : Except String (Option Nat × Kmem) :=
  match k.kalloc with
  | (none, k) => .ok (none, k)
  | (some pgdir, k) =>
    let k := k.memset pgdir 0 PGSIZE
    if p2v PHYSTOP > DEVSPACE then .error "PHYSTOP too high"
    else k.setupLoop pgdir (kmap k.data)

/-- The loop of `deallocuvm` from `a`: a missing page table skips `NPTENTRIES` pages. -/
def deallocLoop (k : Kmem) (pgdir oldsz a : Nat) : Except String Kmem :=
  if a < oldsz then
    match k.walkpgdir pgdir a false with
    | (none, k) => k.deallocLoop pgdir oldsz (a + (NPTENTRIES - 1) * PGSIZE + PGSIZE)
    | (some pte, k) =>
      if k.load pte &&& PTE_P ≠ 0 then
        let pa := PTE_ADDR (k.load pte)
        if pa = 0 then .error "kfree"
        else do
          let k ← k.kfree (p2v pa)
          (k.store pte 0).deallocLoop pgdir oldsz (a + PGSIZE)
      else k.deallocLoop pgdir oldsz (a + PGSIZE)
  else .ok k
termination_by oldsz - a
decreasing_by all_goals simp only [NPTENTRIES, PGSIZE]; omega

/-- `deallocuvm(pgdir, oldsz, newsz)`: free the user pages from `newsz` up to `oldsz`; the new
size. -/
def deallocuvm (k : Kmem) (pgdir oldsz newsz : Nat) : Except String (Nat × Kmem) :=
  if newsz ≥ oldsz then .ok (oldsz, k)
  else do
    let k ← k.deallocLoop pgdir oldsz (PGROUNDUP newsz)
    .ok (newsz, k)

/-- The loop of `allocuvm` from `a`. The result of `mappages` is not looked at. -/
def allocLoop (k : Kmem) (pgdir oldsz newsz a : Nat) : Except String (Nat × Kmem) :=
  if a < newsz then
    match k.kalloc with
    | (none, k) => do
      -- "allocuvm out of memory"
      let (_, k) ← k.deallocuvm pgdir newsz oldsz
      .ok (0, k)
    | (some mem, k) => do
      let k := k.memset mem 0 PGSIZE
      let (_, k) ← k.mappages pgdir a PGSIZE (v2p mem) (PTE_W ||| PTE_U)
      k.allocLoop pgdir oldsz newsz (a + PGSIZE)
  else .ok (newsz, k)
termination_by newsz - a
decreasing_by unfold PGSIZE; omega

/-- `allocuvm(pgdir, oldsz, newsz)`: allocate and map the pages to grow a process from `oldsz`
to `newsz`; the new size, or `0`. -/
def allocuvm (k : Kmem) (pgdir oldsz newsz : Nat) : Except String (Nat × Kmem) :=
  if newsz ≥ KERNBASE then .ok (0, k)
  else if newsz < oldsz then .ok (oldsz, k)
  else k.allocLoop pgdir oldsz newsz (PGROUNDUP oldsz)

/-- `freevm(pgdir)`: free the user pages, the page tables and the directory. -/
def freevm (k : Kmem) (pgdir : Nat) : Except String Kmem :=
  if pgdir = 0 then .error "freevm: no pgdir"
  else do
    let (_, k) ← k.deallocuvm pgdir KERNBASE 0
    let k ← (List.range NPDENTRIES).foldlM (fun k i =>
      if k.load (pgdir + 4 * i) &&& PTE_P ≠ 0 then k.kfree (p2v (PTE_ADDR (k.load (pgdir + 4 * i))))
      else .ok k) k
    k.kfree pgdir

/-- The loop of `copyuvm` from `i`, copying into the new directory `d`; on a failure it frees
`d` (`goto bad`). -/
def copyLoop (k : Kmem) (pgdir d sz i : Nat) : Except String (Option Nat × Kmem) :=
  if i < sz then
    match k.walkpgdir pgdir i false with
    | (none, _) => .error "copyuvm: pte should exist"
    | (some pte, k) =>
      if k.load pte &&& PTE_P = 0 then .error "copyuvm: page not present"
      else
        let pa := PTE_ADDR (k.load pte)
        let flags := PTE_FLAGS (k.load pte)
        match k.kalloc with
        | (none, k) => do
          let k ← k.freevm d
          .ok (none, k)
        | (some mem, k) => do
          let k := k.memmove mem (p2v pa) PGSIZE
          let (r, k) ← k.mappages d i PGSIZE (v2p mem) flags
          if r < 0 then do
            let k ← k.freevm d
            .ok (none, k)
          else k.copyLoop pgdir d sz (i + PGSIZE)
  else .ok (some d, k)
termination_by sz - i
decreasing_by unfold PGSIZE; omega

/-- `copyuvm(pgdir, sz)`: a copy of a process's page table and pages for a child, or `0`. -/
def copyuvm (k : Kmem) (pgdir sz : Nat) : Except String (Option Nat × Kmem) := do
  match ← k.setupkvm with
  | (none, k) => .ok (none, k)
  | (some d, k) => k.copyLoop pgdir d sz 0

/-- `uva2ka(pgdir, uva)`: the kernel address of the user page at `uva`, or `0` (`none`). The code
reads `*pte` without looking whether `walkpgdir` found a page table: with none, it reads
through the null pointer. -/
def uva2ka (k : Kmem) (pgdir uva : Nat) : Except String (Option Nat) :=
  match k.walkpgdir pgdir uva false with
  | (none, _) => .error "uva2ka: *pte with pte = 0"
  | (some pte, _) =>
    if k.load pte &&& PTE_P = 0 then .ok none
    else if k.load pte &&& PTE_U = 0 then .ok none
    else .ok (some (p2v (PTE_ADDR (k.load pte))))

/-- `memmove(dst, buf, n)` from a kernel buffer holding `bytes`. -/
def write (k : Kmem) (dst : Nat) (bytes : List UInt8) : Kmem :=
  { k with mem := k.mem.write (v2p dst) bytes }

/-- `copyout(pgdir, va, p, len)` of the `len` bytes `buf` at `p`: page by page, through
`uva2ka`; `-1` at the first page that is not a present user page. -/
def copyout (k : Kmem) (pgdir va : Nat) (buf : List UInt8) : Except String (Int × Kmem) :=
  if buf.length > 0 then
    let va0 := PGROUNDDOWN va
    match k.uva2ka pgdir va0 with
    | .error e => .error e
    | .ok none => .ok (-1, k)
    | .ok (some pa0) =>
      let n := min (PGSIZE - (va - va0)) buf.length
      (k.write (pa0 + (va - va0)) (buf.take n)).copyout pgdir ((va0 + PGSIZE) % 2 ^ 32)
        (buf.drop n)
  else .ok (0, k)
termination_by buf.length
decreasing_by
  have hmod : va - PGROUNDDOWN va < PGSIZE := by
    unfold PGROUNDDOWN PGSIZE
    omega
  simp only [List.length_drop]
  unfold PGSIZE at hmod ⊢
  omega

/-- `growproc(n)` for a process whose page directory is `pgdir` and size `sz`: the result, and
`proc->sz` after it. -/
def growproc (k : Kmem) (pgdir sz : Nat) (n : Int) : Except String (Int × Nat × Kmem) :=
  -- `sz + n` is a `uint`
  let newsz := ((sz + n) % 2 ^ 32).toNat
  if n > 0 then do
    let (sz', k) ← k.allocuvm pgdir sz newsz
    if sz' = 0 then .ok (-1, sz, k) else .ok (0, sz', k)
  else if n < 0 then do
    let (sz', k) ← k.deallocuvm pgdir sz newsz
    if sz' = 0 then .ok (-1, sz, k) else .ok (0, sz', k)
  else .ok (0, sz, k)

/-- The physical page `pgdir` maps `va` to, if any: what a page table means. -/
def translate (k : Kmem) (pgdir va : Nat) : Option Nat :=
  match k.walkpgdir pgdir va false with
  | (none, _) => none
  | (some pte, _) => if k.load pte &&& PTE_P ≠ 0 then some (PTE_ADDR (k.load pte)) else none

end Kmem

end Xv6
