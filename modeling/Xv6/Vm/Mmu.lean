import Mathlib
import Xv6.Fs.Layout

/-!
# Paging hardware and the kernel's memory

The constants and address arithmetic of `mmu.h` and `memlayout.h`, and physical memory as the
kernel sees it: bytes by physical address, read and written as little-endian `uint`s by
`Block.load32`/`Block.store32`, filled by `memset` and copied by `memmove`. A page-table entry
is a `uint` whose top twenty bits are a page's physical address and whose low twelve bits are
flags; `mkPte_addr`, `mkPte_flags` and `mkPte_present` take apart the entries the kernel builds
as `pa | perm | PTE_P`.

Kernel pointers are kernel virtual addresses: `v2p` and `p2v` move between them and physical
addresses, modulo `2 ^ 32` as the `uint` casts do.
-/

namespace Xv6

/-- Bytes mapped by a page. -/
def PGSIZE : Nat := 4096
/-- Directory entries per page directory. -/
def NPDENTRIES : Nat := 1024
/-- Page-table entries per page table. -/
def NPTENTRIES : Nat := 1024
/-- Start of extended memory. -/
def EXTMEM : Nat := 0x100000
/-- Top of physical memory. -/
def PHYSTOP : Nat := 0xE000000
/-- Other devices are at high addresses. -/
def DEVSPACE : Nat := 0xFE000000
/-- First kernel virtual address. -/
def KERNBASE : Nat := 0x80000000
/-- Address where the kernel is linked. -/
def KERNLINK : Nat := KERNBASE + EXTMEM

/-- Present. -/
def PTE_P : Nat := 0x001
/-- Writeable. -/
def PTE_W : Nat := 0x002
/-- User. -/
def PTE_U : Nat := 0x004

/-- The page directory index of a virtual address. -/
def PDX (va : Nat) : Nat := va / 2 ^ 22 % 1024

/-- The page table index of a virtual address. -/
def PTX (va : Nat) : Nat := va / 2 ^ 12 % 1024

/-- `PGROUNDUP(sz)`: the sum is a `uint`, and clearing the low twelve bits rounds down. -/
def PGROUNDUP (sz : Nat) : Nat := (sz + PGSIZE - 1) % 2 ^ 32 / PGSIZE * PGSIZE

/-- `PGROUNDDOWN(a)`. -/
def PGROUNDDOWN (a : Nat) : Nat := a / PGSIZE * PGSIZE

/-- The address in a page-table entry: its low twelve bits cleared. -/
def PTE_ADDR (pte : Nat) : Nat := pte / PGSIZE * PGSIZE

/-- The flags of a page-table entry. -/
def PTE_FLAGS (pte : Nat) : Nat := pte % PGSIZE

/-- `v2p`: a kernel virtual address to its physical address. -/
def v2p (a : Nat) : Nat := (a + 2 ^ 32 - KERNBASE) % 2 ^ 32

/-- `p2v`: a physical address to its kernel virtual address. -/
def p2v (a : Nat) : Nat := (a + KERNBASE) % 2 ^ 32

/-- The entry `pa | perm | PTE_P` that maps a page at `pa` with the permissions `perm`. -/
def mkPte (pa perm : Nat) : Nat := pa ||| perm ||| PTE_P

/-! ## Addresses -/

@[simp] theorem v2p_p2v {a : Nat} (h : a < 2 ^ 32) : v2p (p2v a) = a := by
  unfold v2p p2v KERNBASE
  omega

/-- A page of physical memory, by its kernel address: what `kfree` takes, once `end` is past
`KERNBASE`. -/
def IsPage (p : Nat) : Prop := p % PGSIZE = 0 ∧ KERNBASE ≤ p ∧ p < KERNBASE + PHYSTOP

/-- Inside a page, `v2p` is an offset from the page's physical address … -/
theorem IsPage.v2p_add {p i : Nat} (hp : IsPage p) (hi : i < PGSIZE) : v2p (p + i) = v2p p + i := by
  unfold IsPage at hp
  unfold v2p
  unfold PGSIZE KERNBASE PHYSTOP at *
  omega

/-- … and two pages are apart in physical memory. -/
theorem IsPage.disjoint {p q : Nat} (hp : IsPage p) (hq : IsPage q) (hne : p ≠ q) :
    v2p p + PGSIZE ≤ v2p q ∨ v2p q + PGSIZE ≤ v2p p := by
  unfold IsPage at hp hq
  unfold v2p
  unfold PGSIZE KERNBASE PHYSTOP at *
  omega

theorem PDX_lt (va : Nat) : PDX va < NPDENTRIES := by
  unfold PDX NPDENTRIES
  omega

theorem PTE_ADDR_lt {pte : Nat} (h : pte < 2 ^ 32) : PTE_ADDR pte < 2 ^ 32 := by
  unfold PTE_ADDR PGSIZE
  omega

theorem PGROUNDDOWN_le (a : Nat) : PGROUNDDOWN a ≤ a := Nat.div_mul_le_self a PGSIZE

@[simp] theorem PGROUNDDOWN_PGROUNDUP (sz : Nat) : PGROUNDDOWN (PGROUNDUP sz) = PGROUNDUP sz := by
  unfold PGROUNDDOWN PGROUNDUP PGSIZE
  omega

/-- A virtual page lies in one page table: the pages of one directory entry are the
`NPTENTRIES` pages from a multiple of `4 MB`. -/
theorem PDX_eq_iff {a b : Nat} (ha : a < 2 ^ 32) (hb : b < 2 ^ 32) :
    PDX a = PDX b ↔ a / 2 ^ 22 = b / 2 ^ 22 := by
  unfold PDX
  omega

/-! ## Page-table entries -/

section Pte

variable {pa perm : Nat}

/-- An entry built from a page-aligned address keeps that address … -/
theorem mkPte_addr (hpa : pa % PGSIZE = 0) (hperm : perm < PGSIZE) :
    PTE_ADDR (mkPte pa perm) = pa := by
  have hdiv : (mkPte pa perm) / 2 ^ 12 = pa / 2 ^ 12 := by
    rw [mkPte, Nat.or_div_two_pow, Nat.or_div_two_pow,
      Nat.div_eq_of_lt (show perm < 2 ^ 12 from hperm),
      Nat.div_eq_of_lt (show PTE_P < 2 ^ 12 by decide), Nat.or_zero, Nat.or_zero]
  unfold PTE_ADDR PGSIZE at *
  rw [show (4096 : Nat) = 2 ^ 12 from rfl, hdiv]
  omega

/-- … and its flags are the permissions and `PTE_P`. -/
theorem mkPte_flags (hpa : pa % PGSIZE = 0) (hperm : perm < PGSIZE) :
    PTE_FLAGS (mkPte pa perm) = perm ||| PTE_P := by
  unfold PTE_FLAGS mkPte PGSIZE at *
  rw [show (4096 : Nat) = 2 ^ 12 from rfl, Nat.or_mod_two_pow, Nat.or_mod_two_pow,
    Nat.mod_eq_of_lt (show perm < 2 ^ 12 from hperm),
    Nat.mod_eq_of_lt (show PTE_P < 2 ^ 12 by decide), show pa % 2 ^ 12 = 0 from hpa,
    Nat.zero_or]

/-- A flag is set in an entry when it is set in the entry's flags. -/
theorem land_flag {pte f : Nat} (hf : f < PGSIZE) : pte &&& f = PTE_FLAGS pte &&& f := by
  unfold PTE_FLAGS PGSIZE at *
  apply Nat.eq_of_testBit_eq
  intro i
  rw [Nat.testBit_and, Nat.testBit_and, show (4096 : Nat) = 2 ^ 12 from rfl,
    Nat.testBit_mod_two_pow]
  by_cases hi : i < 12
  · simp [hi]
  · have hpow : 2 ^ 12 ≤ 2 ^ i := Nat.pow_le_pow_right (by decide) (by omega)
    have hfi : f.testBit i = false := Nat.testBit_lt_two_pow (by omega)
    simp [hfi]

/-- The entries the kernel builds are present. -/
theorem mkPte_present (pa perm : Nat) : mkPte pa perm &&& PTE_P ≠ 0 := by
  have h1 : (mkPte pa perm &&& PTE_P) % 2 = 1 := by
    rw [show PTE_P = 2 ^ 1 - 1 from rfl, Nat.and_two_pow_sub_one_eq_mod, mkPte,
      Nat.or_mod_two_pow]
    simp [PTE_P]
  omega

end Pte

/-! ## Physical memory -/

namespace Block

/-- The `uint` stored little-endian at byte address `a`. -/
def load32 (m : Block) (a : Nat) : Nat :=
  (m a).toNat + 256 * (m (a + 1)).toNat + 65536 * (m (a + 2)).toNat +
    16777216 * (m (a + 3)).toNat

/-- Store `v` as the `uint` at byte address `a`. -/
def store32 (m : Block) (a v : Nat) : Block := fun j =>
  if j = a then UInt8.ofNat v
  else if j = a + 1 then UInt8.ofNat (v / 256)
  else if j = a + 2 then UInt8.ofNat (v / 65536)
  else if j = a + 3 then UInt8.ofNat (v / 16777216)
  else m j

/-- `memset(a, c, n)`. -/
def fill (m : Block) (a n : Nat) (c : UInt8) : Block := fun j =>
  if a ≤ j ∧ j < a + n then c else m j

/-- `memmove(dst, src, n)`: every byte copied is read before any is written. -/
def copy (m : Block) (dst src n : Nat) : Block := fun j =>
  if dst ≤ j ∧ j < dst + n then m (src + (j - dst)) else m j

theorem load32_lt (m : Block) (a : Nat) : m.load32 a < 2 ^ 32 := by
  have h0 := (m a).toNat_lt
  have h1 := (m (a + 1)).toNat_lt
  have h2 := (m (a + 2)).toNat_lt
  have h3 := (m (a + 3)).toNat_lt
  unfold load32
  omega

theorem load32_store32_self (m : Block) (a : Nat) {v : Nat} (hv : v < 2 ^ 32) :
    (m.store32 a v).load32 a = v := by
  simp only [load32, store32, if_pos, show a + 1 ≠ a by omega, show a + 2 ≠ a by omega,
    show a + 2 ≠ a + 1 by omega, show a + 3 ≠ a by omega, show a + 3 ≠ a + 1 by omega,
    show a + 3 ≠ a + 2 by omega, if_false, UInt8.toNat_ofNat', Nat.reducePow]
  omega

/-- A word read is a function of its four bytes. -/
theorem load32_congr {m m' : Block} {a : Nat} (h : ∀ j, a ≤ j → j < a + 4 → m' j = m j) :
    m'.load32 a = m.load32 a := by
  unfold load32
  rw [h a le_rfl (by omega), h (a + 1) (by omega) (by omega), h (a + 2) (by omega) (by omega),
    h (a + 3) (by omega) (by omega)]

theorem store32_of_not_mem {m : Block} {a v j : Nat} (h : j < a ∨ a + 4 ≤ j) :
    m.store32 a v j = m j := by
  unfold store32
  rw [if_neg (by omega), if_neg (by omega), if_neg (by omega), if_neg (by omega)]

theorem load32_store32_of_disjoint (m : Block) {a b : Nat} (v : Nat) (h : a + 4 ≤ b ∨ b + 4 ≤ a) :
    (m.store32 a v).load32 b = m.load32 b :=
  load32_congr fun _ _ _ => store32_of_not_mem (by omega)

theorem fill_of_not_mem {m : Block} {a n j : Nat} {c : UInt8} (h : j < a ∨ a + n ≤ j) :
    m.fill a n c j = m j := by
  unfold fill
  rw [if_neg (by omega)]

theorem load32_fill_of_disjoint (m : Block) {a n b : Nat} (c : UInt8) (h : a + n ≤ b ∨ b + 4 ≤ a) :
    (m.fill a n c).load32 b = m.load32 b :=
  load32_congr fun _ _ _ => fill_of_not_mem (by omega)

/-- A word inside a range set to zero reads zero. -/
theorem load32_fill_zero (m : Block) {a n b : Nat} (h1 : a ≤ b) (h2 : b + 4 ≤ a + n) :
    (m.fill a n 0).load32 b = 0 := by
  unfold load32 fill
  rw [if_pos (by omega), if_pos (by omega), if_pos (by omega), if_pos (by omega)]
  rfl

end Block

end Xv6
