import Xv6.Vm.Mmu
import Xv6.Fs.Inode

/-!
# The user allocator: `malloc`, `free` and `morecore`

The allocator of `umalloc.c` keeps the free blocks on a circular list through their headers,
ordered by address, with `freep` pointing into it and the static `base`, a block of size zero,
on it from the first call on. A header is two `uint`s in the process's memory, the next free
block and the block's size in header units (`sizeof(Header)` is eight bytes), the header
included.

`malloc(nbytes)` asks for `(nbytes + sizeof(Header) - 1)/sizeof(Header) + 1` units. The sum is
a `uint`: for `nbytes ≥ 2^32 - 7` it wraps, and `malloc` asks for one unit, the header alone
(`nunitsOf_of_huge`); below that the units hold the request (`le_nunitsOf`). On the first call
the list holds `base` only, `morecore` takes `4096` units from `sbrk` and frees them, and
`malloc` cuts its one unit from the tail of that block: the pointer it returns is the new
break, with none of the `nbytes` bytes after it in the heap (`malloc_huge_first`).

`sbrk(n)` moves the break up by `n` bytes while it stays at most `top`, and fails otherwise;
a negative `n`, which the kernel would take as shrinking the heap, fails too. The loops of
`free` and `malloc` follow pointers in memory, which nothing bounds: they run on fuel, and
`none` is a walk that ran out of it.
-/

namespace Xv6

/-- `sizeof(Header)`: a pointer and a `uint`. -/
def sizeofHeader : Nat := 8

/-- `p + n` for a `Header *p`: `n` headers further, modulo `2 ^ 32`. -/
def hdrAdd (p n : Nat) : Nat := (p + sizeofHeader * n) % 2 ^ 32

/-- Two headers that share no byte. -/
def Apart (a b : Nat) : Prop := a + sizeofHeader ≤ b ∨ b + sizeofHeader ≤ a

/-- The process's memory, as the allocator sees it, and the allocator's statics. -/
structure Umem where
  /-- The process's memory, by byte address. -/
  mem : Block
  /-- `&base`. -/
  base : Nat
  /-- `freep`, `0` before the first `malloc`. -/
  freep : Nat
  /-- The break, `proc->sz`, where `sbrk` adds memory. -/
  sz : Nat
  /-- How far `sbrk` can move the break. -/
  top : Nat

namespace Umem

/-- `h->s.ptr`. -/
def ptr (u : Umem) (h : Nat) : Nat := u.mem.load32 h

/-- `h->s.size`. -/
def size (u : Umem) (h : Nat) : Nat := u.mem.load32 (h + 4)

def setPtr (u : Umem) (h v : Nat) : Umem := { u with mem := u.mem.store32 h v }

def setSize (u : Umem) (h v : Nat) : Umem := { u with mem := u.mem.store32 (h + 4) v }

/-- `freep = p`. -/
def setFreep (u : Umem) (p : Nat) : Umem := { u with freep := p }

/-! ## Headers in memory -/

section Frame

variable {u : Umem} {h h' v : Nat}

@[simp] theorem setPtr_freep : (u.setPtr h v).freep = u.freep := rfl
@[simp] theorem setPtr_sz : (u.setPtr h v).sz = u.sz := rfl
@[simp] theorem setSize_freep : (u.setSize h v).freep = u.freep := rfl
@[simp] theorem setSize_sz : (u.setSize h v).sz = u.sz := rfl
@[simp] theorem setFreep_freep : (u.setFreep v).freep = v := rfl
@[simp] theorem setFreep_sz : (u.setFreep v).sz = u.sz := rfl
@[simp] theorem ptr_setFreep : (u.setFreep v).ptr h = u.ptr h := rfl
@[simp] theorem size_setFreep : (u.setFreep v).size h = u.size h := rfl

theorem ptr_lt (u : Umem) (h : Nat) : u.ptr h < 2 ^ 32 := Block.load32_lt _ _

theorem size_lt (u : Umem) (h : Nat) : u.size h < 2 ^ 32 := Block.load32_lt _ _

theorem ptr_setPtr_self (hv : v < 2 ^ 32) : (u.setPtr h v).ptr h = v :=
  Block.load32_store32_self _ _ hv

theorem size_setSize_self (hv : v < 2 ^ 32) : (u.setSize h v).size h = v :=
  Block.load32_store32_self _ _ hv

/-- The two fields of a header are apart. -/
theorem ptr_setSize_self : (u.setSize h v).ptr h = u.ptr h :=
  Block.load32_store32_of_disjoint _ _ (.inr le_rfl)

theorem size_setPtr_self : (u.setPtr h v).size h = u.size h :=
  Block.load32_store32_of_disjoint _ _ (.inl le_rfl)

variable (hap : Apart h h')
include hap

theorem ptr_setPtr_of_apart : (u.setPtr h v).ptr h' = u.ptr h' := by
  unfold Apart sizeofHeader at hap
  exact Block.load32_store32_of_disjoint _ _ (by omega)

theorem ptr_setSize_of_apart : (u.setSize h v).ptr h' = u.ptr h' := by
  unfold Apart sizeofHeader at hap
  exact Block.load32_store32_of_disjoint _ _ (by omega)

theorem size_setPtr_of_apart : (u.setPtr h v).size h' = u.size h' := by
  unfold Apart sizeofHeader at hap
  exact Block.load32_store32_of_disjoint _ _ (by omega)

theorem size_setSize_of_apart : (u.setSize h v).size h' = u.size h' := by
  unfold Apart sizeofHeader at hap
  exact Block.load32_store32_of_disjoint _ _ (by omega)

end Frame

/-! ## `free` -/

/-- The loop of `free` from `p`: the first block after which `bp` lies, before the next free
block or past either end of the list. -/
def freeSearch (u : Umem) (bp : Nat) : Nat → Nat → Option Nat
  | 0, _ => none
  | fuel + 1, p =>
    if bp > p ∧ bp < u.ptr p then some p
    else if p ≥ u.ptr p ∧ (bp > p ∨ bp < u.ptr p) then some p
    else u.freeSearch bp fuel (u.ptr p)

/-- `free(ap)`. -/
def free (u : Umem) (ap fuel : Nat) : Option Umem := do
  let bp := (ap + 2 ^ 32 - sizeofHeader) % 2 ^ 32
  let p ← u.freeSearch bp fuel u.freep
  -- join the next free block, or link to it
  let u := if hdrAdd bp (u.size bp) = u.ptr p then
      let u := u.setSize bp ((u.size bp + u.size (u.ptr p)) % 2 ^ 32)
      u.setPtr bp (u.ptr (u.ptr p))
    else u.setPtr bp (u.ptr p)
  -- join the block before, or link it to `bp`
  let u := if hdrAdd p (u.size p) = bp then
      let u := u.setSize p ((u.size p + u.size bp) % 2 ^ 32)
      u.setPtr p (u.ptr bp)
    else u.setPtr p bp
  pure (u.setFreep p)

/-! ## `morecore` and `malloc` -/

/-- `sbrk(n)`: the old break, or `-1`. -/
def sbrk (u : Umem) (n : Int) : Int × Umem :=
  if 0 ≤ n ∧ u.sz + n.toNat ≤ u.top then (u.sz, { u with sz := u.sz + n.toNat }) else (-1, u)

/-- `morecore(nu)`: `freep`, or `0` when `sbrk` fails. The product `nu * sizeof(Header)` is a
`uint`, passed to `sbrk` as an `int`. -/
def morecore (u : Umem) (nu fuel : Nat) : Option (Nat × Umem) :=
  let nu := if nu < 4096 then 4096 else nu
  let (p, u) := u.sbrk (toInt32 (nu * sizeofHeader % 2 ^ 32))
  if p = -1 then some (0, u)
  else do
    let hp := p.toNat
    let u := u.setSize hp nu
    let u ← u.free (hdrAdd hp 1) fuel
    pure (u.freep, u)

/-- `nunits`: the header units `malloc(nbytes)` asks for. -/
def nunitsOf (nbytes : Nat) : Nat := (nbytes + sizeofHeader - 1) % 2 ^ 32 / sizeofHeader + 1

/-- The loop of `malloc` from `prevp` and `p = prevp->s.ptr`: the first block big enough is
taken whole or cut at its tail, and at `freep` the list is grown by `morecore`. -/
def mallocLoop (u : Umem) (nunits : Nat) : Nat → Nat → Nat → Option (Nat × Umem)
  | 0, _, _ => none
  | fuel + 1, prevp, p =>
    if u.size p ≥ nunits then
      if u.size p = nunits then
        let u := u.setPtr prevp (u.ptr p)
        some (hdrAdd p 1, u.setFreep prevp)
      else
        let u := u.setSize p (u.size p - nunits)
        let p := hdrAdd p (u.size p)
        let u := u.setSize p nunits
        some (hdrAdd p 1, u.setFreep prevp)
    else if p = u.freep then
      match u.morecore nunits fuel with
      | none => none
      | some (p, u) => if p = 0 then some (0, u) else u.mallocLoop nunits fuel p (u.ptr p)
    else u.mallocLoop nunits fuel p (u.ptr p)

/-- `malloc(nbytes)`: the address after the header of the block it hands out, or `0`. -/
def malloc (u : Umem) (nbytes fuel : Nat) : Option (Nat × Umem) :=
  let nunits := nunitsOf nbytes
  -- the first call puts `base` on the list, alone
  let u := if u.freep = 0 then ((u.setPtr u.base u.base).setSize u.base 0).setFreep u.base else u
  u.mallocLoop nunits fuel u.freep (u.ptr u.freep)

/-! ## The unit count -/

/-- For the largest requests the sum wraps, and `malloc` asks for the header alone. -/
theorem nunitsOf_of_huge {nbytes : Nat} (h1 : 2 ^ 32 - 7 ≤ nbytes) (h2 : nbytes < 2 ^ 32) :
    nunitsOf nbytes = 1 := by
  unfold nunitsOf sizeofHeader
  omega

/-- Below them, the units after the header hold the request. -/
theorem le_nunitsOf {nbytes : Nat} (h : nbytes < 2 ^ 32 - 7) :
    nbytes ≤ (nunitsOf nbytes - 1) * sizeofHeader := by
  unfold nunitsOf sizeofHeader
  omega

theorem Apart.symm {a b : Nat} (h : Apart a b) : Apart b a := h.symm

/-! ## Steps of `free` and `malloc` -/

section Steps

variable {u u' : Umem} {bp p q prevp nu nunits fuel : Nat}

/-- At the wrap point of the list, a block above it goes after it. -/
theorem freeSearch_wrap (hw : u.ptr p ≤ p) (hb : p < bp) :
    u.freeSearch bp (fuel + 1) p = some p := by
  rw [freeSearch, if_neg (by omega), if_pos ⟨hw, .inl hb⟩]

/-- `free` of a block that touches neither neighbour links it in after `p`. -/
theorem free_link (hs : u.freeSearch bp fuel u.freep = some p) (hbp : bp < 2 ^ 32)
    (hap : Apart p bp) (hup : hdrAdd bp (u.size bp) ≠ u.ptr p)
    (hlo : hdrAdd p (u.size p) ≠ bp) :
    u.free (hdrAdd bp 1) fuel = some (((u.setPtr bp (u.ptr p)).setPtr p bp).setFreep p) := by
  have hbp' : (hdrAdd bp 1 + 2 ^ 32 - sizeofHeader) % 2 ^ 32 = bp := by
    unfold hdrAdd sizeofHeader
    omega
  have hlo' : hdrAdd p ((u.setPtr bp (u.ptr p)).size p) ≠ bp := by
    rw [size_setPtr_of_apart hap.symm]
    exact hlo
  simp only [free, hbp', hs, Option.bind_eq_bind, Option.bind_some]
  rw [if_neg hup, if_neg hlo']
  rfl

/-- A block bigger than the request is cut at its tail. -/
theorem mallocLoop_split (hgt : nunits < u.size p) :
    u.mallocLoop nunits (fuel + 1) prevp p =
      some (hdrAdd (hdrAdd p (u.size p - nunits)) 1,
        ((u.setSize p (u.size p - nunits)).setSize (hdrAdd p (u.size p - nunits)) nunits).setFreep
          prevp) := by
  have hv : u.size p - nunits < 2 ^ 32 := by
    have := u.size_lt p
    omega
  rw [mallocLoop, if_pos hgt.le, if_neg hgt.ne']
  simp only [size_setSize_self hv]

/-- At `freep`, with no block big enough, the walk goes on from what `morecore` returns. -/
theorem mallocLoop_grow (hlt : u.size p < nunits) (hp : p = u.freep)
    (hm : u.morecore nunits fuel = some (q, u')) (hq : q ≠ 0) :
    u.mallocLoop nunits (fuel + 1) prevp p = u'.mallocLoop nunits fuel q (u'.ptr q) := by
  rw [mallocLoop, if_neg (by omega), if_pos hp, hm]
  simp only [if_neg hq]

section Sbrk

variable {k : Nat}

/-- The byte count `morecore` passes to `sbrk`, below `2^31`, is the same as an `int`. -/
theorem toInt32_units (hk31 : k * sizeofHeader < 2 ^ 31) :
    toInt32 (k * sizeofHeader % 2 ^ 32) = ((k * sizeofHeader : Nat) : Int) := by
  rw [Nat.mod_eq_of_lt (by omega), toInt32, if_pos hk31]

variable (hk : (if nu < 4096 then 4096 else nu) = k) (hk31 : k * sizeofHeader < 2 ^ 31)
include hk hk31

/-- `morecore` when `sbrk` can move the break by the `k` units it asks for: the new block
is freed. -/
theorem morecore_of_room (hroom : u.sz + k * sizeofHeader ≤ u.top) :
    u.morecore nu fuel = (do
      let u ← ({ u with sz := u.sz + sizeofHeader * k }.setSize u.sz k).free (hdrAdd u.sz 1) fuel
      pure (u.freep, u)) := by
  have hsbrk : u.sbrk ((k * sizeofHeader : Nat) : Int) =
      ((u.sz : Int), { u with sz := u.sz + sizeofHeader * k }) := by
    rw [sbrk, if_pos ⟨by omega, by rw [Int.toNat_natCast]; exact hroom⟩, Int.toNat_natCast,
      Nat.mul_comm]
  simp only [morecore, hk, toInt32_units hk31, hsbrk]
  rw [if_neg (by omega), Int.toNat_natCast]

/-- `morecore` when `sbrk` fails: `0`, and memory as it was. -/
theorem morecore_of_no_room (hroom : u.top < u.sz + k * sizeofHeader) :
    u.morecore nu fuel = some (0, u) := by
  have hsbrk : u.sbrk ((k * sizeofHeader : Nat) : Int) = (-1, u) := by
    rw [sbrk, if_neg (by rw [Int.toNat_natCast]; omega)]
  simp only [morecore, hk, toInt32_units hk31, hsbrk]
  rfl

end Sbrk

/-- `morecore` for a request of at most `4096` units takes `4096` units at the break. -/
theorem morecore_small (hnu : nu ≤ 4096) (hroom : u.sz + 4096 * sizeofHeader ≤ u.top) :
    u.morecore nu fuel = (do
      let u ← ({ u with sz := u.sz + 4096 * sizeofHeader }.setSize u.sz 4096).free
        (hdrAdd u.sz 1) fuel
      pure (u.freep, u)) := by
  have hnu' : (if nu < 4096 then 4096 else nu) = 4096 := by
    split <;> omega
  rw [morecore_of_room hnu' (by decide) hroom, Nat.mul_comm sizeofHeader 4096]

/-- The first `morecore`, on the list of `base` alone: the new block goes after `base`, and
`freep` stays at `base`. -/
theorem morecore_base_alone {b : Nat} (hfp : u.freep = b) (hptr : u.ptr b = b) (hsize : u.size b = 0)
    (hb : b + sizeofHeader ≤ u.sz) (hnu : nu ≤ 4096)
    (hroom : u.sz + 4096 * sizeofHeader ≤ u.top) (htop : u.top < 2 ^ 32) :
    u.morecore nu (fuel + 1) = some (b,
      ((({ u with sz := u.sz + 4096 * sizeofHeader }.setSize u.sz 4096).setPtr u.sz b).setPtr
          b u.sz).setFreep b) := by
  -- the block at the break, with its size set
  let u2 : Umem := { u with sz := u.sz + 4096 * sizeofHeader }.setSize u.sz 4096
  have hap : Apart b u.sz := .inl hb
  have hptr2 : u2.ptr b = b := by
    rw [ptr_setSize_of_apart hap.symm]
    exact hptr
  have hsize2 : u2.size b = 0 := by
    rw [size_setSize_of_apart hap.symm]
    exact hsize
  have hsz2 : u2.size u.sz = 4096 := size_setSize_self (by decide)
  have hs : u2.freeSearch u.sz (fuel + 1) u2.freep = some b := by
    rw [show u2.freep = b from hfp]
    exact freeSearch_wrap (by omega) (by unfold sizeofHeader at hb; omega)
  have hup : hdrAdd u.sz (u2.size u.sz) ≠ u2.ptr b := by
    rw [hsz2, hptr2]
    unfold hdrAdd sizeofHeader at *
    omega
  have hlo : hdrAdd b (u2.size b) ≠ u.sz := by
    rw [hsize2]
    unfold hdrAdd sizeofHeader at *
    omega
  have hfree := free_link hs (by omega) hap hup hlo
  rw [hptr2] at hfree
  rw [morecore_small hnu hroom]
  simp only [u2] at hfree
  rw [hfree]
  rfl

end Steps

/-! ## A huge request -/

/-- The first `malloc` of `nbytes ≥ 2^32 - 7`, with room for `4096` units above the break:
`malloc` returns the new break, and the block before it is one unit long, its header alone. -/
theorem malloc_huge_first {u : Umem} {nbytes fuel : Nat} (hfp : u.freep = 0) (hb0 : 0 < u.base)
    (hb : u.base + sizeofHeader ≤ u.sz) (hroom : u.sz + 4096 * sizeofHeader ≤ u.top)
    (htop : u.top < 2 ^ 32) (h1 : 2 ^ 32 - 7 ≤ nbytes) (h2 : nbytes < 2 ^ 32) :
    ∃ u', u.malloc nbytes (fuel + 2) = some (u.sz + 4096 * sizeofHeader, u') ∧
      u'.sz = u.sz + 4096 * sizeofHeader ∧ u'.size (u.sz + 4095 * sizeofHeader) = 1 := by
  -- the list after the first call's set-up: `base` alone
  let u1 : Umem := ((u.setPtr u.base u.base).setSize u.base 0).setFreep u.base
  have hsz1 : u1.sz = u.sz := rfl
  have hptr1 : u1.ptr u.base = u.base := by
    rw [ptr_setFreep, ptr_setSize_self, ptr_setPtr_self (by omega)]
  have hsize1 : u1.size u.base = 0 := size_setSize_self (by decide)
  have hmalloc : u.malloc nbytes (fuel + 2) = u1.mallocLoop 1 (fuel + 2) u.base u.base := by
    simp only [malloc, nunitsOf_of_huge h1 h2, if_pos hfp]
    exact congrArg _ hptr1
  -- `morecore` links the new block after `base`
  obtain ⟨u3, hmore⟩ : ∃ u3, u1.morecore 1 (fuel + 1) = some (u.base, u3) ∧
      u3.ptr u.base = u.sz ∧ u3.size u.sz = 4096 ∧ u3.sz = u.sz + 4096 * sizeofHeader := by
    refine ⟨_, morecore_base_alone rfl hptr1 hsize1 (hsz1 ▸ hb) (by decide) (hsz1 ▸ hroom) htop,
      ?_, ?_, rfl⟩
    · rw [hsz1, ptr_setFreep]
      exact ptr_setPtr_self (by omega)
    · rw [hsz1, size_setFreep, size_setPtr_of_apart (.inl hb), size_setPtr_self]
      exact size_setSize_self (by decide)
  obtain ⟨hm, hptr3, hsize3, hsz3⟩ := hmore
  have hgrow : u1.mallocLoop 1 (fuel + 2) u.base u.base =
      u3.mallocLoop 1 (fuel + 1) u.base (u3.ptr u.base) :=
    mallocLoop_grow (by rw [hsize1]; decide) rfl hm (by omega)
  -- the new block is cut at its tail
  have hend : hdrAdd u.sz (u3.size u.sz - 1) = u.sz + 4095 * sizeofHeader := by
    rw [hsize3]
    unfold hdrAdd sizeofHeader at *
    omega
  have hret : hdrAdd (u.sz + 4095 * sizeofHeader) 1 = u.sz + 4096 * sizeofHeader := by
    unfold hdrAdd sizeofHeader at *
    omega
  rw [hmalloc, hgrow, hptr3, mallocLoop_split (by rw [hsize3]; decide), hend, hret]
  exact ⟨_, rfl, hsz3, size_setSize_self (by decide)⟩

/-- A process whose break is at `0x5000` and whose `base` is at `0x2000`, before its first
`malloc`; `sbrk` can take it up to `KERNBASE`, where `allocuvm` stops. -/
def heapStart : Umem where
  mem := fun _ => 0
  base := 0x2000
  freep := 0
  sz := 0x5000
  top := KERNBASE - 1

/-- `malloc(0xffffffff)` there returns `0xd000`, the new break: the block it hands out is its
header alone, and every byte the caller may write is past the heap. -/
theorem malloc_returns_break :
    (heapStart.malloc 0xFFFFFFFF 2).map (fun r => (r.1, r.2.sz, r.2.size (r.1 - 8))) =
      some (0xD000, 0xD000, 1) := by
  obtain ⟨u', h, hsz, hsize⟩ := malloc_huge_first (u := heapStart) rfl (by decide) (by decide)
    (by decide) (by decide) (show 2 ^ 32 - 7 ≤ 0xFFFFFFFF by decide) (by decide)
  rw [show (2 : Nat) = 0 + 2 from rfl, h]
  simp only [Option.map_some, hsz]
  rw [show heapStart.sz + 4096 * sizeofHeader - 8 = heapStart.sz + 4095 * sizeofHeader from rfl,
    hsize]
  rfl

end Umem

end Xv6
