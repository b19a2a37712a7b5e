import Xv6.Exec

/-!
# `mpinit`

`mpinit` of `mp.c` finds the MP configuration table the firmware left in memory, checks it with
`mpconfig` (the signature `"PCMP"`, version 1 or 4, and bytes that add up to zero over the
table's `length`), and walks its entries. A processor entry takes the next slot of `cpus`, an
I/O APIC entry sets `ioapicid`, the three other known types are skipped, and an unknown type
clears `ismp`. If `ismp` ends cleared the kernel falls back to one processor.

The walk trusts the table twice. An unknown entry type clears `ismp` but does not move `p`, so
the loop meets the same entry again forever (`walk_unknown`). And a processor entry writes
`cpus[ncpu]` whatever `ncpu` is: the ninth one writes past the end of `cpus`, which is the
error `"cpus[ncpu] out of bounds"` here (`walk_cpus_overflow`).

The table is the list of bytes at `mp->physaddr`; bytes past its end read as zero. The search
for the floating pointer (`mpsearch`) and the IMCR write for `mp->imcrp` are not modelled.
-/

namespace Xv6

namespace Mp

/-- Table entry types (`mp.h`). -/
def MPPROC : Nat := 0x00
def MPBUS : Nat := 0x01
def MPIOAPIC : Nat := 0x02
def MPIOINTR : Nat := 0x03
def MPLINTR : Nat := 0x04

/-- The flag of the bootstrap processor's entry. -/
def MPBOOT : Nat := 0x02

/-- `sizeof(struct mpconf)`, the header the entries follow. -/
def mpconfSize : Nat := 44
/-- `sizeof(struct mpproc)`. -/
def mpprocSize : Nat := 20
/-- `sizeof(struct mpioapic)`. -/
def mpioapicSize : Nat := 8

/-- `sum(addr, len)`: the first `len` bytes added up, as a `uchar`. -/
def sum (b : List UInt8) (len : Nat) : Nat :=
  ((List.range len).map fun i => (b.getD i 0).toNat).sum % 256

/-- The checks `mpconfig` makes of the table: signature, version and checksum. -/
def mpconfig (conf : List UInt8) : Bool :=
  (List.range 4).map (conf.getD · 0) == cstr "PCMP" &&
    (conf.getD 6 0 == 1 || conf.getD 6 0 == 4) && sum conf (le16 conf 4) == 0

/-- The globals of `mp.c` that `mpinit` sets; `cpus` holds each slot's `id`, and `bcpu` is the
index of `bcpu` in `cpus`. -/
structure Globals where
  ismp : Bool
  ncpu : Nat
  bcpu : Nat
  cpus : Fin NCPU → Nat
  ioapicid : UInt8
  lapic : Nat

/-- The globals at boot: all zero, `bcpu = &cpus[0]`. -/
def Globals.init : Globals := ⟨false, 0, 0, fun _ => 0, 0, 0⟩

/-- One round of the loop at the entry at `p`: the new globals and where `p` goes. -/
def step (conf : List UInt8) (p : Nat) (m : Globals) : Except String (Nat × Globals) :=
  let type := (conf.getD p 0).toNat
  if type = MPPROC then
    let m := { m with
      ismp := m.ismp && m.ncpu == (conf.getD (p + 1) 0).toNat
      bcpu := if (conf.getD (p + 3) 0).toNat &&& MPBOOT ≠ 0 then m.ncpu else m.bcpu }
    if h : m.ncpu < NCPU then
      .ok (p + mpprocSize,
        { m with cpus := Function.update m.cpus ⟨m.ncpu, h⟩ m.ncpu, ncpu := m.ncpu + 1 })
    else .error "cpus[ncpu] out of bounds"
  else if type = MPIOAPIC then .ok (p + mpioapicSize, { m with ioapicid := conf.getD (p + 1) 0 })
  else if type = MPBUS ∨ type = MPIOINTR ∨ type = MPLINTR then .ok (p + 8, m)
  -- `default:` prints the type and clears `ismp`, and leaves `p` where it is
  else .ok (p, { m with ismp := false })

/-- The loop `for(p = conf+1, e = conf+length; p < e; )`, with `fuel` rounds at most; `none` when
the fuel runs out. -/
def walk (conf : List UInt8) (e : Nat) : Nat → Nat → Globals → Option (Except String Globals)
  | 0, p, m => if p < e then none else some (.ok m)
  | fuel + 1, p, m =>
    if p < e then
      match step conf p m with
      | .error err => some (.error err)
      | .ok (p', m') => walk conf e fuel p' m'
    else some (.ok m)

/-- `mpinit`, with `fuel` rounds of the loop. -/
def mpinit (fuel : Nat) (conf : List UInt8) : Option (Except String Globals) :=
  if mpconfig conf then
    match walk conf (le16 conf 4) fuel mpconfSize
        { Globals.init with ismp := true, lapic := le32 conf 36 } with
    | some (.ok m) =>
      -- didn't like what we found; fall back to no MP
      some (.ok (if m.ismp then m else { m with ncpu := 1, lapic := 0, ioapicid := 0 }))
    | r => r
  else some (.ok Globals.init)

variable {conf : List UInt8} {e p : Nat} {m : Globals}

theorem walk_succ_of_lt (hp : p < e) (fuel : Nat) :
    walk conf e (fuel + 1) p m =
      match step conf p m with
      | .error err => some (.error err)
      | .ok (p', m') => walk conf e fuel p' m' := by
  rw [walk, if_pos hp]

/-- An unknown entry type: `p` stays, and `ismp` is cleared. -/
theorem step_unknown (ht : 4 < (conf.getD p 0).toNat) :
    step conf p m = .ok (p, { m with ismp := false }) := by
  have h0 : (conf.getD p 0).toNat ≠ MPPROC := by unfold MPPROC; omega
  have h2 : (conf.getD p 0).toNat ≠ MPIOAPIC := by unfold MPIOAPIC; omega
  have hrest : ¬((conf.getD p 0).toNat = MPBUS ∨ (conf.getD p 0).toNat = MPIOINTR ∨
      (conf.getD p 0).toNat = MPLINTR) := by
    unfold MPBUS MPIOINTR MPLINTR; omega
  rw [step]
  dsimp only
  rw [if_neg h0, if_neg h2, if_neg hrest]

/-- A processor entry: the state after it when `cpus` has room, the error otherwise. -/
theorem step_proc (ht : conf.getD p 0 = 0) :
    step conf p m =
      if m.ncpu < NCPU then .ok (p + mpprocSize, { m with
        ismp := m.ismp && m.ncpu == (conf.getD (p + 1) 0).toNat
        bcpu := if (conf.getD (p + 3) 0).toNat &&& MPBOOT ≠ 0 then m.ncpu else m.bcpu
        cpus := fun i => if i.val = m.ncpu then m.ncpu else m.cpus i
        ncpu := m.ncpu + 1 })
      else .error "cpus[ncpu] out of bounds" := by
  have h0 : (0 : UInt8).toNat = MPPROC := rfl
  rw [step]
  dsimp only
  rw [ht, if_pos h0]
  by_cases h : m.ncpu < NCPU
  · rw [dif_pos h, if_pos h]
    congr 3
    funext i
    simp only [Function.update_apply, Fin.ext_iff]
  · rw [dif_neg h, if_neg h]

/-- Once the loop meets an entry it does not know, it never leaves it: every fuel runs out. -/
theorem walk_unknown (hp : p < e) (ht : 4 < (conf.getD p 0).toNat) (fuel : Nat) :
    walk conf e fuel p m = none := by
  -- each round leaves `p` and only clears `ismp`, so the state is the same from the second on
  induction fuel generalizing m with
  | zero => rw [walk, if_pos hp]
  | succ fuel ih => rw [walk_succ_of_lt hp, step_unknown ht]; exact ih

/-- A run of processor entries one after the other, as many as `cpus` has slots left and one
more, ends in the write past the end of `cpus`. -/
theorem walk_cpus_overflow (hm : m.ncpu ≤ NCPU) (he : p + mpprocSize * (NCPU - m.ncpu) < e)
    (hproc : ∀ i ≤ NCPU - m.ncpu, conf.getD (p + mpprocSize * i) 0 = 0) {fuel : Nat}
    (hfuel : NCPU - m.ncpu < fuel) :
    walk conf e fuel p m = some (.error "cpus[ncpu] out of bounds") := by
  -- induction on the slots left, with the entry's position and the globals generalized
  obtain ⟨n, hn⟩ : ∃ n, NCPU - m.ncpu = n := ⟨_, rfl⟩
  rw [hn] at he hproc hfuel
  obtain ⟨fuel, rfl⟩ : ∃ f, fuel = f + 1 := ⟨fuel - 1, by omega⟩
  have hp : p < e := by omega
  have h0 : conf.getD p 0 = 0 := by simpa using hproc 0 (Nat.zero_le n)
  induction n generalizing p m fuel with
  | zero =>
    have hfull : ¬m.ncpu < NCPU := by omega
    rw [walk_succ_of_lt hp, step_proc h0, if_neg hfull]
  | succ n ih =>
    have hroom : m.ncpu < NCPU := by omega
    rw [walk_succ_of_lt hp, step_proc h0, if_pos hroom]
    obtain ⟨f, rfl⟩ : ∃ f, fuel = f + 1 := ⟨fuel - 1, by omega⟩
    -- the next entry is the first of the remaining run
    have hnext : ∀ i ≤ n, conf.getD (p + mpprocSize + mpprocSize * i) 0 = 0 := fun i hi => by
      have hi' := hproc (i + 1) (by omega)
      rwa [Nat.mul_add_one, Nat.add_comm (mpprocSize * i), ← Nat.add_assoc] at hi'
    have he' : p + mpprocSize + mpprocSize * n < e := by rw [Nat.mul_add_one] at he; omega
    refine ih ?_ hnext he' ?_ f (by omega) (by omega) (by simpa using hnext 0 (Nat.zero_le n))
    · exact hroom
    · dsimp only
      omega

/-- A version-1 table with the entries `entries` and the checksum byte that makes its bytes add
up to zero. -/
def mkTable (entries : List UInt8) : List UInt8 :=
  let len := mpconfSize + entries.length
  let head := cstr "PCMP" ++ [UInt8.ofNat len, UInt8.ofNat (len / 256), 1]
  let rest := List.replicate 36 0 ++ entries
  head ++ [UInt8.ofNat (256 - sum (head ++ rest) len)] ++ rest

/-- A table with one entry of type 5, which no version of the MP specification xv6 reads has. -/
def tableUnknown : List UInt8 := mkTable [5, 0, 0, 0]

/-- A table with nine processor entries, APIC ids 0 to 8, the first the bootstrap processor. -/
def tableNineCpus : List UInt8 :=
  mkTable ((List.range 9).flatMap fun i =>
    [0, UInt8.ofNat i, 0x14, if i = 0 then 3 else 1] ++ List.replicate 16 0)

theorem mpinit_unbounded :
    mpconfig tableUnknown = true ∧ (∀ fuel, mpinit fuel tableUnknown = none) ∧
      mpconfig tableNineCpus = true ∧
      ∀ fuel, NCPU < fuel →
        mpinit fuel tableNineCpus = some (.error "cpus[ncpu] out of bounds") := by
  have hu : mpconfig tableUnknown = true := by decide +kernel
  have hn : mpconfig tableNineCpus = true := by decide +kernel
  refine ⟨hu, fun fuel => ?_, hn, fun fuel hfuel => ?_⟩
  · rw [mpinit, if_pos hu, walk_unknown (by decide +kernel) (by decide +kernel)]
  · rw [mpinit, if_pos hn,
      walk_cpus_overflow (by decide) (by decide +kernel) (by decide +kernel) (by exact hfuel)]

end Mp

end Xv6
