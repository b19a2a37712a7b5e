import Xv6.Lib.Except

/-!
# Interrupts under spinlocks: `pushcli`, `popcli` and `sched`

A CPU keeps interrupts off while it holds a spinlock: `acquire` calls `pushcli` and `release`
calls `popcli`. The calls nest. `cpu->ncli` counts the `pushcli`s not yet undone, the outermost
one records in `cpu->intena` whether interrupts were on (`FL_IF`), and the `popcli` that brings
the count back to zero turns them on again if they were. `popcli` panics if interrupts are on
or if there is no `pushcli` to undo. `sched` switches to the scheduler holding one lock; the
code the CPU runs before it switches back may change `cpu->intena`, which `sched` saves before
the switch and puts back after it.

A thread's calls on its CPU are a list of `CpuCall`s, and `depth d cs` is the nesting depth after
them from depth `d`, if each may be made where it is: `popcli` after a `pushcli` it undoes,
`sched` at depth one, `sti` at depth zero. `CliInv e d` is the interrupt state at depth `d`:
`ncli` is `d`, and above zero interrupts are off and `intena` is `e`, the value `FL_IF` had
before the outermost `pushcli`. Each call keeps it (`step_inv`), so every such list runs
without a panic with interrupts off above depth zero (`run_inv`), and the outermost `popcli`
puts back the `FL_IF` of before the outermost `pushcli` (`run_pair`).
-/

namespace Xv6

/-- The interrupt state of a CPU: `cpu->ncli`, `cpu->intena`, and the bit `FL_IF` of `eflags`,
the only one of its bits these functions read or write. -/
structure Cpu where
  /-- Depth of `pushcli` nesting. -/
  ncli : Int
  /-- Were interrupts enabled before `pushcli`? -/
  intena : Bool
  /-- `FL_IF`: interrupts are enabled. -/
  intr : Bool
  deriving DecidableEq, Repr

/-- A call a thread makes on its CPU. `cli()` and `sti()` are those of `x86.h`, as `panic` and
`scheduler` call them; an interrupt taken at depth zero is a `cli` and, at its `iret`, an
`sti`. -/
inductive CpuCall where
  | pushcli
  | popcli
  /-- `sched()`, finding `cpu->intena` as `other` when the CPU comes back. -/
  | sched (other : Bool)
  | cli
  | sti
  deriving DecidableEq, Repr

namespace Cpu

/-- `pushcli()`: read `eflags`, `cli()`, and record `FL_IF` at the outermost call. -/
def pushcli (c : Cpu) : Cpu :=
  let eflags := c.intr
  -- `if(cpu->ncli++ == 0) cpu->intena = eflags & FL_IF;` after `cli()`
  { ncli := c.ncli + 1, intena := if c.ncli = 0 then eflags else c.intena, intr := false }

/-- `popcli()`. -/
def popcli (c : Cpu) : Except String Cpu :=
  if c.intr then .error "popcli - interruptible"
  else
    let ncli := c.ncli - 1
    if ncli < 0 then .error "popcli"
    else .ok { c with ncli := ncli, intr := if ncli = 0 ∧ c.intena then true else c.intr }

/-- `sched()` as the thread that calls it sees its CPU: the checks of `ncli` and `FL_IF`, the
switch to the scheduler, and the switch back, which finds `ncli` at one and interrupts off, as
the scheduler holding `ptable.lock` leaves them, and `cpu->intena` as the code run in between
left it, `other`; then the `intena` saved before the switch is put back. The checks that
`ptable.lock` is held and that the process is not running read no interrupt state. -/
def sched (c : Cpu) (other : Bool) : Except String Cpu :=
  if c.ncli ≠ 1 then .error "sched locks"
  else if c.intr then .error "sched interruptible"
  else
    let intena := c.intena
    -- `swtch(&proc->context, cpu->scheduler)`, and back
    let c : Cpu := { ncli := 1, intena := other, intr := false }
    .ok { c with intena := intena }

/-- One call. -/
def step (c : Cpu) : CpuCall → Except String Cpu
  | .pushcli => .ok c.pushcli
  | .popcli => c.popcli
  | .sched other => c.sched other
  | .cli => .ok { c with intr := false }
  | .sti => .ok { c with intr := true }

/-- The calls one after another. -/
def run (c : Cpu) (cs : List CpuCall) : Except String Cpu := cs.foldlM step c

@[simp] theorem run_nil (c : Cpu) : c.run [] = .ok c := rfl

theorem run_cons (c : Cpu) (a : CpuCall) (cs : List CpuCall) :
    c.run (a :: cs) = c.step a >>= fun c' => c'.run cs := by
  simp only [run, List.foldlM_cons]

theorem run_append (c : Cpu) (cs cs' : List CpuCall) :
    c.run (cs ++ cs') = c.run cs >>= fun c' => c'.run cs' := by
  simp only [run, List.foldlM_append]

end Cpu

/-- The depth after a call made at depth `d`, if it may be made there. -/
def CpuCall.depth : CpuCall → Nat → Option Nat
  | .pushcli, d => some (d + 1)
  | .popcli, d => if d = 0 then none else some (d - 1)
  | .sched _, d => if d = 1 then some d else none
  | .cli, d => some d
  | .sti, d => if d = 0 then some d else none

/-- The depth after the calls from depth `d`, if each may be made where it is. -/
def depth (d : Nat) (cs : List CpuCall) : Option Nat := cs.foldlM (fun d a => a.depth d) d

@[simp] theorem depth_nil (d : Nat) : depth d [] = some d := rfl

theorem depth_cons (d : Nat) (a : CpuCall) (cs : List CpuCall) :
    depth d (a :: cs) = (a.depth d).bind fun d' => depth d' cs := by
  simp only [depth, List.foldlM_cons]
  rfl

/-- A list of calls that may be made is one whose every beginning may be. -/
theorem depth_take {d e : Nat} {cs : List CpuCall} (h : depth d cs = some e) (k : Nat) :
    ∃ e', depth d (cs.take k) = some e' := by
  induction cs generalizing d k with
  | nil => exact ⟨d, by simp⟩
  | cons a cs ih =>
    rw [depth_cons, Option.bind_eq_some_iff] at h
    obtain ⟨d', ha, hcs⟩ := h
    cases k with
    | zero => exact ⟨d, rfl⟩
    | succ k =>
      obtain ⟨e', he'⟩ := ih hcs k
      exact ⟨e', by rw [List.take_succ_cons, depth_cons, ha, Option.bind_some, he']⟩

/-- The interrupt state at depth `d`: `ncli` is `d`, and above zero interrupts are off and
`intena` holds `e`, the value `FL_IF` had before the outermost `pushcli`. -/
def CliInv (e : Bool) (d : Nat) (c : Cpu) : Prop :=
  c.ncli = d ∧ (0 < d → c.intr = false ∧ c.intena = e)

section Step

variable {e : Bool} {d d' : Nat} {c : Cpu}

theorem CliInv.zero (h : c.ncli = 0) : CliInv e 0 c := ⟨h, fun h0 => absurd h0 (Nat.lt_irrefl 0)⟩

theorem pushcli_inv (hc : CliInv e d c) : CliInv (if d = 0 then c.intr else e) (d + 1) c.pushcli := by
  obtain ⟨hn, hi⟩ := hc
  refine ⟨by simp [Cpu.pushcli, hn], fun _ => ⟨rfl, ?_⟩⟩
  by_cases hd : d = 0
  · simp [Cpu.pushcli, hn, hd]
  · have hne : c.ncli ≠ 0 := by omega
    simp [Cpu.pushcli, hne, hd, (hi (by omega)).2]

/-- `popcli` above zero succeeds; the outermost one turns interrupts on if they were on before
the outermost `pushcli`. -/
theorem popcli_inv (hc : CliInv e (d + 1) c) :
    ∃ c', c.popcli = .ok c' ∧ CliInv e d c' ∧ (d = 0 → c'.intr = e) := by
  obtain ⟨hn, hi⟩ := hc
  obtain ⟨hoff, hena⟩ := hi (Nat.succ_pos d)
  have hpos : ¬(c.ncli - 1 < 0) := by omega
  refine ⟨_, by rw [Cpu.popcli, if_neg (by simp [hoff]), if_neg hpos], ⟨by simp [hn], ?_⟩, ?_⟩
  · intro hd
    have hne : c.ncli - 1 ≠ 0 := by omega
    simp [hne, hoff, hena]
  · intro hd
    subst hd
    have h0 : c.ncli - 1 = 0 := by omega
    cases e <;> simp [h0, hoff, hena]

/-- `sched` at depth one succeeds and comes back to the same interrupt state, whatever the
code run in between left in `cpu->intena`. -/
theorem sched_inv (hc : CliInv e 1 c) (other : Bool) : c.sched other = .ok c := by
  obtain ⟨hn, hi⟩ := hc
  obtain ⟨hoff, -⟩ := hi Nat.one_pos
  have hn1 : c.ncli = 1 := by simpa using hn
  rw [Cpu.sched, if_neg (by simp [hn1]), if_neg (by simp [hoff])]
  cases c
  simp_all

/-- One call where it may be made: it succeeds and keeps the interrupt state. The outermost
`pushcli` sets what `FL_IF` was before it, and the outermost `popcli` puts that back. -/
theorem step_inv {a : CpuCall} (hc : CliInv e d c) (ha : a.depth d = some d') :
    ∃ c', c.step a = .ok c' ∧ CliInv (if d = 0 then c.intr else e) d' c' ∧
      (0 < d → d' = 0 → c'.intr = e) := by
  cases a with
  | pushcli =>
    cases ha
    exact ⟨_, rfl, pushcli_inv hc, fun _ h => absurd h (Nat.succ_ne_zero d)⟩
  | popcli =>
    -- a `popcli` may be made only above zero
    cases d with
    | zero => simp [CpuCall.depth] at ha
    | succ d =>
      simp only [CpuCall.depth, Nat.add_one_ne_zero, if_false, Nat.add_sub_cancel,
        Option.some.injEq] at ha
      subst ha
      obtain ⟨c', hpop, hinv, hout⟩ := popcli_inv hc
      exact ⟨c', hpop, by simpa using hinv, fun _ => hout⟩
  | sched other =>
    simp only [CpuCall.depth, Option.ite_none_right_eq_some, Option.some.injEq] at ha
    obtain ⟨rfl, rfl⟩ := ha
    exact ⟨c, sched_inv hc other, by simpa using hc, fun _ h => absurd h (by omega)⟩
  | cli =>
    cases ha
    refine ⟨_, rfl, ⟨hc.1, fun hd => ⟨rfl, ?_⟩⟩, fun _ h => absurd h (by omega)⟩
    simp [(hc.2 hd).2, Nat.pos_iff_ne_zero.mp hd]
  | sti =>
    simp only [CpuCall.depth, Option.ite_none_right_eq_some, Option.some.injEq] at ha
    obtain ⟨rfl, rfl⟩ := ha
    exact ⟨_, rfl, ⟨hc.1, fun h => absurd h (Nat.lt_irrefl 0)⟩, fun h => absurd h (Nat.lt_irrefl 0)⟩

end Step

/-- Calls that may be made where they are run without a panic and leave the interrupt state
of the depth they end at. -/
theorem run_inv {cs : List CpuCall} :
    ∀ {e : Bool} {d d' : Nat} {c : Cpu}, CliInv e d c → depth d cs = some d' →
      ∃ e' c', c.run cs = .ok c' ∧ CliInv e' d' c' := by
  induction cs with
  | nil =>
    intro e d d' c hc hd
    cases hd
    exact ⟨e, c, rfl, hc⟩
  | cons a cs ih =>
    intro e d d' c hc hd
    rw [depth_cons, Option.bind_eq_some_iff] at hd
    obtain ⟨d₁, ha, hcs⟩ := hd
    obtain ⟨c₁, hstep, hinv, -⟩ := step_inv hc ha
    obtain ⟨e', c', hrun, hinv'⟩ := ih hinv hcs
    exact ⟨e', c', by rw [Cpu.run_cons, hstep, Except.ok_bind, hrun], hinv'⟩

/-- Calls that stay above depth zero keep `intena`, whatever `sched` finds in between. -/
theorem run_above {cs : List CpuCall} :
    ∀ {e : Bool} {d d' : Nat} {c : Cpu}, CliInv e (d + 1) c → depth (d + 1) cs = some (d' + 1) →
      (∀ k ≤ cs.length, ∃ j, depth (d + 1) (cs.take k) = some (j + 1)) →
      ∃ c', c.run cs = .ok c' ∧ CliInv e (d' + 1) c' := by
  induction cs with
  | nil =>
    intro e d d' c hc hd _
    cases hd
    exact ⟨c, rfl, hc⟩
  | cons a cs ih =>
    intro e d d' c hc hd habove
    rw [depth_cons, Option.bind_eq_some_iff] at hd
    obtain ⟨d₁, ha, hcs⟩ := hd
    -- the depth after the first call is above zero too
    obtain ⟨j, hj⟩ := habove 1 (by simp)
    rw [List.take_succ_cons, List.take_zero, depth_cons, ha, Option.bind_some, depth_nil,
      Option.some.injEq] at hj
    subst hj
    obtain ⟨c₁, hstep, hinv, -⟩ := step_inv hc ha
    rw [if_neg (Nat.succ_ne_zero d)] at hinv
    have habove' : ∀ k ≤ cs.length, ∃ i, depth (j + 1) (cs.take k) = some (i + 1) := by
      intro k hk
      obtain ⟨i, hi⟩ := habove (k + 1) (by simpa using hk)
      rw [List.take_succ_cons, depth_cons, ha, Option.bind_some] at hi
      exact ⟨i, hi⟩
    obtain ⟨c', hrun, hinv'⟩ := ih hinv hcs habove'
    exact ⟨c', by rw [Cpu.run_cons, hstep, Except.ok_bind, hrun], hinv'⟩

/-- An outermost `pushcli` and the `popcli` that undoes it, from depth zero: interrupts are
as they were before. -/
theorem run_pair {mid : List CpuCall} {c : Cpu} (hc : c.ncli = 0) (hmid : depth 1 mid = some 1)
    (habove : ∀ k ≤ mid.length, ∃ j, depth 1 (mid.take k) = some (j + 1)) :
    ∃ c', c.run (.pushcli :: mid ++ [.popcli]) = .ok c' ∧ c'.ncli = 0 ∧ c'.intr = c.intr := by
  have h1 : CliInv c.intr 1 c.pushcli := by simpa using pushcli_inv (CliInv.zero (e := c.intr) hc)
  obtain ⟨cm, hrun, hinv⟩ := run_above h1 hmid habove
  obtain ⟨c', hpop, hinv', hout⟩ := popcli_inv hinv
  refine ⟨c', ?_, by simpa using hinv'.1, hout rfl⟩
  rw [Cpu.run_append, Cpu.run_cons, Cpu.step, Except.ok_bind, hrun, Except.ok_bind, Cpu.run_cons,
    Cpu.step, hpop, Except.ok_bind, Cpu.run_nil]

/-- Interrupt nesting on one CPU. From depth zero and any `FL_IF`, a list of calls in which
every `popcli` undoes an earlier `pushcli` and `sched` holds one lock runs without a panic;
interrupts are off wherever `ncli` is above zero; and the `popcli` that undoes an outermost
`pushcli` leaves `FL_IF` as it was before that `pushcli`. -/
theorem cli_nesting (c : Cpu) (cs : List CpuCall) (n : Nat) (hc : c.ncli = 0)
    (hd : depth 0 cs = some n) :
    (∃ c', c.run cs = .ok c' ∧ c'.ncli = n) ∧
    (∀ k c', c.run (cs.take k) = .ok c' → 0 < c'.ncli → c'.intr = false) ∧
    (∀ pre mid post, cs = pre ++ .pushcli :: mid ++ .popcli :: post → depth 0 pre = some 0 →
      depth 1 mid = some 1 → (∀ k ≤ mid.length, ∃ j, depth 1 (mid.take k) = some (j + 1)) →
      ∃ c₁ c₂, c.run pre = .ok c₁ ∧ c.run (pre ++ .pushcli :: mid ++ [.popcli]) = .ok c₂ ∧
        c₂.intr = c₁.intr) := by
  have h0 : CliInv false 0 c := CliInv.zero hc
  refine ⟨?_, ?_, ?_⟩
  · obtain ⟨_, c', hrun, hinv⟩ := run_inv h0 hd
    exact ⟨c', hrun, hinv.1⟩
  · -- every beginning of the list may be made, so the invariant holds after it
    intro k c' hrun hpos
    obtain ⟨n', hn'⟩ := depth_take hd k
    obtain ⟨_, c'', hrun', hinv⟩ := run_inv h0 hn'
    rw [hrun, Except.ok.injEq] at hrun'
    subst hrun'
    have hn0 : 0 < n' := by have := hinv.1; omega
    exact (hinv.2 hn0).1
  · intro pre mid post _ hpre hmid habove
    obtain ⟨_, c₁, hrun₁, hinv₁⟩ := run_inv h0 hpre
    obtain ⟨c₂, hpair, -, hintr⟩ := run_pair (by simpa using hinv₁.1) hmid habove
    refine ⟨c₁, c₂, hrun₁, ?_, hintr⟩
    rw [List.append_assoc, Cpu.run_append, hrun₁, Except.ok_bind, hpair]

/-- `sleep` on a lock `lk` held once: `acquire(&ptable.lock)`, `release(lk)`, `sched()`, and
after the wakeup `release(&ptable.lock)` and `acquire(lk)` again. -/
theorem cli_nesting_sleep :
    (⟨0, true, true⟩ : Cpu).ncli = 0 ∧
      depth 0 [.pushcli, .pushcli, .popcli, .sched false, .popcli, .pushcli] = some 1 ∧
      ∃ c', (⟨0, true, true⟩ : Cpu).run [.pushcli, .pushcli, .popcli, .sched false, .popcli,
        .pushcli] = .ok c' ∧ c'.ncli = 1 :=
  ⟨rfl, rfl, (cli_nesting ⟨0, true, true⟩ _ 1 rfl rfl).1⟩

end Xv6
