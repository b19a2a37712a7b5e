import Xv6.Proc.Table

/-!
# Sleep and wakeup, one lock operation at a time

`sleep(chan, lk)` and `wakeup(chan)` of `proc.c` with the two locks they use: `ptable.lock`,
and the spinlock `lk` that guards the sleeper's condition. Processes run the two halves of the
pattern the comment in `sleep` is written for, with the bodies of `sleep`, `wakeup` and
`wakeup1` inlined; `Pc` names the points between their statements:

    sleeper:  acquire(lk); while(!cond) sleep(chan, lk); ... release(lk);
    waker:    acquire(lk); cond = 1; wakeup(chan); release(lk);

When `lk` is `ptable.lock` itself (`same`, as in `wait`), `sleep` skips the hand-over of the
locks and the waker calls `wakeup1` with `ptable.lock` held. The scheduler of any CPU, and any
kernel code running there, takes and releases `ptable.lock`; the scheduler hands it to a
runnable sleeper it switches to, and a sleeper that calls `sched` hands it to its CPU's
scheduler. `kill` makes a sleeping process runnable under `ptable.lock`. Each step is one
statement of one process or one such action, so the runs are the interleavings on any number
of CPUs, with any number of sleepers and wakers on the channel.

A waker records, as a history variable, which processes were inside `sleep` when it acquired
`lk` (`SProc.before`). `no_lost_wakeup`: once its `wakeup` has returned, none of them is
sleeping on the channel. `SSys.Inv` carries the argument: who holds each lock at each point of
the programs, where a sleeping process can be, and where the sleepers the waker saw can be
while it holds `lk`.
-/

namespace Xv6

namespace Sleep

/-- The points of the two programs. -/
inductive Pc where
  /-- sleeper: `acquire(lk)` -/
  | sAcquire
  /-- sleeper: the test of `while(!cond)` -/
  | sCheck
  /-- `sleep`: `acquire(&ptable.lock)` -/
  | sPtAcquire
  /-- `sleep`: `release(lk)` -/
  | sRelease
  /-- `sleep`: `proc->chan = chan; proc->state = SLEEPING` -/
  | sSet
  /-- `sleep`: `sched()` -/
  | sSched
  /-- `sleep`: switched out, until the scheduler switches back -/
  | sAsleep
  /-- `sleep`: `proc->chan = 0; release(&ptable.lock)` -/
  | sTidy
  /-- `sleep`: `acquire(lk)` -/
  | sReacquire
  /-- sleeper: the condition holds; it works under `lk`, then `release(lk)` -/
  | sDone
  /-- waker: `acquire(lk)` -/
  | wAcquire
  /-- waker: `cond = 1` -/
  | wSet
  /-- `wakeup`: `acquire(&ptable.lock)` -/
  | wPtAcquire
  /-- `wakeup1(chan)` -/
  | wScan
  /-- `wakeup`: `release(&ptable.lock)` -/
  | wPtRelease
  /-- waker: `wakeup` has returned; `release(lk)` -/
  | wRelease
  deriving DecidableEq, Repr

namespace Pc

/-- The points where the process holds `lk`; when `lk` is `ptable.lock`, also those where it
holds `ptable.lock` in `sleep`. (`sPtAcquire`, `sRelease`, `wPtAcquire`, `wPtRelease` and
`sReacquire` are passed only when `lk` is another lock.) -/
def holdsLk (same : Bool) : Pc → Bool
  | sCheck | sPtAcquire | sRelease | sDone | wSet | wPtAcquire | wScan | wPtRelease | wRelease =>
    true
  | sSet | sSched | sTidy => same
  | _ => false

/-- The points where the process holds `ptable.lock`; when `lk` is `ptable.lock`, also those
where it holds `lk`. -/
def holdsPt (same : Bool) : Pc → Bool
  | sRelease | sSet | sSched | sTidy | wScan | wPtRelease => true
  | sCheck | sDone | wSet | wRelease => same
  | _ => false

/-- The points inside a call of `sleep`. -/
def inSleep : Pc → Bool
  | sPtAcquire | sRelease | sSet | sSched | sAsleep | sTidy | sReacquire => true
  | _ => false

/-- The points of the hand-over of the locks, passed only when `lk` is not `ptable.lock`. -/
def other : Pc → Bool
  | sPtAcquire | sRelease | sReacquire | wPtAcquire | wPtRelease => true
  | _ => false

end Pc

/-- Who holds a lock: a process, or the scheduler (or other kernel code) of a CPU. -/
inductive Agent where
  | proc (p : Fin NPROC)
  | cpu (c : Fin NCPU)
  deriving DecidableEq, Repr

/-- A process: where it is, its state, whether `p->chan` is the channel, and (a waker's
history variable) the processes that were inside `sleep` when it last acquired `lk`. -/
structure SProc where
  pc : Pc
  state : ProcState
  onChan : Bool
  before : Fin NPROC → Bool

/-- The processes, the holders of `ptable.lock` and `lk`, and the condition. -/
structure SSys where
  proc : Fin NPROC → SProc
  ptlock : Option Agent
  lk : Option Agent
  cond : Bool

/-- A step: process `p`, running on CPU `c`, executes its next statement; the sleeper at
`sDone` changes the condition; a CPU takes or releases `ptable.lock`, or switches to a
runnable sleeper; `kill` of a process. -/
inductive SAct where
  | run (p : Fin NPROC) (c : Fin NCPU)
  | update (p : Fin NPROC) (b : Bool)
  | acquire (c : Fin NCPU)
  | release (c : Fin NCPU)
  | switch (c : Fin NCPU) (p : Fin NPROC)
  | kill (p : Fin NPROC)
  deriving DecidableEq, Repr

namespace SSys

variable (same : Bool)

/-- The holder of `lk`: `ptable.lock`'s when `lk` is `ptable.lock`. -/
def lkHolder (s : SSys) : Option Agent := if same then s.ptlock else s.lk

/-- Set the holder of `lk`. -/
def setLk (s : SSys) (a : Option Agent) : SSys :=
  if same then { s with ptlock := a } else { s with lk := a }

def setProc (s : SSys) (p : Fin NPROC) (x : SProc) : SSys :=
  { s with proc := Function.update s.proc p x }

/-- `wakeup1(chan)`: every process sleeping on the channel becomes runnable. -/
def wakeup1 (s : SSys) : SSys :=
  { s with proc := fun r =>
      if (s.proc r).state = .SLEEPING ∧ (s.proc r).onChan = true then
        { s.proc r with state := .RUNNABLE }
      else s.proc r }

/-- The next statement of process `p`, run on CPU `c`; `none` while it waits for a lock or
is switched out. -/
def runProc (s : SSys) (p : Fin NPROC) (c : Fin NCPU) : Option SSys :=
  let q := s.proc p
  match q.pc with
  | .sAcquire =>
    if s.lkHolder same = none then
      some ((s.setLk same (some (.proc p))).setProc p { q with pc := .sCheck })
    else none
  | .sCheck =>
    some (s.setProc p { q with pc := if s.cond then .sDone else if same then .sSet else .sPtAcquire })
  | .sPtAcquire =>
    if s.ptlock = none then
      some ({ s with ptlock := some (.proc p) }.setProc p { q with pc := .sRelease })
    else none
  | .sRelease => some ({ s with lk := none }.setProc p { q with pc := .sSet })
  | .sSet => some (s.setProc p { q with onChan := true, state := .SLEEPING, pc := .sSched })
  | .sSched => some ({ s with ptlock := some (.cpu c) }.setProc p { q with pc := .sAsleep })
  | .sAsleep => none
  | .sTidy =>
    if same then some (s.setProc p { q with onChan := false, pc := .sCheck })
    else some ({ s with ptlock := none }.setProc p { q with onChan := false, pc := .sReacquire })
  | .sReacquire =>
    if s.lkHolder same = none then
      some ((s.setLk same (some (.proc p))).setProc p { q with pc := .sCheck })
    else none
  | .sDone => some ((s.setLk same none).setProc p { q with pc := .sAcquire })
  | .wAcquire =>
    if s.lkHolder same = none then
      some ((s.setLk same (some (.proc p))).setProc p
        { q with pc := .wSet, before := fun r => (s.proc r).pc.inSleep })
    else none
  | .wSet => some ({ s with cond := true }.setProc p { q with pc := if same then .wScan else .wPtAcquire })
  | .wPtAcquire =>
    if s.ptlock = none then
      some ({ s with ptlock := some (.proc p) }.setProc p { q with pc := .wScan })
    else none
  | .wScan =>
    some ((s.wakeup1).setProc p
      { (s.wakeup1).proc p with pc := if same then .wRelease else .wPtRelease })
  | .wPtRelease => some ({ s with ptlock := none }.setProc p { q with pc := .wRelease })
  | .wRelease => some ((s.setLk same none).setProc p { q with pc := .wAcquire })

/-- One step, `none` if it is not enabled. -/
def step (s : SSys) : SAct → Option SSys
  | .run p c => s.runProc same p c
  | .update p b => if (s.proc p).pc = .sDone then some { s with cond := b } else none
  | .acquire c => if s.ptlock = none then some { s with ptlock := some (.cpu c) } else none
  | .release c => if s.ptlock = some (.cpu c) then some { s with ptlock := none } else none
  | .switch c p =>
    if s.ptlock = some (.cpu c) ∧ (s.proc p).state = .RUNNABLE ∧ (s.proc p).pc = .sAsleep then
      some ({ s with ptlock := some (.proc p) }.setProc p
        { s.proc p with state := .RUNNING, pc := .sTidy })
    else none
  | .kill p =>
    if s.ptlock = none then
      some (if (s.proc p).state = .SLEEPING then s.setProc p { s.proc p with state := .RUNNABLE }
        else s)
    else none

/-- The start: the sleepers (`role p`) and the wakers at their first `acquire(lk)`, both locks
free. -/
def init (role : Fin NPROC → Bool) (cond : Bool) : SSys :=
  { proc := fun p => ⟨if role p then .sAcquire else .wAcquire, .RUNNING, false, fun _ => false⟩,
    ptlock := none, lk := none, cond := cond }

end SSys

/-- The states of all runs. -/
inductive Reachable (same : Bool) : SSys → Prop
  | init (role : Fin NPROC → Bool) (cond : Bool) : Reachable same (SSys.init role cond)
  | step {s s' : SSys} (a : SAct) : Reachable same s → s.step same a = some s' → Reachable same s'

namespace Pc

/-- Where a sleeper that a waker saw inside `sleep` can be while the waker holds `lk` and has
not yet scanned: `lk` was free when the waker took it, so the sleeper had passed
`release(lk)`. -/
def seen : Pc → Bool
  | sSet | sSched | sAsleep | sTidy | sReacquire => true
  | _ => false

/-- … and once the waker has scanned: the sleeper is no longer at a point that holds
`ptable.lock` before it sleeps. -/
def woken : Pc → Bool
  | sAsleep | sTidy | sReacquire => true
  | _ => false

/-- The waker holds `lk` and has not yet run `wakeup1`. -/
def scanning : Pc → Bool
  | wSet | wPtAcquire | wScan => true
  | _ => false

/-- The waker holds `lk` and has run `wakeup1`. -/
def scanned : Pc → Bool
  | wPtRelease | wRelease => true
  | _ => false

variable {same : Bool}

theorem seen_of_woken {pc : Pc} (h : pc.woken = true) : pc.seen = true := by
  cases pc <;> simp_all [woken, seen]

theorem seen_of_sleepy {pc : Pc} (h : pc = .sSched ∨ pc = .sAsleep) : pc.seen = true := by
  rcases h with rfl | rfl <;> rfl

/-- A waker between acquiring and releasing `lk` holds it. -/
theorem idle_of_not_holdsLk {pc : Pc} (h : pc.holdsLk same = false) :
    pc.scanning = false ∧ pc.scanned = false := by
  cases pc <;> simp_all [holdsLk, scanning, scanned]

/-- Inside `sleep` and not holding `lk`: past `release(lk)`. -/
theorem seen_of_inSleep {pc : Pc} (h : pc.inSleep = true) (hl : pc.holdsLk same = false) :
    pc.seen = true := by
  cases pc <;> simp_all [inSleep, holdsLk, seen]

/-- Past `release(lk)` and not holding `ptable.lock`: switched out, or past `sched`. -/
theorem woken_of_seen {pc : Pc} (h : pc.seen = true) (hpt : pc.holdsPt same = false) :
    pc.woken = true := by
  cases pc <;> simp_all [seen, holdsPt, woken]

end Pc

/-- Where a sleeper `q` that the waker saw can be when the waker is at `w`. -/
def Pending (w : Pc) (q : SProc) : Prop :=
  (w.scanning = true → q.pc.seen = true) ∧
    (w.scanned = true → q.pc.woken = true ∧ q.state ≠ .SLEEPING)

namespace Pending

variable {w w' : Pc} {q x : SProc}

/-- Nothing is pending on a waker that does not hold `lk`. -/
theorem of_idle (h₁ : w.scanning = false) (h₂ : w.scanned = false) : Pending w q :=
  ⟨fun h => by simp_all, fun h => by simp_all⟩

/-- A sleeper that is past `sched`, and not sleeping, is pending on any waker. -/
theorem of_woken (hw : x.pc.woken = true) (hs : x.state ≠ .SLEEPING) : Pending w x :=
  ⟨fun _ => Pc.seen_of_woken hw, fun _ => ⟨hw, hs⟩⟩

/-- The sleeper moves on: where it could be, it still can. -/
theorem follow (h : Pending w q) (hseen : q.pc.seen = true → x.pc.seen = true)
    (hwoken : q.pc.woken = true → q.state ≠ .SLEEPING → x.pc.woken = true ∧ x.state ≠ .SLEEPING) :
    Pending w x :=
  ⟨fun hw => hseen (h.1 hw), fun hw => hwoken (h.2 hw).1 (h.2 hw).2⟩

/-- The sleeper stays where it is, and a wakeup may have made it runnable. -/
theorem of_woken_or (h : Pending w q) (hpc : x.pc = q.pc) (hs : x.state ≠ .SLEEPING) :
    Pending w x :=
  h.follow (fun h' => hpc ▸ h') (fun h' _ => ⟨hpc ▸ h', hs⟩)

/-- A process the waker did not see inside `sleep` may do anything. -/
theorem of_not_seen (h : Pending w q) (hq : q.pc.seen = false) : Pending w x :=
  h.follow (fun h' => by simp_all) (fun h' => by simp_all [Pc.seen_of_woken h'])

/-- The waker moves on without passing its scan. -/
theorem of_pc (h : Pending w q) (hscan : w'.scanning = true → w.scanning = true)
    (hscanned : w'.scanned = true → w.scanned = true) : Pending w' q :=
  ⟨fun hw => h.1 (hscan hw), fun hw => h.2 (hscanned hw)⟩

/-- A waker never saw itself inside `sleep`. -/
theorem idle_of_self (h : Pending x.pc x) : x.pc.scanning = false ∧ x.pc.scanned = false := by
  obtain ⟨h₁, h₂⟩ := h
  rcases x with ⟨pc, _, _, _⟩
  cases pc <;> simp_all [Pc.scanning, Pc.scanned, Pc.seen, Pc.woken]

end Pending

namespace SSys

variable {same : Bool}

/-- What holds in every reachable state. -/
structure Inv (same : Bool) (s : SSys) : Prop where
  lk : ∀ p, (s.proc p).pc.holdsLk same = true → s.lkHolder same = some (.proc p)
  pt : ∀ p, (s.proc p).pc.holdsPt same = true → s.ptlock = some (.proc p)
  sleeping : ∀ p, (s.proc p).state = .SLEEPING →
    ((s.proc p).pc = .sSched ∨ (s.proc p).pc = .sAsleep) ∧ (s.proc p).onChan = true
  pending : ∀ w q, (s.proc w).before q = true → Pending (s.proc w).pc (s.proc q)
  mode : ∀ p, same = true → (s.proc p).pc.other = false

/-! ## Updates -/

@[simp] theorem setProc_proc_self (s : SSys) (p : Fin NPROC) (x : SProc) :
    (s.setProc p x).proc p = x := by
  simp [setProc]

@[simp] theorem setProc_proc_of_ne (s : SSys) {p r : Fin NPROC} (x : SProc) (h : r ≠ p) :
    (s.setProc p x).proc r = s.proc r := by
  simp [setProc, h]

@[simp] theorem setProc_ptlock (s : SSys) (p : Fin NPROC) (x : SProc) :
    (s.setProc p x).ptlock = s.ptlock := rfl

@[simp] theorem setProc_lkHolder (s : SSys) (p : Fin NPROC) (x : SProc) :
    (s.setProc p x).lkHolder same = s.lkHolder same := rfl

@[simp] theorem lkHolder_setLk (s : SSys) (a : Option Agent) :
    (s.setLk same a).lkHolder same = a := by
  cases same <;> rfl

@[simp] theorem setLk_proc (s : SSys) (a : Option Agent) : (s.setLk same a).proc = s.proc := by
  cases same <;> rfl

theorem setLk_ptlock (s : SSys) (a : Option Agent) :
    (s.setLk same a).ptlock = if same then a else s.ptlock := by
  cases same <;> rfl

theorem lkHolder_ptlock (s : SSys) (a : Option Agent) :
    { s with ptlock := a }.lkHolder same = if same then a else s.lk := by
  cases same <;> rfl

theorem lkHolder_lk (s : SSys) (a : Option Agent) :
    { s with lk := a }.lkHolder same = if same then s.ptlock else a := by
  cases same <;> rfl

/-- When `lk` is `ptable.lock`, the two holders are one. -/
theorem lkHolder_same (s : SSys) : s.lkHolder true = s.ptlock := rfl

/-- `wakeup1` changes only states, and only from `SLEEPING` to `RUNNABLE`. -/
theorem wakeup1_proc (s : SSys) (r : Fin NPROC) :
    (s.wakeup1.proc r).pc = (s.proc r).pc ∧ (s.wakeup1.proc r).onChan = (s.proc r).onChan ∧
      (s.wakeup1.proc r).before = (s.proc r).before ∧
      (s.wakeup1.proc r).state =
        if (s.proc r).state = .SLEEPING ∧ (s.proc r).onChan = true then .RUNNABLE
        else (s.proc r).state := by
  simp only [wakeup1]
  split_ifs <;> simp

/-! ## The invariant -/

variable {s : SSys}

/-- At most one process is at a point that holds `lk`. -/
theorem Inv.lk_unique (hs : s.Inv same) {p r : Fin NPROC}
    (hp : (s.proc p).pc.holdsLk same = true) (hr : (s.proc r).pc.holdsLk same = true) : p = r := by
  have h := (hs.lk p hp).symm.trans (hs.lk r hr)
  simpa using h

/-- At most one process is at a point that holds `ptable.lock`. -/
theorem Inv.pt_unique (hs : s.Inv same) {p r : Fin NPROC}
    (hp : (s.proc p).pc.holdsPt same = true) (hr : (s.proc r).pc.holdsPt same = true) : p = r := by
  have h := (hs.pt p hp).symm.trans (hs.pt r hr)
  simpa using h

/-- A lock no process holds is at no process's point that holds it. -/
theorem Inv.not_holdsLk (hs : s.Inv same) (h : ∀ a, s.lkHolder same ≠ some (.proc a))
    (r : Fin NPROC) : (s.proc r).pc.holdsLk same = false := by
  cases hr : (s.proc r).pc.holdsLk same
  · rfl
  · exact absurd (hs.lk r hr) (h r)

theorem Inv.not_holdsPt (hs : s.Inv same) (h : ∀ a, s.ptlock ≠ some (.proc a))
    (r : Fin NPROC) : (s.proc r).pc.holdsPt same = false := by
  cases hr : (s.proc r).pc.holdsPt same
  · rfl
  · exact absurd (hs.pt r hr) (h r)

/-- A step of process `p` alone: `p`'s record becomes `x`, the others stay, and the locks
change only from free, or from `p`. -/
theorem Inv.setProc (hs : s.Inv same) {X : SSys} (hX : X.proc = s.proc) {p : Fin NPROC}
    {x : SProc}
    (hlk : x.pc.holdsLk same = true → X.lkHolder same = some (.proc p))
    (hpt : x.pc.holdsPt same = true → X.ptlock = some (.proc p))
    (hlkO : X.lkHolder same = s.lkHolder same ∨ ∀ a, s.lkHolder same = some (.proc a) → a = p)
    (hptO : X.ptlock = s.ptlock ∨ ∀ a, s.ptlock = some (.proc a) → a = p)
    (hsl : x.state = .SLEEPING → (x.pc = .sSched ∨ x.pc = .sAsleep) ∧ x.onChan = true)
    (hself : ∀ q, x.before q = true → Pending x.pc (if q = p then x else s.proc q))
    (hother : ∀ w, w ≠ p → (s.proc w).before p = true → Pending (s.proc w).pc x)
    (hmode : same = true → x.pc.other = false) :
    (X.setProc p x).Inv same := by
  have hXr : ∀ r, r ≠ p → (X.setProc p x).proc r = s.proc r := fun r hr => by
    rw [setProc_proc_of_ne _ _ hr, hX]
  refine ⟨fun r hr => ?_, fun r hr => ?_, fun r hr => ?_, fun w q hwq => ?_, fun r hsame => ?_⟩
  · by_cases hrp : r = p
    · subst r
      exact hlk (by simpa using hr)
    · rw [hXr r hrp] at hr
      rw [setProc_lkHolder]
      rcases hlkO with h | h
      · rw [h]
        exact hs.lk r hr
      · exact absurd (h r (hs.lk r hr)) hrp
  · by_cases hrp : r = p
    · subst r
      exact hpt (by simpa using hr)
    · rw [hXr r hrp] at hr
      rw [setProc_ptlock]
      rcases hptO with h | h
      · rw [h]
        exact hs.pt r hr
      · exact absurd (h r (hs.pt r hr)) hrp
  · by_cases hrp : r = p
    · subst r
      simpa using hsl (by simpa using hr)
    · rw [hXr r hrp] at hr ⊢
      exact hs.sleeping r hr
  · by_cases hwp : w = p
    · subst w
      rw [setProc_proc_self] at hwq ⊢
      have := hself q hwq
      by_cases hqp : q = p
      · subst q
        simpa using this
      · rw [if_neg hqp] at this
        rwa [hXr q hqp]
    · rw [hXr w hwp] at hwq ⊢
      by_cases hqp : q = p
      · subst q
        rw [setProc_proc_self]
        exact hother w hwp hwq
      · rw [hXr q hqp]
        exact hs.pending w q hwq
  · by_cases hrp : r = p
    · subst r
      simpa using hmode hsame
    · rw [hXr r hrp]
      exact hs.mode r hsame

/-- A step that moves only the locks, and takes them only from free to a CPU or back. -/
theorem Inv.locks (hs : s.Inv same) {s' : SSys} (hX : s'.proc = s.proc)
    (hpt : s'.ptlock = s.ptlock ∨
      (∀ a, s.ptlock ≠ some (.proc a)) ∧ ∀ a, s'.ptlock ≠ some (.proc a))
    (hlk : s'.lkHolder same = s.lkHolder same ∨
      (∀ a, s.lkHolder same ≠ some (.proc a)) ∧ ∀ a, s'.lkHolder same ≠ some (.proc a)) :
    s'.Inv same := by
  refine ⟨fun r hr => ?_, fun r hr => ?_, fun r hr => ?_, fun w q hwq => ?_, fun r hsame => ?_⟩
  · rw [hX] at hr
    rcases hlk with h | ⟨h, -⟩
    · rw [h]
      exact hs.lk r hr
    · rw [hs.not_holdsLk h r] at hr
      cases hr
  · rw [hX] at hr
    rcases hpt with h | ⟨h, -⟩
    · rw [h]
      exact hs.pt r hr
    · rw [hs.not_holdsPt h r] at hr
      cases hr
  · rw [hX] at hr ⊢
    exact hs.sleeping r hr
  · rw [hX] at hwq ⊢
    exact hs.pending w q hwq
  · rw [hX]
    exact hs.mode r hsame

/-- A process at a point that holds `lk` is its only possible holder. -/
theorem Inv.lk_owner (hs : s.Inv same) {p : Fin NPROC} (hp : (s.proc p).pc.holdsLk same = true) :
    ∀ a, s.lkHolder same = some (.proc a) → a = p := by
  intro a ha
  rw [hs.lk p hp] at ha
  simpa using ha.symm

theorem Inv.pt_owner (hs : s.Inv same) {p : Fin NPROC} (hp : (s.proc p).pc.holdsPt same = true) :
    ∀ a, s.ptlock = some (.proc a) → a = p := by
  intro a ha
  rw [hs.pt p hp] at ha
  simpa using ha.symm

/-- Only a process at `sched` or switched out can be sleeping. -/
theorem Inv.not_sleeping (hs : s.Inv same) {p : Fin NPROC} (h : (s.proc p).pc.seen = false) :
    (s.proc p).state ≠ .SLEEPING := fun hsl => by
  simp [Pc.seen_of_sleepy (hs.sleeping p hsl).1] at h

/-- While `lk` is free, no waker holds it, so nothing is pending. -/
theorem Inv.pending_of_free (hs : s.Inv same) (h : s.lkHolder same = none) (w : Fin NPROC)
    (x : SProc) : Pending (s.proc w).pc x := by
  obtain ⟨h₁, h₂⟩ := Pc.idle_of_not_holdsLk (hs.not_holdsLk (fun a ha => by simp [h] at ha) w)
  exact Pending.of_idle h₁ h₂

/-- While `p` holds `lk`, no other waker does, so nothing is pending on it. -/
theorem Inv.pending_of_holdsLk (hs : s.Inv same) {p w : Fin NPROC} (hwp : w ≠ p)
    (hp : (s.proc p).pc.holdsLk same = true) (x : SProc) : Pending (s.proc w).pc x := by
  have hw : (s.proc w).pc.holdsLk same = false := by
    cases h' : (s.proc w).pc.holdsLk same
    · rfl
    · exact absurd (hs.lk_unique h' hp) hwp
  obtain ⟨h₁, h₂⟩ := Pc.idle_of_not_holdsLk hw
  exact Pending.of_idle h₁ h₂

/-- A statement of `p` that only moves it to `pc`, from a point where no waker can have seen
it inside `sleep`, and without passing a waker's scan. -/
theorem Inv.setPc (hs : s.Inv same) {X : SSys} (hX : X.proc = s.proc) {p : Fin NPROC} {pc : Pc}
    (hlk : pc.holdsLk same = true → X.lkHolder same = some (.proc p))
    (hpt : pc.holdsPt same = true → X.ptlock = some (.proc p))
    (hlkO : X.lkHolder same = s.lkHolder same ∨ ∀ a, s.lkHolder same = some (.proc a) → a = p)
    (hptO : X.ptlock = s.ptlock ∨ ∀ a, s.ptlock = some (.proc a) → a = p)
    (hseen : (s.proc p).pc.seen = false)
    (hscan : pc.scanning = true → (s.proc p).pc.scanning = true)
    (hscanned : pc.scanned = true → (s.proc p).pc.scanned = true)
    (hmode : same = true → pc.other = false) :
    (X.setProc p { s.proc p with pc := pc }).Inv same := by
  refine hs.setProc hX hlk hpt hlkO hptO (fun h => absurd h (hs.not_sleeping hseen))
    (fun q hq => ?_) (fun w _ hw => (hs.pending w p hw).of_not_seen hseen) hmode
  by_cases hqp : q = p
  · -- `p` never saw itself, so it is not past its own `acquire(lk)` as a waker
    subst q
    obtain ⟨h₁, h₂⟩ := (hs.pending p p hq).idle_of_self
    rw [if_pos rfl]
    exact Pending.of_idle (by cases h : pc.scanning <;> simp_all)
      (by cases h : pc.scanned <;> simp_all)
  · rw [if_neg hqp]
    exact (hs.pending p q hq).of_pc hscan hscanned

@[simp] theorem wakeup1_lkHolder (s : SSys) : s.wakeup1.lkHolder same = s.lkHolder same := rfl

@[simp] theorem wakeup1_ptlock (s : SSys) : s.wakeup1.ptlock = s.ptlock := rfl

/-- After `wakeup1` nobody sleeps on the channel, and every process in the model sleeps on it
or not at all. -/
theorem Inv.wakeup1_not_sleeping (hs : s.Inv same) (r : Fin NPROC) :
    (s.wakeup1.proc r).state ≠ .SLEEPING := by
  obtain ⟨-, -, -, hst⟩ := wakeup1_proc s r
  rw [hst]
  split_ifs with h
  · simp
  · intro hsl
    exact h ⟨hsl, (hs.sleeping r hsl).2⟩

/-- `wakeup1` only wakes, so it keeps the invariant. -/
theorem Inv.wakeup1 (hs : s.Inv same) : s.wakeup1.Inv same := by
  refine ⟨fun r hr => ?_, fun r hr => ?_, fun r hr => ?_, fun w q hwq => ?_, fun r hsame => ?_⟩
  · rw [(wakeup1_proc s r).1] at hr
    exact hs.lk r hr
  · rw [(wakeup1_proc s r).1] at hr
    exact hs.pt r hr
  · exact absurd hr (hs.wakeup1_not_sleeping r)
  · obtain ⟨hpc, -, hb, -⟩ := wakeup1_proc s w
    rw [hb] at hwq
    rw [hpc]
    exact Pending.of_woken_or (hs.pending w q hwq) (wakeup1_proc s q).1
      (hs.wakeup1_not_sleeping q)
  · rw [(wakeup1_proc s r).1]
    exact hs.mode r hsame

/-! ## The statements of the two programs -/

theorem free_owner {p : Fin NPROC} (h : s.lkHolder same = none) :
    ∀ a, s.lkHolder same = some (.proc a) → a = p := fun a ha => by
  simp [h] at ha

theorem setLk_ptlock_of_same {a : Option Agent} (h : same = true) : (s.setLk same a).ptlock = a := by
  subst h
  rfl

/-- A change of `lk`'s holder moves `ptable.lock` only when they are one lock. -/
theorem setLk_ptlock_or {p : Fin NPROC}
    (h : same = true → ∀ a, s.ptlock = some (.proc a) → a = p) (b : Option Agent) :
    (s.setLk same b).ptlock = s.ptlock ∨ ∀ a, s.ptlock = some (.proc a) → a = p := by
  cases same
  · exact .inl rfl
  · exact .inr (h rfl)

/-- `acquire(lk)` of the sleeper, before its test or inside `sleep`. -/
theorem Inv.acquire_sleeper (hs : s.Inv same) {p : Fin NPROC} (hfree : s.lkHolder same = none)
    (hst : (s.proc p).state ≠ .SLEEPING) :
    ((s.setLk same (some (.proc p))).setProc p { s.proc p with pc := .sCheck }).Inv same := by
  refine hs.setProc (setLk_proc _ _) (fun _ => lkHolder_setLk _ _)
    (fun h => setLk_ptlock_of_same h) (.inr (free_owner hfree))
    (setLk_ptlock_or (fun hsame => by subst hsame; exact free_owner hfree) _)
    (fun h => absurd h hst) (fun _ _ => Pending.of_idle rfl rfl)
    (fun w _ _ => hs.pending_of_free hfree w _) (fun _ => rfl)

/-- `release(lk)`, by the sleeper done with its condition or the waker done with `wakeup`. -/
theorem Inv.release_lk (hs : s.Inv same) {p : Fin NPROC} {pc : Pc}
    (hl : (s.proc p).pc.holdsLk same = true) (hp : same = true → (s.proc p).pc.holdsPt same = true)
    (hseen : (s.proc p).pc.seen = false) (hl' : pc.holdsLk same = false)
    (hp' : pc.holdsPt same = false) (hmode : same = true → pc.other = false) :
    ((s.setLk same none).setProc p { s.proc p with pc := pc }).Inv same := by
  obtain ⟨h₁, h₂⟩ := Pc.idle_of_not_holdsLk hl'
  exact hs.setPc (setLk_proc _ _) (fun h => by simp [hl'] at h) (fun h => by simp [hp'] at h)
    (.inr (hs.lk_owner hl)) (setLk_ptlock_or (fun hsame => hs.pt_owner (hp hsame)) _) hseen
    (fun h => by simp [h₁] at h) (fun h => by simp [h₂] at h) hmode

/-- `acquire(&ptable.lock)` inside `sleep` or `wakeup`, with `lk` held. -/
theorem Inv.acquire_pt (hs : s.Inv same) {p : Fin NPROC} {pc : Pc} (hfree : s.ptlock = none)
    (hl : (s.proc p).pc.holdsLk same = true) (hseen : (s.proc p).pc.seen = false)
    (hscan : pc.scanning = true → (s.proc p).pc.scanning = true)
    (hscanned : pc.scanned = false) (hmode : same = true → pc.other = false) :
    ({ s with ptlock := some (.proc p) }.setProc p { s.proc p with pc := pc }).Inv same := by
  refine hs.setPc (X := { s with ptlock := some (.proc p) }) rfl (fun _ => ?_) (fun _ => rfl)
    (.inr (hs.lk_owner hl))
    (.inr fun a ha => by simp [hfree] at ha) hseen hscan (fun h => by simp [hscanned] at h) hmode
  rw [lkHolder_ptlock]
  split_ifs with hsame
  · rfl
  · simpa [lkHolder, hsame] using hs.lk p hl

/-- `wakeup1(chan)` with `ptable.lock` held: every sleeper the waker saw inside `sleep` is past
`sched`, since the waker holds `ptable.lock`, and after the scan none of them sleeps. -/
theorem Inv.scan (hs : s.Inv same) {p : Fin NPROC} (hpc : (s.proc p).pc = .wScan) :
    (s.wakeup1.setProc p { s.wakeup1.proc p with pc := if same then .wRelease else .wPtRelease }).Inv
      same := by
  have hw := hs.wakeup1
  have hpc' : (s.wakeup1.proc p).pc = .wScan := (wakeup1_proc s p).1.trans hpc
  have hpt : s.ptlock = some (.proc p) := hs.pt p (by rw [hpc]; rfl)
  refine hw.setProc rfl (fun _ => hw.lk p (by rw [hpc']; rfl)) (fun _ => hpt) (.inl rfl) (.inl rfl)
    (fun h' => absurd h' (hs.wakeup1_not_sleeping p)) (fun q hq => ?_)
    (fun w _ hwp => (hw.pending w p hwp).of_not_seen (by rw [hpc']; rfl)) (fun hsame => by
      simp [hsame, Pc.other])
  by_cases hqp : q = p
  · subst q
    obtain ⟨h₁, -⟩ := (hw.pending p p hq).idle_of_self
    rw [hpc'] at h₁
    cases h₁
  · rw [if_neg hqp]
    -- `q` was past `release(lk)`; it is not at `sched` or before it, where it would hold
    -- `ptable.lock`
    have hseen : (s.wakeup1.proc q).pc.seen = true := (hw.pending p q hq).1 (by rw [hpc']; rfl)
    have hq' : (s.wakeup1.proc q).pc.holdsPt same = false := by
      cases h' : (s.wakeup1.proc q).pc.holdsPt same
      · rfl
      · exact absurd (hw.pt_unique h' (by rw [hpc']; rfl)) hqp
    refine Pending.of_woken (Pc.woken_of_seen hseen hq') (hs.wakeup1_not_sleeping q)

/-- Every statement of every process keeps the invariant. -/
theorem Inv.runProc (hs : s.Inv same) {p : Fin NPROC} {c : Fin NCPU} {s' : SSys}
    (h : s.runProc same p c = some s') : s'.Inv same := by
  -- a process that is not at `sched` or switched out is not sleeping
  have hst : ∀ pc : Pc, (s.proc p).pc = pc → pc ≠ .sSched ∧ pc ≠ .sAsleep →
      (s.proc p).state ≠ .SLEEPING := fun pc hpc hne hsl => by
    rcases (hs.sleeping p hsl).1 with h' | h' <;> simp_all
  cases hpc : (s.proc p).pc with
  | sAcquire =>
    simp only [SSys.runProc, hpc] at h
    split_ifs at h with hfree
    cases h
    exact hs.acquire_sleeper hfree (hst _ hpc (by decide))
  | sCheck =>
    simp only [SSys.runProc, hpc] at h
    cases h
    have hl : (s.proc p).pc.holdsLk same = true := by rw [hpc]; rfl
    -- the test of the condition: leave the loop, or call `sleep`
    split_ifs with hcond hsame
    · exact hs.setPc rfl (fun _ => hs.lk p hl) (fun h' => hs.pt p (by rw [hpc]; exact h'))
        (.inl rfl) (.inl rfl) (by rw [hpc]; rfl) (by rw [hpc]; decide) (by rw [hpc]; decide)
        (fun _ => rfl)
    · exact hs.setPc rfl (fun _ => hs.lk p hl) (fun _ => hs.pt p (by rw [hpc]; exact hsame))
        (.inl rfl) (.inl rfl) (by rw [hpc]; rfl) (by rw [hpc]; decide) (by rw [hpc]; decide)
        (fun _ => rfl)
    · exact hs.setPc rfl (fun _ => hs.lk p hl) (fun h' => by simp [Pc.holdsPt] at h')
        (.inl rfl) (.inl rfl) (by rw [hpc]; rfl) (by rw [hpc]; decide) (by rw [hpc]; decide)
        (fun h' => absurd h' hsame)
  | sPtAcquire =>
    simp only [SSys.runProc, hpc] at h
    split_ifs at h with hfree
    cases h
    exact hs.acquire_pt hfree (by rw [hpc]; rfl) (by rw [hpc]; rfl) (by rw [hpc]; decide) rfl
      (fun hsame => by simpa [hpc, Pc.other] using hs.mode p hsame)
  | sRelease =>
    simp only [SSys.runProc, hpc] at h
    cases h
    have hpt : s.ptlock = some (.proc p) := hs.pt p (by rw [hpc]; rfl)
    refine hs.setPc (X := { s with lk := none }) rfl (fun h' => ?_) (fun _ => hpt)
      (.inr (hs.lk_owner (by rw [hpc]; rfl))) (.inl rfl) (by rw [hpc]; rfl)
      (by rw [hpc]; decide) (by rw [hpc]; decide) (fun _ => rfl)
    -- `sSet` holds `lk` only when it is `ptable.lock`, which `p` still holds
    have hsame : same = true := h'
    rw [lkHolder_lk, if_pos hsame]
    exact hpt
  | sSet =>
    simp only [SSys.runProc, hpc] at h
    cases h
    refine hs.setProc rfl (fun h' => hs.lk p (by rw [hpc]; exact h'))
      (fun _ => hs.pt p (by rw [hpc]; rfl)) (.inl rfl) (.inl rfl) (fun _ => ⟨.inl rfl, rfl⟩)
      (fun _ _ => Pending.of_idle rfl rfl) (fun w _ hw => ?_) (fun _ => rfl)
    exact (hs.pending w p hw).follow (fun _ => rfl) (fun h' => by simp [hpc, Pc.woken] at h')
  | sSched =>
    simp only [SSys.runProc, hpc] at h
    cases h
    -- `sched` hands `ptable.lock` (and `lk` with it, when they are one) to the scheduler
    refine hs.setProc (X := { s with ptlock := some (.cpu c) }) rfl
      (fun h' => by simp [Pc.holdsLk] at h') (fun h' => by simp [Pc.holdsPt] at h') ?_
      (.inr (hs.pt_owner (by rw [hpc]; rfl))) (fun h' => ⟨.inr rfl, (hs.sleeping p h').2⟩)
      (fun _ _ => Pending.of_idle rfl rfl) (fun w _ hw => ?_) (fun _ => rfl)
    · cases same
      · exact .inl rfl
      · exact .inr (hs.lk_owner (by rw [hpc]; rfl))
    · exact (hs.pending w p hw).follow (fun _ => rfl) (fun h' => by simp [hpc, Pc.woken] at h')
  | sAsleep =>
    simp [SSys.runProc, hpc] at h
  | sTidy =>
    simp only [SSys.runProc, hpc] at h
    have hnot : (s.proc p).state ≠ .SLEEPING := hst _ hpc (by decide)
    split_ifs at h with hsame
    · -- `lk` is `ptable.lock`: `sleep` returns holding it
      cases h
      exact hs.setProc rfl (fun _ => hs.lk p (by rw [hpc]; exact hsame))
        (fun _ => hs.pt p (by rw [hpc]; rfl)) (.inl rfl) (.inl rfl) (fun h' => absurd h' hnot)
        (fun _ _ => Pending.of_idle rfl rfl)
        (fun w hwp _ => hs.pending_of_holdsLk hwp (by rw [hpc]; exact hsame) _) (fun _ => rfl)
    · cases h
      refine hs.setProc (X := { s with ptlock := none }) rfl (fun h' => by simp [Pc.holdsLk] at h')
        (fun h' => by simp [Pc.holdsPt] at h') (.inl (by simp [lkHolder, hsame]))
        (.inr (hs.pt_owner (by rw [hpc]; rfl))) (fun h' => absurd h' hnot)
        (fun _ _ => Pending.of_idle rfl rfl) (fun w _ hw => ?_) (fun h' => absurd h' hsame)
      exact (hs.pending w p hw).follow (fun _ => rfl) (fun _ h' => ⟨rfl, h'⟩)
  | sReacquire =>
    simp only [SSys.runProc, hpc] at h
    split_ifs at h with hfree
    cases h
    exact hs.acquire_sleeper hfree (hst _ hpc (by decide))
  | sDone =>
    simp only [SSys.runProc, hpc] at h
    cases h
    exact hs.release_lk (by rw [hpc]; rfl) (fun hsame => by rw [hpc]; exact hsame) (by rw [hpc]; rfl)
      rfl rfl (fun _ => rfl)
  | wAcquire =>
    simp only [SSys.runProc, hpc] at h
    split_ifs at h with hfree
    cases h
    refine hs.setProc (setLk_proc _ _) (fun _ => lkHolder_setLk _ _)
      (fun h' => setLk_ptlock_of_same h') (.inr (free_owner hfree))
      (setLk_ptlock_or (fun hsame => by subst hsame; exact free_owner hfree) _)
      (fun h' => absurd h' (hst _ hpc (by decide))) (fun q hq => ?_)
      (fun w _ hw => (hs.pending w p hw).of_not_seen (by rw [hpc]; rfl)) (fun _ => rfl)
    -- the waker's record: who is inside `sleep` now that it holds `lk`
    by_cases hqp : q = p
    · subst q
      simp [hpc, Pc.inSleep] at hq
    · rw [if_neg hqp]
      have hq' : (s.proc q).pc.holdsLk same = false :=
        hs.not_holdsLk (fun a ha => by simp [hfree] at ha) q
      exact ⟨fun _ => Pc.seen_of_inSleep hq hq', fun h' => by simp [Pc.scanned] at h'⟩
  | wSet =>
    simp only [SSys.runProc, hpc] at h
    cases h
    split_ifs with hsame
    · exact hs.setPc (X := { s with cond := true }) rfl (fun _ => hs.lk p (by rw [hpc]; rfl))
        (fun _ => hs.pt p (by rw [hpc]; exact hsame)) (.inl rfl) (.inl rfl) (by rw [hpc]; rfl)
        (by rw [hpc]; decide) (by rw [hpc]; decide) (fun _ => rfl)
    · exact hs.setPc (X := { s with cond := true }) rfl (fun _ => hs.lk p (by rw [hpc]; rfl))
        (fun h' => by simp [Pc.holdsPt] at h') (.inl rfl) (.inl rfl) (by rw [hpc]; rfl)
        (by rw [hpc]; decide) (by rw [hpc]; decide) (fun h' => absurd h' hsame)
  | wPtAcquire =>
    simp only [SSys.runProc, hpc] at h
    split_ifs at h with hfree
    cases h
    exact hs.acquire_pt hfree (by rw [hpc]; rfl) (by rw [hpc]; rfl) (by rw [hpc]; decide) rfl
      (fun _ => rfl)
  | wScan =>
    simp only [SSys.runProc, hpc] at h
    cases h
    exact hs.scan hpc
  | wPtRelease =>
    simp only [SSys.runProc, hpc] at h
    cases h
    have hsame : same = false := by
      cases same
      · rfl
      · simpa [hpc, Pc.other] using hs.mode p rfl
    subst hsame
    exact hs.setPc (X := { s with ptlock := none }) rfl (fun _ => hs.lk p (by rw [hpc]; rfl))
      (fun h' => by simp [Pc.holdsPt] at h') (.inl rfl) (.inr (hs.pt_owner (by rw [hpc]; rfl)))
      (by rw [hpc]; rfl) (by rw [hpc]; decide) (by rw [hpc]; decide) (fun h' => by cases h')
  | wRelease =>
    simp only [SSys.runProc, hpc] at h
    cases h
    exact hs.release_lk (by rw [hpc]; rfl) (fun hsame => by rw [hpc]; exact hsame) (by rw [hpc]; rfl)
      rfl rfl (fun _ => rfl)

/-! ## The other actions -/

/-- `kill`, or a wakeup: a sleeper becomes runnable where it is. -/
theorem Inv.wake (hs : s.Inv same) (p : Fin NPROC) :
    (s.setProc p { s.proc p with state := .RUNNABLE }).Inv same := by
  refine hs.setProc rfl (hs.lk p) (hs.pt p) (.inl rfl) (.inl rfl) (fun h => by cases h)
    (fun q hq => ?_) (fun w _ hw => (hs.pending w p hw).of_woken_or rfl (by simp)) (hs.mode p)
  by_cases hqp : q = p
  · subst q
    rw [if_pos rfl]
    exact (hs.pending p p hq).of_woken_or rfl (by simp)
  · rw [if_neg hqp]
    exact hs.pending p q hq

/-- The scheduler of CPU `c` switches to the runnable sleeper `p`, handing it `ptable.lock`. -/
theorem Inv.switch (hs : s.Inv same) {c : Fin NCPU} {p : Fin NPROC}
    (hcpu : s.ptlock = some (.cpu c)) :
    ({ s with ptlock := some (.proc p) }.setProc p
      { s.proc p with state := .RUNNING, pc := .sTidy }).Inv same := by
  refine hs.setProc (X := { s with ptlock := some (.proc p) }) rfl (fun h => ?_) (fun _ => rfl)
    ?_ (.inr fun a ha => by simp [hcpu] at ha) (fun h => by cases h)
    (fun _ _ => Pending.of_idle rfl rfl) (fun _ _ _ => Pending.of_woken rfl (by simp)) (fun _ => rfl)
  · -- `sTidy` holds `lk` only when it is `ptable.lock`
    have hsame : same = true := h
    rw [lkHolder_ptlock, if_pos hsame]
  · cases same
    · exact .inl rfl
    · exact .inr fun a ha => by simp [lkHolder, hcpu] at ha

/-- Every step keeps the invariant. -/
theorem Inv.step (hs : s.Inv same) {a : SAct} {s' : SSys} (h : s.step same a = some s') :
    s'.Inv same := by
  cases a with
  | run p c => exact hs.runProc h
  | update p b =>
    simp only [SSys.step] at h
    split_ifs at h
    cases h
    exact hs.locks rfl (.inl rfl) (.inl rfl)
  | acquire c =>
    simp only [SSys.step] at h
    split_ifs at h with hfree
    cases h
    have hpt : (∀ a, s.ptlock ≠ some (.proc a)) ∧ ∀ a, some (Agent.cpu c) ≠ some (.proc a) :=
      ⟨fun a ha => by simp [hfree] at ha, fun a ha => by simp at ha⟩
    refine hs.locks rfl (.inr hpt) ?_
    cases same
    · exact .inl rfl
    · exact .inr hpt
  | release c =>
    simp only [SSys.step] at h
    split_ifs at h with hcpu
    cases h
    have hpt : (∀ a, s.ptlock ≠ some (.proc a)) ∧ ∀ a, (none : Option Agent) ≠ some (.proc a) :=
      ⟨fun a ha => by simp [hcpu] at ha, fun a ha => by simp at ha⟩
    refine hs.locks rfl (.inr hpt) ?_
    cases same
    · exact .inl rfl
    · exact .inr hpt
  | switch c p =>
    simp only [SSys.step] at h
    split_ifs at h with hen
    cases h
    exact hs.switch hen.1
  | kill p =>
    simp only [SSys.step] at h
    split_ifs at h with hfree hsl
    · cases h
      exact hs.wake p
    · cases h
      exact hs

theorem inv_init (role : Fin NPROC → Bool) (cond : Bool) : (init role cond).Inv same := by
  -- every process is at its first `acquire(lk)`, running, and has seen nobody
  refine ⟨fun p h => ?_, fun p h => ?_, fun p h => ?_, fun w q h => ?_, fun p _ => ?_⟩
  · by_cases hr : role p <;> simp_all [init, Pc.holdsLk]
  · by_cases hr : role p <;> simp_all [init, Pc.holdsPt]
  · simp [init] at h
  · simp [init] at h
  · by_cases hr : role p <;> simp [init, hr, Pc.other]

end SSys

theorem inv_of_reachable {same : Bool} {s : SSys} (h : Reachable same s) : s.Inv same := by
  induction h with
  | init role cond => exact SSys.inv_init role cond
  | step a _ hs ih => exact ih.step hs

/-- **No lost wakeup.** In every run, on any number of CPUs, with `lk` another spinlock or
`ptable.lock` itself: when a waker's `wakeup` has returned, every process that was inside
`sleep` when the waker acquired `lk` is no longer sleeping. -/
theorem no_lost_wakeup {same : Bool} {s : SSys} (h : Reachable same s) {w q : Fin NPROC}
    (hw : (s.proc w).pc = .wRelease) (hq : (s.proc w).before q = true) :
    (s.proc q).state ≠ .SLEEPING :=
  (((inv_of_reachable h).pending w q hq).2 (by rw [hw]; rfl)).2

/-- A sleeper in slot `0` and wakers, `lk` being `ptable.lock`: the sleeper goes to sleep and
its CPU's scheduler lets go of `ptable.lock`; the waker in slot `1` takes it, sees the
sleeper inside `sleep`, sets the condition and wakes the channel. -/
theorem no_lost_wakeup_pair :
    ∃ s, Reachable true s ∧ (s.proc ⟨1, one_lt_NPROC⟩).pc = .wRelease ∧
      (s.proc ⟨1, one_lt_NPROC⟩).before ⟨0, NPROC_pos⟩ = true ∧
        (s.proc ⟨0, NPROC_pos⟩).state ≠ .SLEEPING := by
  -- the sleeper: `acquire(lk)`, the test, `SLEEPING`, `sched()`
  have h₁ : Reachable true _ :=
    .step (.run ⟨0, NPROC_pos⟩ ⟨0, NCPU_pos⟩) (.init (fun p => p.val == 0) false) rfl
  have h₂ : Reachable true _ := .step (.run ⟨0, NPROC_pos⟩ ⟨0, NCPU_pos⟩) h₁ rfl
  have h₃ : Reachable true _ := .step (.run ⟨0, NPROC_pos⟩ ⟨0, NCPU_pos⟩) h₂ rfl
  have h₄ : Reachable true _ := .step (.run ⟨0, NPROC_pos⟩ ⟨0, NCPU_pos⟩) h₃ rfl
  have h₅ : Reachable true _ := .step (.release ⟨0, NCPU_pos⟩) h₄ rfl
  -- the waker: `acquire(lk)`, `cond = 1`, `wakeup1`
  have h₆ : Reachable true _ := .step (.run ⟨1, one_lt_NPROC⟩ ⟨0, NCPU_pos⟩) h₅ rfl
  have h₇ : Reachable true _ := .step (.run ⟨1, one_lt_NPROC⟩ ⟨0, NCPU_pos⟩) h₆ rfl
  have h₈ : Reachable true _ := .step (.run ⟨1, one_lt_NPROC⟩ ⟨0, NCPU_pos⟩) h₇ rfl
  exact ⟨_, h₈, rfl, rfl, no_lost_wakeup (w := ⟨1, one_lt_NPROC⟩) (q := ⟨0, NPROC_pos⟩) h₈ rfl rfl⟩

end Sleep

end Xv6
