import Mathlib
import Xv6.Param

/-!
# The process table (`proc.c`)

`ptable.proc` is an array of `NPROC` slots; a slot is free when its state is `UNUSED`.
`allocproc`, `userinit`, `fork`, `exit`, `wait` and `kill` are modelled on the fields of
`struct proc` they read and write: state, pid, parent, sleep channel and the `killed`
flag. Kernel stacks, page tables, trap frames, open files and names are not part of this
model. `kalloc` and `copyuvm` are not modelled either: whether each succeeds is an
argument (`kstackOk`, `copyOk`), so every pattern of allocation failures is covered.

A system call is made by a `RUNNING` process; `Ptable.step` performs one system call, one
`sleep` or `wakeup`, or one scheduling decision, and `PReachable` collects the tables
reachable from `userinit`. `nextpid` and the pids are C `int`s: `nextpid++` wraps in 32 bits
(`wrapInt`).

`kill(pid)` takes the first slot whose pid matches, whatever its state. Slots that were
never used, and slots `wait` has reaped, carry pid `0`; so `kill(0)` marks a free slot,
and `allocproc` hands that slot to the next `fork` without clearing `killed`
(`kill_zero_marks_next_child`).
-/

namespace Xv6

/-- `enum procstate`. -/
inductive ProcState where
  | UNUSED | EMBRYO | SLEEPING | RUNNABLE | RUNNING | ZOMBIE
  deriving DecidableEq, Repr

/-- A sleep channel: the address of a process slot (`wait` sleeps on its own `struct
proc`), or an address outside the process table. -/
inductive Chan where
  | proc (p : Fin NPROC)
  | other (addr : Nat)
  deriving DecidableEq, Repr

/-- The fields of `struct proc` the process-table functions use. -/
structure Proc where
  state : ProcState
  pid : Int
  parent : Option (Fin NPROC)
  chan : Option Chan
  killed : Bool
  deriving DecidableEq, Repr

/-- `ptable`, `nextpid` and `initproc`. -/
structure Ptable where
  proc : Fin NPROC → Proc
  nextpid : Int
  initproc : Option (Fin NPROC)

/-- A zeroed slot, as the static `ptable` starts. -/
def Proc.zero : Proc := ⟨.UNUSED, 0, none, none, false⟩

/-- The table before `userinit`: every slot zeroed, `nextpid = 1`. -/
def Ptable.zero : Ptable := ⟨fun _ => Proc.zero, 1, none⟩

namespace Ptable

/-- Overwrite slot `p`. -/
def set (t : Ptable) (p : Fin NPROC) (x : Proc) : Ptable :=
  { t with proc := Function.update t.proc p x }

@[simp] theorem set_proc_self (t : Ptable) (p : Fin NPROC) (x : Proc) :
    (t.set p x).proc p = x := by
  simp [set]

theorem set_proc_of_ne (t : Ptable) {p q : Fin NPROC} (x : Proc) (h : q ≠ p) :
    (t.set p x).proc q = t.proc q := by
  simp [set, Function.update_of_ne h]

@[simp] theorem set_nextpid (t : Ptable) (p : Fin NPROC) (x : Proc) :
    (t.set p x).nextpid = t.nextpid := rfl

@[simp] theorem set_initproc (t : Ptable) (p : Fin NPROC) (x : Proc) :
    (t.set p x).initproc = t.initproc := rfl

end Ptable

/-- The slots in the order the code scans them. -/
def slots : List (Fin NPROC) := List.finRange NPROC

/-- The value an `int` holds after an assignment of `i`: two's complement in 32 bits, as the
compiled code wraps a signed overflow. -/
def wrapInt (i : Int) : Int := (i + 2 ^ 31) % 2 ^ 32 - 2 ^ 31

/-- `allocproc`: the first `UNUSED` slot becomes `EMBRYO` with pid `nextpid++`; if its
kernel stack cannot be allocated it goes back to `UNUSED`, keeping the pid. -/
def allocproc (t : Ptable) (kstackOk : Bool) : Ptable × Option (Fin NPROC) :=
  match slots.find? fun p => (t.proc p).state = .UNUSED with
  | none => (t, none)
  | some p =>
      let t := { t.set p { t.proc p with state := .EMBRYO, pid := t.nextpid } with
        nextpid := wrapInt (t.nextpid + 1) }
      if kstackOk then (t, some p) else (t.set p { t.proc p with state := .UNUSED }, none)

/-- `userinit`: allocate the first process, record it as `initproc`, make it runnable.
(The code does not check `allocproc`'s result; at boot the table is empty.) -/
def userinit (t : Ptable) : Ptable :=
  match allocproc t true with
  | (t, some p) => { t.set p { t.proc p with state := .RUNNABLE } with initproc := some p }
  | (t, none) => t

/-- `fork` by the process in slot `cur`: the child's parent is `cur`; when `copyuvm`
fails the child's slot goes back to `UNUSED`. Returns the child's pid or `-1`. -/
def fork (t : Ptable) (cur : Fin NPROC) (kstackOk copyOk : Bool) : Ptable × Int :=
  match allocproc t kstackOk with
  | (t, none) => (t, -1)
  | (t, some np) =>
      if copyOk then
        (t.set np { t.proc np with parent := some cur, state := .RUNNABLE }, (t.proc np).pid)
      else (t.set np { t.proc np with state := .UNUSED }, -1)

/-- `wakeup1(chan)`: every process sleeping on `c` becomes runnable. -/
def wakeup1 (t : Ptable) (c : Chan) : Ptable :=
  { t with proc := fun p =>
      if (t.proc p).state = .SLEEPING ∧ (t.proc p).chan = some c then
        { t.proc p with state := .RUNNABLE } else t.proc p }

/-- `sleep(chan, lk)` by the process in slot `cur` once it holds `ptable.lock`: it records the
channel and gives up the CPU. -/
def sleep (t : Ptable) (cur : Fin NPROC) (c : Chan) : Ptable :=
  t.set cur { t.proc cur with chan := some c, state := .SLEEPING }

/-- One turn of `exit`'s loop passing an abandoned child to `initproc`. -/
def reparent (cur : Fin NPROC) (t : Ptable) (p : Fin NPROC) : Ptable :=
  if (t.proc p).parent = some cur then
    let t := t.set p { t.proc p with parent := t.initproc }
    if (t.proc p).state = .ZOMBIE then
      match t.initproc with
      | some i => wakeup1 t (.proc i)
      | none => t
    else t
  else t

/-- `exit` by the process in slot `cur`: wake the parent, pass the children to `initproc`,
become a zombie. -/
def exit (t : Ptable) (cur : Fin NPROC) : Except String Ptable :=
  if t.initproc = some cur then .error "init exiting"
  else
    let t := match (t.proc cur).parent with
      | some q => wakeup1 t (.proc q)
      | none => t
    let t := slots.foldl (reparent cur) t
    .ok (t.set cur { t.proc cur with state := .ZOMBIE })

/-- The outcome of one pass of `wait`'s loop. -/
inductive WaitResult where
  | reaped (pid : Int)
  | fail
  | sleep
  deriving DecidableEq, Repr

/-- One pass of `wait`'s loop by the process in slot `cur`: reap the first zombie child
(its slot becomes `UNUSED` with pid `0` and `killed` cleared), or return `-1` without
children or when killed, or sleep on the caller's own slot. -/
def wait (t : Ptable) (cur : Fin NPROC) : Ptable × WaitResult :=
  match slots.find? fun p => (t.proc p).parent = some cur ∧ (t.proc p).state = .ZOMBIE with
  | some p =>
      (t.set p { t.proc p with state := .UNUSED, pid := 0, parent := none, killed := false },
        .reaped (t.proc p).pid)
  | none =>
      if (slots.any fun p => (t.proc p).parent = some cur) = false ∨ (t.proc cur).killed then
        (t, .fail)
      else (t.set cur { t.proc cur with chan := some (.proc cur), state := .SLEEPING }, .sleep)

/-- `kill(pid)`: the first slot whose pid is `pid` gets `killed` set and, if sleeping, is
made runnable. Returns `0`, or `-1` when no slot has that pid. -/
def kill (t : Ptable) (pid : Int) : Ptable × Int :=
  match slots.find? fun p => (t.proc p).pid = pid with
  | some p =>
      let st := if (t.proc p).state = .SLEEPING then .RUNNABLE else (t.proc p).state
      (t.set p { t.proc p with killed := true, state := st }, 0)
  | none => (t, -1)

/-- One step of the system: a system call by a running process, or a scheduling step. -/
inductive PAct where
  | fork (cur : Fin NPROC) (kstackOk copyOk : Bool)
  | exit (cur : Fin NPROC)
  | wait (cur : Fin NPROC)
  | kill (cur : Fin NPROC) (pid : Int)
  /-- `sleep(chan, lk)` by a running process. -/
  | sleep (cur : Fin NPROC) (c : Chan)
  /-- `wakeup(chan)`, from a process or an interrupt handler. -/
  | wakeup (c : Chan)
  /-- `scheduler` switches to a runnable process. -/
  | run (p : Fin NPROC)
  /-- `yield` gives up the CPU. -/
  | yield (p : Fin NPROC)

namespace Ptable

/-- The slot is the process a CPU is running. -/
def running (t : Ptable) (p : Fin NPROC) : Prop := (t.proc p).state = .RUNNING

instance (t : Ptable) (p : Fin NPROC) : Decidable (t.running p) :=
  inferInstanceAs (Decidable ((t.proc p).state = .RUNNING))

/-- One step: `none` when the action is not enabled, `.error` on a panic. -/
def step (t : Ptable) : PAct → Option (Except String Ptable)
  | .fork cur kstackOk copyOk =>
      if t.running cur then some (.ok (fork t cur kstackOk copyOk).1) else none
  | .exit cur => if t.running cur then some (exit t cur) else none
  | .wait cur => if t.running cur then some (.ok (wait t cur).1) else none
  | .kill cur pid => if t.running cur then some (.ok (kill t pid).1) else none
  | .sleep cur c => if t.running cur then some (.ok (sleep t cur c)) else none
  | .wakeup c => some (.ok (wakeup1 t c))
  | .run p =>
      if (t.proc p).state = .RUNNABLE then some (.ok (t.set p { t.proc p with state := .RUNNING }))
      else none
  | .yield p =>
      if t.running p then some (.ok (t.set p { t.proc p with state := .RUNNABLE })) else none

end Ptable

/-- The table after the actions `as`, one after another: `none` when one of them is not
enabled or panics. -/
def Ptable.steps (t : Ptable) : List PAct → Option Ptable
  | [] => some t
  | a :: as =>
      match t.step a with
      | some (.ok t') => t'.steps as
      | _ => none

/-- The tables reachable from `userinit` without a panic. -/
inductive PReachable : Ptable → Prop
  | boot : PReachable (userinit Ptable.zero)
  | step {t t' : Ptable} (a : PAct) : PReachable t → t.step a = some (.ok t') → PReachable t'

end Xv6
