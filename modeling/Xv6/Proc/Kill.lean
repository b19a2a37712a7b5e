import Xv6.Proc.Table

/-!
# `kill` and free slots

`kill(pid)` scans the table for the pid without looking at the state. Free slots carry
pid `0` (never used, or reaped by `wait`, which also clears `killed`) or a stale pid
(`allocproc` or `fork` failing after the pid was assigned), and `allocproc` does not
clear `killed` when it hands a slot out. Right after boot, `kill(0)` by `init` therefore
returns `0` having marked the free slot `1`, and the child of `init`'s next `fork`,
which `allocproc` places in that slot, starts with `killed` set.
-/

namespace Xv6

/-- `init` (slot `0`) running on a CPU right after boot. -/
def initRunning : Ptable :=
  (userinit Ptable.zero).set ⟨0, NPROC_pos⟩
    { (userinit Ptable.zero).proc ⟨0, NPROC_pos⟩ with state := .RUNNING }

theorem preachable_initRunning : PReachable initRunning :=
  PReachable.step (.run ⟨0, by decide⟩) PReachable.boot rfl

/-- **`kill(0)` marks a free slot.** From a reachable table, `kill(0)` returns `0` after
setting `killed` on the `UNUSED` slot `1`, and the next `fork` gives that slot, killed,
to a runnable child with pid `2`. -/
theorem kill_zero_marks_next_child :
    PReachable initRunning ∧ (kill initRunning 0).2 = 0 ∧
      ((kill initRunning 0).1.proc ⟨1, by decide⟩).state = .UNUSED ∧
      ((kill initRunning 0).1.proc ⟨1, by decide⟩).killed = true ∧
      (fork (kill initRunning 0).1 ⟨0, by decide⟩ true true).2 = 2 ∧
      ((fork (kill initRunning 0).1 ⟨0, by decide⟩ true true).1.proc ⟨1, by decide⟩).state =
        .RUNNABLE ∧
      ((fork (kill initRunning 0).1 ⟨0, by decide⟩ true true).1.proc ⟨1, by decide⟩).killed =
        true :=
  ⟨preachable_initRunning, by decide, by decide, by decide, by decide, by decide, by decide⟩

end Xv6
