import Xv6.Proc.Invariants

/-!
# A pid that two slots carry

`nextpid` is an `int` that every allocation increments, also one whose `fork` then fails, and
a slot that `allocproc` or `fork` gives back keeps the pid it was given. After `2 ^ 32`
allocations `nextpid` is back where it was, so a free slot can carry the pid of a live
process. `kill(pid)` stops at the first slot with the pid, whatever its state: it marks the
free slot and returns `0`, and the sleeping process with that pid is not woken
(`kill_leaves_sleeper_asleep`).
-/

namespace Xv6

/-- Storing `x + 1` in an `int` that holds `x`. -/
theorem wrapInt_wrapInt_add_one (x : Int) : wrapInt (wrapInt x + 1) = wrapInt (x + 1) := by
  unfold wrapInt
  omega

/-- `n` increments of `nextpid` from a value an `int` holds. -/
theorem iterate_wrapInt_eq {a : Int} (ha : wrapInt a = a) (n : Nat) :
    (fun x => wrapInt (x + 1))^[n] a = wrapInt (a + n) := by
  induction n with
  | zero => simpa using ha.symm
  | succ n ih =>
    rw [Function.iterate_succ_apply', ih, wrapInt_wrapInt_add_one]
    congr 1
    omega

/-- `n + 1` forks of `init` whose kernel stacks cannot be allocated, from a reachable table in
which `init` runs in slot `0` and slot `1` is free: slot `1` ends free with the pid the last
of them allocated, and the other slots are as they were. -/
theorem failed_forks_from {t₀ : Ptable} (ht : PReachable t₀)
    (h0 : (t₀.proc ⟨0, by decide⟩).state = .RUNNING)
    (h1 : (t₀.proc ⟨1, by decide⟩).state = .UNUSED) (n : Nat) :
    ∃ t, PReachable t ∧ (t.proc ⟨0, by decide⟩).state = .RUNNING ∧
      (t.proc ⟨1, by decide⟩).state = .UNUSED ∧
      (t.proc ⟨1, by decide⟩).pid = (fun x => wrapInt (x + 1))^[n] t₀.nextpid ∧
      t.nextpid = (fun x => wrapInt (x + 1))^[n + 1] t₀.nextpid ∧
      ∀ r, r ≠ ⟨1, by decide⟩ → t.proc r = t₀.proc r := by
  induction n with
  | zero =>
    obtain ⟨hstep, h1', hpid, hnext, hrest⟩ := failed_fork h0 h1
    exact ⟨_, .step _ ht hstep, by rw [hrest _ (by decide)]; exact h0, h1', hpid, hnext, hrest⟩
  | succ n ih =>
    obtain ⟨t, ht, h0', h1', -, hn, hr⟩ := ih
    obtain ⟨hstep, h1'', hpid, hnext, hrest⟩ := failed_fork h0' h1'
    refine ⟨_, .step _ ht hstep, by rw [hrest _ (by decide)]; exact h0', h1'', ?_, ?_,
      fun r hr' => (hrest r hr').trans (hr r hr')⟩
    · rw [hpid, hn]
    · rw [hnext, hn, Function.iterate_succ_apply' _ (n + 1)]

/-- After boot, `init` forks two children; the second runs and sleeps on a channel, the
first runs and exits, and `init` reaps it. -/
def sleeperRun : List PAct :=
  [.fork ⟨0, NPROC_pos⟩ true true, .fork ⟨0, NPROC_pos⟩ true true, .run ⟨2, two_lt_NPROC⟩,
    .sleep ⟨2, two_lt_NPROC⟩ (.other 0), .run ⟨1, one_lt_NPROC⟩, .exit ⟨1, one_lt_NPROC⟩,
    .wait ⟨0, NPROC_pos⟩]

/-- The table `sleeperRun` leaves: `init` (pid `1`) runs, slot `1` is free again, and the
process with pid `3` sleeps in slot `2`; `nextpid` is `4`. -/
theorem sleeperRun_table : ∃ t, PReachable t ∧ (t.proc ⟨0, by decide⟩).state = .RUNNING ∧
    (t.proc ⟨0, by decide⟩).pid = 1 ∧ (t.proc ⟨1, by decide⟩).state = .UNUSED ∧
    (t.proc ⟨2, by decide⟩).state = .SLEEPING ∧ (t.proc ⟨2, by decide⟩).pid = 3 ∧
    t.nextpid = 4 := by
  have h : (initRunning.steps sleeperRun).any (fun t =>
      decide ((t.proc ⟨0, by decide⟩).state = .RUNNING ∧ (t.proc ⟨0, by decide⟩).pid = 1 ∧
        (t.proc ⟨1, by decide⟩).state = .UNUSED ∧ (t.proc ⟨2, by decide⟩).state = .SLEEPING ∧
        (t.proc ⟨2, by decide⟩).pid = 3 ∧ t.nextpid = 4)) = true := by
    decide +kernel
  cases hs : initRunning.steps sleeperRun with
  | none =>
    rw [hs] at h
    cases h
  | some t =>
    rw [hs, Option.any_some, decide_eq_true_eq] at h
    exact ⟨t, Ptable.preachable_steps preachable_initRunning hs, h⟩

/-- **`kill` misses a sleeping process.** After `sleeperRun`, `2 ^ 32` forks of `init` whose
kernel stacks cannot be allocated give the free slot `1` every pid in turn, up to `3`, the pid
of the process sleeping in slot `2`. `kill(3)` by `init` then marks the free slot `1` and
returns `0`, and the process with pid `3` goes on sleeping. -/
theorem kill_leaves_sleeper_asleep :
    ∃ t, PReachable t ∧ (t.proc ⟨2, by decide⟩).state = .SLEEPING ∧
      (t.proc ⟨2, by decide⟩).pid = 3 ∧
      t.step (.kill ⟨0, by decide⟩ 3) = some (.ok (kill t 3).1) ∧ (kill t 3).2 = 0 ∧
      ((kill t 3).1.proc ⟨1, by decide⟩).state = .UNUSED ∧
      ((kill t 3).1.proc ⟨1, by decide⟩).killed = true ∧
      ((kill t 3).1.proc ⟨2, by decide⟩).state = .SLEEPING := by
  obtain ⟨t₁, ht₁, h0, hpid0, h1, h2, hpid2, hnext⟩ := sleeperRun_table
  obtain ⟨t, ht, h0', h1', hpid1, -, hrest⟩ := failed_forks_from ht₁ h0 h1 (2 ^ 32 - 1)
  -- the last of the `2 ^ 32` allocations gave slot `1` the pid `3` again
  have h3 : (t.proc ⟨1, by decide⟩).pid = 3 := by
    rw [hpid1, hnext, iterate_wrapInt_eq (wrapInt_of_lt (by omega) (by omega))]
    unfold wrapInt
    omega
  have hslot0 : (t.proc ⟨0, by decide⟩).pid = 1 := by
    rw [hrest _ (by decide)]
    exact hpid0
  have hslot2 : t.proc ⟨2, by decide⟩ = t₁.proc ⟨2, by decide⟩ := hrest _ (by decide)
  -- `kill`'s scan stops at slot `1`: slot `0` is `init`
  have hfind : slots.find? (fun p => (t.proc p).pid = 3) = some ⟨1, by decide⟩ := by
    refine find?_slots_of_first (by simp [h3]) (fun q hq => ?_)
    have hq0 : q = ⟨0, by decide⟩ := Fin.ext (Nat.lt_one_iff.1 (Fin.lt_def.1 hq))
    subst hq0
    simp [hslot0]
  have hkill : kill t 3 =
      (t.set ⟨1, by decide⟩ { t.proc ⟨1, by decide⟩ with killed := true }, 0) := by
    simp [kill, hfind, h1']
  refine ⟨t, ht, by rw [hslot2]; exact h2, by rw [hslot2]; exact hpid2,
    by simp [Ptable.step, Ptable.running, h0'], by rw [hkill], by rw [hkill]; simpa using h1',
    by rw [hkill]; simp, ?_⟩
  rw [hkill, Ptable.set_proc_of_ne _ _ (by decide), hslot2]
  exact h2

end Xv6
