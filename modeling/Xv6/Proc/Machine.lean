import Xv6.Proc.Invariants

/-!
# CPUs

Each CPU runs `scheduler`, and `cpu->proc` is the process it has switched to. The scheduler
of an idle CPU takes a `RUNNABLE` process and marks it `RUNNING`; the process then runs on
that CPU until a call of its own (`exit`, `sleep`, `yield`, or `wait` going to sleep)
changes its state and `sched` switches back. All of this happens under `ptable.lock`, which
`swtch` hands from the process to the scheduler and back, so each of these moves is one step
of the machine. Wakeups may come from any CPU, interrupt handlers included.

A run of the machine projects onto a run of the table (`Machine.Reachable.table`), and a
process never runs on two CPUs: the `RUNNING` processes are exactly those some CPU runs, each
on one (`Machine.inv_of_reachable`).
-/

namespace Xv6

open ProcState

/-- The process that performs an action, if any: a wakeup may come from an interrupt, and the
scheduler's switch is made for the process it picks. -/
def PAct.actor : PAct → Option (Fin NPROC)
  | .fork cur _ _ => some cur
  | .exit cur => some cur
  | .wait cur => some cur
  | .kill cur _ => some cur
  | .sleep cur _ => some cur
  | .yield p => some p
  | .wakeup _ => none
  | .run _ => none

/-- The process table and the process each CPU runs. -/
structure Machine where
  table : Ptable
  cpu : Fin NCPU → Option (Fin NPROC)

namespace Machine

/-- One step of one CPU. -/
inductive Step : Machine → Machine → Prop
  /-- `scheduler` on an idle CPU switches to a runnable process. -/
  | schedule {m : Machine} {c : Fin NCPU} {p : Fin NPROC} {t : Ptable} :
      m.cpu c = none → m.table.step (.run p) = some (.ok t) →
      Step m ⟨t, Function.update m.cpu c (some p)⟩
  /-- The process a CPU runs makes a call; `sched` gives the CPU back to its scheduler unless
  the process is still running. -/
  | call {m : Machine} {c : Fin NCPU} {p : Fin NPROC} {a : PAct} {t : Ptable} :
      m.cpu c = some p → a.actor = some p → m.table.step a = some (.ok t) →
      Step m ⟨t, Function.update m.cpu c (if t.running p then some p else none)⟩
  /-- A wakeup, from a process or an interrupt handler on any CPU. -/
  | wakeup {m : Machine} {ch : Chan} {t : Ptable} :
      m.table.step (.wakeup ch) = some (.ok t) → Step m ⟨t, m.cpu⟩

/-- After `userinit`, before any CPU has scheduled. -/
def boot : Machine := ⟨userinit Ptable.zero, fun _ => none⟩

/-- The machines some run from boot reaches. -/
inductive Reachable : Machine → Prop
  | boot : Reachable boot
  | step {m m' : Machine} : Reachable m → Step m m' → Reachable m'

/-- Every step of the machine is a step of its table. -/
theorem Step.table {m m' : Machine} (h : Step m m') : ∃ a, m.table.step a = some (.ok m'.table) := by
  cases h with
  | schedule _ hs => exact ⟨_, hs⟩
  | call _ _ hs => exact ⟨_, hs⟩
  | wakeup hs => exact ⟨_, hs⟩

theorem Reachable.table {m : Machine} (h : m.Reachable) : PReachable m.table := by
  induction h with
  | boot => exact .boot
  | step _ hs ih =>
    obtain ⟨a, ha⟩ := hs.table
    exact .step a ih ha

end Machine

/-! ## Who runs -/

/-- A step other than the scheduler's switch changes whether a process runs only for the process
that made it. -/
theorem running_step {t t' : Ptable} {a : PAct} (ha : ∀ p, a ≠ .run p)
    (h : t.step a = some (.ok t')) {q : Fin NPROC} (hq : a.actor ≠ some q) :
    t'.running q ↔ t.running q := by
  have hstable : WakeStable (· = RUNNING) := eq_wakeStable (by decide) (by decide)
  -- a change of slot `p ≠ q` leaves `q` alone
  have hset : ∀ {t₀ : Ptable} {p : Fin NPROC} {x : Proc}, p ≠ q →
      ((t₀.set p x).running q ↔ t₀.running q) :=
    fun hpq => by rw [Ptable.running, Ptable.set_proc_of_ne _ _ (Ne.symm hpq)]; rfl
  cases a with
  | fork cur kstackOk copyOk =>
    simp only [Ptable.step] at h
    split_ifs at h
    cases h
    rcases fork_slots t cur kstackOk copyOk with h' | ⟨np, hfind, -, -, hother, -, hnp⟩
    · rw [h']
    by_cases hqn : q = np
    · -- the slot `fork` takes was free, and is runnable or free afterwards
      subst q
      have hu := unused_of_find? hfind
      simp only [Ptable.running, hu]
      rcases hnp with ⟨h', -⟩ | ⟨h', -⟩
      · rw [h']
      · rw [h']; decide
    · simp only [Ptable.running, hother q hqn]
  | exit cur =>
    simp only [Ptable.step] at h
    split_ifs at h
    obtain ⟨-, t₁, hpass, -, rfl⟩ := exit_spec (Option.some.inj h)
    have hcq : cur ≠ q := fun hc => hq (by rw [hc]; rfl)
    rw [hset hcq]
    exact hpass.stable hstable q
  | wait cur =>
    simp only [Ptable.step] at h
    split_ifs at h
    cases h
    rcases wait_spec t cur with ⟨p, -, hz, hw⟩ | hw | hw <;> rw [hw]
    · by_cases hpq : p = q
      · subst q
        simp [Ptable.running, hz]
      · exact hset hpq
    · exact hset fun hc => hq (by rw [hc]; rfl)
  | kill cur pid =>
    simp only [Ptable.step] at h
    split_ifs at h
    cases h
    rcases kill_spec t pid with hk | ⟨p, hk⟩ <;> rw [hk]
    by_cases hpq : p = q
    · subst q
      simp only [Ptable.running, Ptable.set_proc_self]
      exact hstable _
    · exact hset hpq
  | sleep cur c =>
    simp only [Ptable.step] at h
    split_ifs at h
    cases h
    exact hset fun hc => hq (by rw [hc]; rfl)
  | wakeup c =>
    cases h
    exact wakeup1_stable t c q hstable
  | run p => exact absurd rfl (ha p)
  | yield p =>
    simp only [Ptable.step] at h
    split_ifs at h
    cases h
    exact hset fun hc => hq (by rw [hc]; rfl)

namespace Machine

/-- The `RUNNING` processes are exactly those the CPUs run, each on one CPU. -/
structure Inv (m : Machine) : Prop where
  running : ∀ c p, m.cpu c = some p → m.table.running p
  onCpu : ∀ p, m.table.running p → ∃ c, m.cpu c = some p
  unique : ∀ c c' p, m.cpu c = some p → m.cpu c' = some p → c = c'

theorem inv_boot : boot.Inv := by
  refine ⟨fun c p h => by simp [boot] at h, fun p hp => ?_, fun c c' p h => by simp [boot] at h⟩
  -- nothing runs before the first switch
  have : (userinit Ptable.zero).running p := hp
  rw [Ptable.running, userinit_zero_proc] at this
  split_ifs at this
  simp [Proc.zero] at this

/-- What a CPU runs after its entry was set to `o`. -/
theorem update_eq_some {f : Fin NCPU → Option (Fin NPROC)} {c c' : Fin NCPU}
    {o : Option (Fin NPROC)} {q : Fin NPROC} (h : Function.update f c o c' = some q) :
    c' = c ∧ o = some q ∨ c' ≠ c ∧ f c' = some q := by
  by_cases e : c' = c
  · subst e
    rw [Function.update_self] at h
    exact .inl ⟨rfl, h⟩
  · rw [Function.update_of_ne e] at h
    exact .inr ⟨e, h⟩

theorem Inv.step {m m' : Machine} (hinv : m.Inv) (h : Step m m') : m'.Inv := by
  obtain ⟨hrun, hon, huniq⟩ := hinv
  cases h with
  | @schedule c p t hc hs =>
    -- the picked process was runnable, so no CPU ran it
    have hp : (m.table.proc p).state = .RUNNABLE := by
      simp only [Ptable.step] at hs
      split_ifs at hs with hr
      exact hr
    have hnot : ∀ c', m.cpu c' ≠ some p := fun c' h' => by
      have := hrun c' p h'
      rw [Ptable.running, hp] at this
      cases this
    have ht : t = m.table.set p { m.table.proc p with state := .RUNNING } := by
      simp only [Ptable.step, hp, if_true] at hs
      exact (Except.ok.inj (Option.some.inj hs)).symm
    have hrun' : ∀ q, t.running q ↔ m.table.running q ∨ q = p := by
      intro q
      rw [ht, Ptable.running, Ptable.set_proc]
      by_cases hq : q = p
      · simp [hq]
      · simp [hq, Ptable.running]
    refine ⟨fun c' q h' => ?_, fun q hq => ?_, fun c₁ c₂ q h₁ h₂ => ?_⟩
    · rw [hrun']
      rcases update_eq_some h' with ⟨-, e⟩ | ⟨-, e⟩
      · exact .inr (Option.some_inj.1 e).symm
      · exact .inl (hrun c' q e)
    · rcases (hrun' q).1 hq with hq | rfl
      · obtain ⟨c', hc'⟩ := hon q hq
        have : c' ≠ c := fun h' => by rw [h', hc] at hc'; cases hc'
        exact ⟨c', (Function.update_of_ne this _ _).trans hc'⟩
      · exact ⟨c, by simp⟩
    · rcases update_eq_some h₁ with ⟨e₁, f₁⟩ | ⟨-, f₁⟩ <;>
        rcases update_eq_some h₂ with ⟨e₂, f₂⟩ | ⟨-, f₂⟩
      · rw [e₁, e₂]
      · cases f₁
        exact absurd f₂ (hnot c₂)
      · cases f₂
        exact absurd f₁ (hnot c₁)
      · exact huniq c₁ c₂ q f₁ f₂
  | @call c p a t hc ha hs =>
    have hnrun : ∀ p', a ≠ .run p' := fun p' e => by rw [e] at ha; cases ha
    -- every process but the caller runs as before
    have hother : ∀ q, q ≠ p → (t.running q ↔ m.table.running q) :=
      fun q hqp => running_step hnrun hs (by rw [ha]; exact fun e => hqp (Option.some_inj.1 e).symm)
    -- the caller runs on no other CPU, and stays on its own while it runs
    have hcp : ∀ c', m.cpu c' = some p → c' = c := fun c' h' => huniq c' c p h' hc
    have hkeep : ∀ {q}, (if t.running p then some p else none) = some q → q = p ∧ t.running p := by
      intro q e
      by_cases hr : t.running p
      · rw [if_pos hr] at e
        exact ⟨(Option.some_inj.1 e).symm, hr⟩
      · rw [if_neg hr] at e
        cases e
    refine ⟨fun c' q h' => ?_, fun q hq => ?_, fun c₁ c₂ q h₁ h₂ => ?_⟩
    · rcases update_eq_some h' with ⟨-, e⟩ | ⟨e, f⟩
      · obtain ⟨rfl, hr⟩ := hkeep e
        exact hr
      · by_cases hqp : q = p
        · exact absurd (hcp c' (hqp ▸ f)) e
        · exact (hother q hqp).2 (hrun c' q f)
    · by_cases hqp : q = p
      · subst q
        exact ⟨c, by simp [hq]⟩
      · obtain ⟨c', hc'⟩ := hon q ((hother q hqp).1 hq)
        have : c' ≠ c := fun h' => by rw [h', hc] at hc'; exact hqp (Option.some_inj.1 hc').symm
        exact ⟨c', (Function.update_of_ne this _ _).trans hc'⟩
    · rcases update_eq_some h₁ with ⟨e₁, f₁⟩ | ⟨e₁, f₁⟩ <;>
        rcases update_eq_some h₂ with ⟨e₂, f₂⟩ | ⟨e₂, f₂⟩
      · rw [e₁, e₂]
      · obtain ⟨rfl, -⟩ := hkeep f₁
        exact absurd (hcp c₂ f₂) e₂
      · obtain ⟨rfl, -⟩ := hkeep f₂
        exact absurd (hcp c₁ f₁) e₁
      · exact huniq c₁ c₂ q f₁ f₂
  | @wakeup ch t hs =>
    have hnrun : ∀ p', PAct.wakeup ch ≠ .run p' := fun p' e => by cases e
    have hsame : ∀ q, t.running q ↔ m.table.running q :=
      fun q => running_step hnrun hs (fun e => by cases e)
    exact ⟨fun c q h' => (hsame q).2 (hrun c q h'), fun q hq => hon q ((hsame q).1 hq), huniq⟩

theorem inv_of_reachable {m : Machine} (h : m.Reachable) : m.Inv := by
  induction h with
  | boot => exact inv_boot
  | step _ hs ih => exact ih.step hs

/-- **One CPU per process.** In every state a run of the machine reaches, no process runs on
two CPUs, and the `RUNNING` processes are exactly those some CPU runs. -/
theorem running_one_cpu {m : Machine} (h : m.Reachable) :
    (∀ c c' p, m.cpu c = some p → m.cpu c' = some p → c = c') ∧
      ∀ p, m.table.running p ↔ ∃ c, m.cpu c = some p := by
  have hinv := inv_of_reachable h
  exact ⟨hinv.unique, fun p => ⟨hinv.onCpu p, fun ⟨c, hc⟩ => hinv.running c p hc⟩⟩

/-- The first CPU schedules `init`. -/
theorem running_one_cpu_schedule :
    ∃ m : Machine, m.Reachable ∧ m.cpu ⟨0, NCPU_pos⟩ = some ⟨0, NPROC_pos⟩ ∧
      (∀ c c' p, m.cpu c = some p → m.cpu c' = some p → c = c') ∧
        ∀ p, m.table.running p ↔ ∃ c, m.cpu c = some p := by
  have hm : Reachable _ := .step .boot (.schedule (c := ⟨0, NCPU_pos⟩) (p := ⟨0, NPROC_pos⟩) rfl rfl)
  exact ⟨_, hm, by simp, running_one_cpu hm⟩

end Machine

end Xv6
