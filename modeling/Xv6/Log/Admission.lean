import Mathlib
import Xv6.Log.Commit

/-!
# Admission to the log (`begin_op`, `log_write`, `end_op`)

Any number of processes run file-system operations bracketed by `begin_op()` and
`end_op()`. Each process is in a `Phase`: idle, inside an operation (with the distinct
blocks it has passed to `log_write` so far), or committing after the last `end_op`.
`Sys.step` performs one action of one process on the shared `struct log`; an action
that is not enabled (a `begin_op` that would sleep, an operation writing more than
`MAXOPBLOCKS` distinct blocks) gives `none`, and a panic gives `.error` with the
source's message. The interleavings are the runs of `Sys.step`.

`begin_op` reserves `MAXOPBLOCKS` log blocks for each operation in progress against
`LOGSIZE`. The invariant `Inv` that this reservation maintains says that the log's count
plus the unused budget of every operation never exceeds `LOGSIZE`; from it `end_op`'s
`log.committing` panic is unreachable (`endOp_ok_of_reachable`). `log_write` however
refuses a block once the count reaches `log.size - 1`, one less than `LOGSIZE` when
`log.size = LOGSIZE`, as `mkfs` sets it: three operations admitted together, writing
ten fresh blocks each, reach the panic (`run_threeFullOps`).
-/

namespace Xv6

namespace Log

/-- The loop of `log_write`: the first index whose block is `b`, or `n` when there is none
(log absorption). -/
def absorbIndex (lh : LogHeader) (b : Nat) : Nat :=
  ((List.range lh.n).find? fun i => lh.block i == b).getD lh.n

/-- `begin_op`: `none` when the caller sleeps (a commit is in progress, or admitting one
more operation might exhaust the log). -/
def beginOp (log : Log) : Option Log :=
  if log.committing then none
  else if LOGSIZE < log.lh.n + (log.outstanding + 1) * MAXOPBLOCKS then none
  else some { log with outstanding := log.outstanding + 1 }

/-- `log_write(b)` for a buffer holding block `b`: record `b` in the header unless it is
already there. -/
def logWrite (log : Log) (b : Nat) : Except String Log :=
  if LOGSIZE ≤ log.lh.n ∨ log.size - 1 ≤ log.lh.n then .error "too big a transaction"
  else if log.outstanding < 1 then .error "log_write outside of trans"
  else
    let i := absorbIndex log.lh b
    .ok { log with lh := { n := if i = log.lh.n then log.lh.n + 1 else log.lh.n,
                           block := Function.update log.lh.block i b } }

/-- `end_op`, up to the release of the lock: the result says whether this call commits. -/
def endOp (log : Log) : Except String (Log × Bool) :=
  let log := { log with outstanding := log.outstanding - 1 }
  if log.committing then .error "log.committing"
  else if log.outstanding = 0 then .ok ({ log with committing := true }, true)
  else .ok (log, false)

/-- The committing `end_op` after `commit()`: the header count is zero and the flag is
cleared. No other process touches the log meanwhile, since `begin_op` sleeps while
`committing` is set and no operation is in progress. -/
def commitDone (log : Log) : Log :=
  { log with lh := { log.lh with n := 0 }, committing := false }

/-! ## Facts about the absorption loop -/

/-- The header holds block `b` among its first `n` entries. -/
def Logged (lh : LogHeader) (b : Nat) : Prop := ∃ i < lh.n, lh.block i = b

theorem absorbIndex_le (lh : LogHeader) (b : Nat) : absorbIndex lh b ≤ lh.n := by
  unfold absorbIndex
  cases h : (List.range lh.n).find? fun i => lh.block i == b with
  | none => simp
  | some i =>
      have := List.mem_range.1 (List.mem_of_find?_eq_some h)
      simp only [Option.getD_some]
      omega

theorem absorbIndex_spec_of_logged {lh : LogHeader} {b : Nat} (hb : Logged lh b) :
    absorbIndex lh b < lh.n ∧ lh.block (absorbIndex lh b) = b := by
  obtain ⟨j, hj, hjb⟩ := hb
  unfold absorbIndex
  cases h : (List.range lh.n).find? fun i => lh.block i == b with
  | none =>
      have := List.find?_eq_none.1 h j (List.mem_range.2 hj)
      simp [hjb] at this
  | some i =>
      have hi := List.mem_range.1 (List.mem_of_find?_eq_some h)
      have hib := List.find?_some h
      simp only [beq_iff_eq] at hib
      exact ⟨hi, hib⟩

theorem absorbIndex_eq_of_not_logged {lh : LogHeader} {b : Nat} (hb : ¬ Logged lh b) :
    absorbIndex lh b = lh.n := by
  unfold absorbIndex
  cases h : (List.range lh.n).find? fun i => lh.block i == b with
  | none => rfl
  | some i =>
      have hi := List.mem_range.1 (List.mem_of_find?_eq_some h)
      have hib := List.find?_some h
      simp only [beq_iff_eq] at hib
      exact absurd ⟨i, hi, hib⟩ hb

/-- What a successful `log_write` does: the count grows by at most one, every block that
was logged stays logged, `b` is logged, and the rest of the log is unchanged. -/
theorem logWrite_ok {log log' : Log} {b : Nat} (h : logWrite log b = .ok log') :
    log'.lh.n ≤ log.lh.n + 1 ∧ (Logged log.lh b → log'.lh.n = log.lh.n) ∧
      (∀ c, Logged log.lh c → Logged log'.lh c) ∧ Logged log'.lh b ∧
      log'.outstanding = log.outstanding ∧ log'.committing = log.committing ∧
      1 ≤ log.outstanding := by
  unfold logWrite at h
  split_ifs at h with h1 h2
  cases h
  have hle := absorbIndex_le log.lh b
  dsimp only
  refine ⟨by split_ifs <;> omega, fun hb => ?_, fun c ⟨j, hj, hjc⟩ => ?_, ?_, rfl, rfl, by omega⟩
  · have := absorbIndex_spec_of_logged hb
    simp [Nat.ne_of_lt this.1]
  · by_cases hb : Logged log.lh b
    · -- absorbed: the count stays and entry `i` already held `b`
      obtain ⟨hlt, heq⟩ := absorbIndex_spec_of_logged hb
      refine ⟨j, by simp [Nat.ne_of_lt hlt]; exact hj, ?_⟩
      by_cases hji : j = absorbIndex log.lh b
      · subst hji
        dsimp only
        rw [Function.update_self, ← heq, hjc]
      · dsimp only
        rw [Function.update_of_ne hji, hjc]
    · -- appended at index `n`, past every logged entry
      have hn := absorbIndex_eq_of_not_logged hb
      refine ⟨j, by simp [hn]; omega, ?_⟩
      dsimp only
      rw [Function.update_of_ne (show j ≠ absorbIndex log.lh b by omega), hjc]
  · refine ⟨absorbIndex log.lh b, ?_, by simp⟩
    dsimp only
    split_ifs with hn <;> omega

/-! ## Processes sharing the log -/

/-- Where a process stands with respect to the log. -/
inductive Phase where
  | idle
  /-- Between `begin_op` and `end_op`, with the distinct blocks it has logged. -/
  | inOp (written : List Nat)
  /-- After the `end_op` that set `log.committing`, running `commit()`. -/
  | committing

/-- The log blocks an operation in progress may still add. -/
def Phase.budget : Phase → Nat
  | .inOp w => MAXOPBLOCKS - w.length
  | _ => 0

/-- `1` for an operation in progress. -/
def Phase.active : Phase → Nat
  | .inOp _ => 1
  | _ => 0

@[simp] theorem Phase.budget_idle : Phase.idle.budget = 0 := rfl
@[simp] theorem Phase.budget_inOp (w : List Nat) : (Phase.inOp w).budget = MAXOPBLOCKS - w.length := rfl
@[simp] theorem Phase.budget_committing : Phase.committing.budget = 0 := rfl
@[simp] theorem Phase.active_idle : Phase.idle.active = 0 := rfl
@[simp] theorem Phase.active_inOp (w : List Nat) : (Phase.inOp w).active = 1 := rfl
@[simp] theorem Phase.active_committing : Phase.committing.active = 0 := rfl

theorem Phase.budget_le (ph : Phase) : ph.budget ≤ MAXOPBLOCKS * ph.active := by
  cases ph <;> simp [budget, active]

/-- The shared log and the phase of every process slot. -/
structure Sys where
  log : Log
  proc : Fin NPROC → Phase

/-- One action of one process. -/
inductive Act where
  | begin (p : Fin NPROC)
  | write (p : Fin NPROC) (b : Nat)
  | finish (p : Fin NPROC)
  | commit (p : Fin NPROC)

/-- One action on the shared state: `none` when it is not enabled, `.error` when the
kernel panics. A write is enabled when it keeps the operation within `MAXOPBLOCKS`
distinct blocks. -/
def Sys.step (s : Sys) : Act → Option (Except String Sys)
  | .begin p =>
      match s.proc p with
      | .idle => (beginOp s.log).map fun log => .ok ⟨log, Function.update s.proc p (.inOp [])⟩
      | _ => none
  | .write p b =>
      match s.proc p with
      | .inOp w =>
          if b ∈ w ∨ w.length < MAXOPBLOCKS then
            some ((logWrite s.log b).map fun log =>
              ⟨log, Function.update s.proc p (.inOp (if b ∈ w then w else b :: w))⟩)
          else none
      | _ => none
  | .finish p =>
      match s.proc p with
      | .inOp _ =>
          some ((endOp s.log).map fun r =>
            ⟨r.1, Function.update s.proc p (if r.2 then .committing else .idle)⟩)
      | _ => none
  | .commit p =>
      match s.proc p with
      | .committing => some (.ok ⟨commitDone s.log, Function.update s.proc p .idle⟩)
      | _ => none

/-- A schedule of actions, stopping at the first that is not enabled or panics. -/
def Sys.run (s : Sys) : List Act → Option (Except String Sys)
  | [] => some (.ok s)
  | a :: as =>
      match s.step a with
      | some (.ok s') => s'.run as
      | r => r

/-- The log as `initlog` leaves it on the file system `mkfs` builds (`nlog = LOGSIZE`):
recovered, nothing in progress. -/
def bootLog (start : Nat) : Log := ⟨start, LOGSIZE, 0, false, ⟨0, fun _ => 0⟩⟩

def Sys.boot (start : Nat) : Sys := ⟨bootLog start, fun _ => .idle⟩

/-- The states some interleaving reaches without a panic. -/
inductive Reachable : Sys → Prop
  | boot (start : Nat) : Reachable (Sys.boot start)
  | step {s s' : Sys} (a : Act) : Reachable s → s.step a = some (.ok s') → Reachable s'

/-! ## The invariant of the reservation -/

/-- What `begin_op`'s reservation maintains. -/
structure Inv (s : Sys) : Prop where
  outstanding : s.log.outstanding = ∑ p, (s.proc p).active
  committing : s.log.committing = true → s.log.outstanding = 0
  committer : ∀ p, s.proc p = .committing →
    s.log.committing = true ∧ ∀ q, s.proc q = .committing → q = p
  budget : s.log.lh.n + ∑ p, (s.proc p).budget ≤ LOGSIZE
  logged : ∀ p w, s.proc p = .inOp w → ∀ b ∈ w, Logged s.log.lh b
  within : ∀ p w, s.proc p = .inOp w → w.length ≤ MAXOPBLOCKS

/-- Changing one process's phase changes a sum over processes by the difference. -/
theorem sum_phase_update (f : Fin NPROC → Phase) (p : Fin NPROC) (ph : Phase) (g : Phase → Nat) :
    (∑ q, g (Function.update f p ph q)) + g (f p) = (∑ q, g (f q)) + g ph := by
  have hupd : (∑ q, g (Function.update f p ph q)) = ∑ q, Function.update (g ∘ f) p (g ph) q := by
    refine Finset.sum_congr rfl fun q _ => ?_
    by_cases hq : q = p
    · subst hq
      simp
    · simp [Function.update_of_ne hq]
  rw [hupd, Finset.sum_update_of_mem (Finset.mem_univ p), ← Finset.add_sum_erase _ _ (Finset.mem_univ p),
    Finset.sdiff_singleton_eq_erase]
  simp only [Function.comp_apply]
  omega

theorem sum_budget_le (f : Fin NPROC → Phase) :
    ∑ q, (f q).budget ≤ MAXOPBLOCKS * ∑ q, (f q).active := by
  rw [Finset.mul_sum]
  exact Finset.sum_le_sum fun q _ => (f q).budget_le

theorem update_eq_inOp {f : Fin NPROC → Phase} {p q : Fin NPROC} {ph : Phase} {w : List Nat}
    (h : Function.update f p ph q = .inOp w) : (q = p ∧ ph = .inOp w) ∨ (q ≠ p ∧ f q = .inOp w) := by
  by_cases hq : q = p
  · subst hq
    exact Or.inl ⟨rfl, by simpa using h⟩
  · exact Or.inr ⟨hq, by simpa [Function.update_of_ne hq] using h⟩

/-- A fact of every operation in progress holds after one process's phase changes, when it holds
of that process's new phase and of every other process. -/
theorem forall_inOp_update {f : Fin NPROC → Phase} {p : Fin NPROC} {ph : Phase}
    {P : Fin NPROC → List Nat → Prop} (hp : ∀ w, ph = .inOp w → P p w)
    (hq : ∀ q w, q ≠ p → f q = .inOp w → P q w) :
    ∀ q w, Function.update f p ph q = .inOp w → P q w := by
  intro q w h
  rcases update_eq_inOp h with ⟨rfl, h'⟩ | ⟨hne, h'⟩
  · exact hp w h'
  · exact hq q w hne h'

theorem update_eq_committing {f : Fin NPROC → Phase} {p q : Fin NPROC} {ph : Phase}
    (h : Function.update f p ph q = .committing) :
    (q = p ∧ ph = .committing) ∨ (q ≠ p ∧ f q = .committing) := by
  by_cases hq : q = p
  · subst hq
    exact Or.inl ⟨rfl, by simpa using h⟩
  · exact Or.inr ⟨hq, by simpa [Function.update_of_ne hq] using h⟩

theorem inv_boot (start : Nat) : Inv (Sys.boot start) where
  outstanding := by simp [Sys.boot, bootLog, Phase.active]
  committing := by simp [Sys.boot, bootLog]
  committer := by simp [Sys.boot]
  budget := by simp [Sys.boot, bootLog, Phase.budget]
  logged := by simp [Sys.boot]
  within := by simp [Sys.boot]

/-! ## What each action does -/

section Spec

variable {s s' : Sys} {p : Fin NPROC}

theorem beginOp_some {log log' : Log} (h : beginOp log = some log') :
    log.committing = false ∧ log.lh.n + (log.outstanding + 1) * MAXOPBLOCKS ≤ LOGSIZE ∧
      log' = { log with outstanding := log.outstanding + 1 } := by
  unfold beginOp at h
  split_ifs at h with h1 h2
  cases h
  exact ⟨by simpa using h1, by omega, rfl⟩

theorem endOp_ok {log log' : Log} {c : Bool} (h : endOp log = .ok (log', c)) :
    log.committing = false ∧ log'.outstanding = log.outstanding - 1 ∧ log'.lh = log.lh ∧
      log'.committing = c ∧ (c = true ↔ log.outstanding - 1 = 0) := by
  unfold endOp at h
  dsimp only at h
  split_ifs at h with h1 h2 <;> cases h
  · exact ⟨by simpa using h1, rfl, rfl, rfl, by simpa using h2⟩
  · exact ⟨by simpa using h1, rfl, rfl, by simpa using h1, by simpa using h2⟩

theorem step_begin (h : s.step (.begin p) = some (.ok s')) :
    s.proc p = .idle ∧ beginOp s.log = some s'.log ∧
      s'.proc = Function.update s.proc p (.inOp []) := by
  simp only [Sys.step] at h
  split at h
  · rename_i hp
    cases hb : beginOp s.log with
    | none => simp [hb] at h
    | some log =>
        simp only [hb, Option.map_some, Option.some.injEq, Except.ok.injEq] at h
        subst h
        exact ⟨hp, rfl, rfl⟩
  · cases h

theorem step_write {b : Nat} (h : s.step (.write p b) = some (.ok s')) :
    ∃ w, s.proc p = .inOp w ∧ (b ∈ w ∨ w.length < MAXOPBLOCKS) ∧ logWrite s.log b = .ok s'.log ∧
      s'.proc = Function.update s.proc p (.inOp (if b ∈ w then w else b :: w)) := by
  simp only [Sys.step] at h
  split at h
  · rename_i w hp
    by_cases hen : b ∈ w ∨ w.length < MAXOPBLOCKS
    swap
    · rw [if_neg hen] at h
      cases h
    rw [if_pos hen] at h
    cases hw : logWrite s.log b with
    | error e => simp [hw, Except.map] at h
    | ok log =>
        simp only [hw, Except.map, Option.some.injEq, Except.ok.injEq] at h
        subst h
        exact ⟨w, hp, hen, rfl, rfl⟩
  · cases h

theorem step_finish (h : s.step (.finish p) = some (.ok s')) :
    ∃ w c, s.proc p = .inOp w ∧ endOp s.log = .ok (s'.log, c) ∧
      s'.proc = Function.update s.proc p (if c then .committing else .idle) := by
  simp only [Sys.step] at h
  split at h
  · rename_i w hp
    cases he : endOp s.log with
    | error e => simp [he, Except.map] at h
    | ok r =>
        simp only [he, Except.map, Option.some.injEq, Except.ok.injEq] at h
        subst h
        exact ⟨w, r.2, hp, rfl, rfl⟩
  · cases h

theorem step_commit (h : s.step (.commit p) = some (.ok s')) :
    s.proc p = .committing ∧ s'.log = commitDone s.log ∧
      s'.proc = Function.update s.proc p .idle := by
  simp only [Sys.step] at h
  split at h
  · rename_i hp
    simp only [Option.some.injEq, Except.ok.injEq] at h
    subst h
    exact ⟨hp, rfl, rfl⟩
  · cases h

end Spec

/-! ## Each action keeps the invariant -/

section Preserve

variable {s s' : Sys} {p : Fin NPROC}

/-- An operation in progress is counted by `outstanding`. -/
theorem one_le_outstanding (hi : Inv s) {q : Fin NPROC} {w : List Nat} (hq : s.proc q = .inOp w) :
    1 ≤ s.log.outstanding := by
  rw [hi.outstanding]
  calc 1 = (s.proc q).active := by rw [hq]; rfl
    _ ≤ ∑ r, (s.proc r).active :=
      Finset.single_le_sum (f := fun r => (s.proc r).active) (fun r _ => Nat.zero_le _)
        (Finset.mem_univ q)

/-- No process commits while the flag is clear. -/
theorem not_committing_phase (hi : Inv s) (hc : s.log.committing = false) (q : Fin NPROC) :
    s.proc q ≠ .committing := fun hq => by
  have := (hi.committer q hq).1
  simp_all

theorem inv_begin (hi : Inv s) (h : s.step (.begin p) = some (.ok s')) : Inv s' := by
  obtain ⟨hp, hb, hproc⟩ := step_begin h
  obtain ⟨hc, hroom, hlog⟩ := beginOp_some hb
  have hact := sum_phase_update s.proc p (.inOp []) Phase.active
  have hbud := sum_phase_update s.proc p (.inOp []) Phase.budget
  have hle := sum_budget_le s.proc
  rw [← hproc, hp] at hact hbud
  rw [← hi.outstanding] at hle
  simp only [Phase.active_idle, Phase.active_inOp, Phase.budget_idle, Phase.budget_inOp,
    List.length_nil, Nat.sub_zero] at hact hbud
  have hout : s'.log.outstanding = s.log.outstanding + 1 := by rw [hlog]
  have hcom : s'.log.committing = false := by rw [hlog]; exact hc
  have hlh : s'.log.lh = s.log.lh := by rw [hlog]
  refine ⟨?_, ?_, ?_, ?_, ?_, ?_⟩
  · rw [hout, hi.outstanding]
    omega
  · intro h'
    simp [hcom] at h'
  · intro q hq
    rw [hproc] at hq
    rcases update_eq_committing hq with ⟨-, h'⟩ | ⟨-, h'⟩
    · cases h'
    · exact absurd h' (not_committing_phase hi hc q)
  · rw [hlh]
    have hbudget := hi.budget
    simp only [MAXOPBLOCKS, LOGSIZE] at hroom hle hbud hbudget ⊢
    omega
  · rw [hproc, hlh]
    refine forall_inOp_update (fun w h' c hcw => ?_) fun q w _ h' => hi.logged q w h'
    cases h'
    cases hcw
  · rw [hproc]
    refine forall_inOp_update (fun w h' => ?_) fun q w _ h' => hi.within q w h'
    cases h'
    simp [MAXOPBLOCKS]

theorem inv_write {b : Nat} (hi : Inv s) (h : s.step (.write p b) = some (.ok s')) : Inv s' := by
  obtain ⟨w, hp, hen, hw, hproc⟩ := step_write h
  obtain ⟨hn1, hnabs, hkeep, hbin, hout, hcom, -⟩ := logWrite_ok hw
  have hact := sum_phase_update s.proc p (.inOp (if b ∈ w then w else b :: w)) Phase.active
  have hbud := sum_phase_update s.proc p (.inOp (if b ∈ w then w else b :: w)) Phase.budget
  rw [← hproc, hp] at hact hbud
  simp only [Phase.active_inOp] at hact
  have hwl := hi.within p w hp
  refine ⟨?_, ?_, ?_, ?_, ?_, ?_⟩
  · rw [hout, hi.outstanding]
    omega
  · rw [hcom, hout]
    exact hi.committing
  · intro q hq
    rw [hproc] at hq
    rcases update_eq_committing hq with ⟨-, h'⟩ | ⟨hqp, h'⟩
    · cases h'
    · obtain ⟨hc, huniq⟩ := hi.committer q h'
      refine ⟨by rw [hcom]; exact hc, fun r hr => ?_⟩
      rw [hproc] at hr
      rcases update_eq_committing hr with ⟨-, h''⟩ | ⟨-, h''⟩
      · cases h''
      · exact huniq r h''
  · have hbudget := hi.budget
    by_cases hb : b ∈ w
    · -- absorbed: the count does not grow
      have := hnabs (hi.logged p w hp b hb)
      simp only [hb, if_true] at hbud
      omega
    · -- a fresh block: the count grows by at most the one unit of budget it uses
      have hlt : w.length < MAXOPBLOCKS := hen.resolve_left hb
      simp only [hb, if_false, Phase.budget_inOp, List.length_cons] at hbud
      omega
  · rw [hproc]
    refine forall_inOp_update (fun v h' c hcv => ?_)
      fun q v _ h' c hcv => hkeep c (hi.logged q v h' c hcv)
    cases h'
    split_ifs at hcv with hb
    · exact hkeep c (hi.logged p w hp c hcv)
    · rcases List.mem_cons.1 hcv with rfl | hcw
      · exact hbin
      · exact hkeep c (hi.logged p w hp c hcw)
  · rw [hproc]
    refine forall_inOp_update (fun v h' => ?_) fun q v _ h' => hi.within q v h'
    cases h'
    split_ifs with hb
    · exact hwl
    · simp only [List.length_cons]
      have := hen.resolve_left hb
      omega

theorem inv_finish (hi : Inv s) (h : s.step (.finish p) = some (.ok s')) : Inv s' := by
  obtain ⟨w, c, hp, he, hproc⟩ := step_finish h
  obtain ⟨hc, hout, hlh, hcom, hcommit⟩ := endOp_ok he
  have hact := sum_phase_update s.proc p (if c then .committing else .idle) Phase.active
  have hbud := sum_phase_update s.proc p (if c then .committing else .idle) Phase.budget
  rw [← hproc, hp] at hact hbud
  have hph : ∀ ph : Phase, ph = (if c then .committing else .idle) → ph.active = 0 ∧ ph.budget = 0 := by
    intro ph hph
    split_ifs at hph <;> subst hph <;> simp
  obtain ⟨ha0, hb0⟩ := hph _ rfl
  rw [ha0, Phase.active_inOp] at hact
  rw [hb0] at hbud
  refine ⟨?_, ?_, ?_, ?_, ?_, ?_⟩
  · rw [hout, hi.outstanding]
    omega
  · intro hc'
    rw [hcom] at hc'
    rw [hout]
    exact hcommit.1 hc'
  · intro q hq
    rw [hproc] at hq
    rcases update_eq_committing hq with ⟨rfl, h'⟩ | ⟨-, h'⟩
    · -- the caller that committed is the only committer
      have hct : c = true := by cases c <;> simp_all
      refine ⟨by rw [hcom, hct], fun r hr => ?_⟩
      rw [hproc] at hr
      rcases update_eq_committing hr with ⟨hrq, -⟩ | ⟨-, h''⟩
      · exact hrq
      · exact absurd h'' (not_committing_phase hi hc r)
    · exact absurd h' (not_committing_phase hi hc q)
  · rw [hlh]
    have := hi.budget
    omega
  · rw [hproc, hlh]
    exact forall_inOp_update (fun v h' => by split_ifs at h') fun q v _ h' => hi.logged q v h'
  · rw [hproc]
    exact forall_inOp_update (fun v h' => by split_ifs at h') fun q v _ h' => hi.within q v h'

theorem inv_commit (hi : Inv s) (h : s.step (.commit p) = some (.ok s')) : Inv s' := by
  obtain ⟨hp, hlog, hproc⟩ := step_commit h
  obtain ⟨hc, huniq⟩ := hi.committer p hp
  have hzero := hi.committing hc
  have hact := sum_phase_update s.proc p .idle Phase.active
  have hbud := sum_phase_update s.proc p .idle Phase.budget
  rw [← hproc, hp, Phase.active_idle, Phase.active_committing] at hact
  rw [← hproc, hp, Phase.budget_idle, Phase.budget_committing] at hbud
  -- no operation is in progress while a commit runs
  have hnone : ∀ q v, s.proc q ≠ .inOp v := fun q v hq => by
    have := one_le_outstanding hi hq
    omega
  refine ⟨?_, ?_, ?_, ?_, ?_, ?_⟩
  · rw [hlog]
    change s.log.outstanding = _
    have := hi.outstanding
    omega
  · intro hc'
    rw [hlog] at hc'
    cases hc'
  · intro q hq
    rw [hproc] at hq
    rcases update_eq_committing hq with ⟨-, h'⟩ | ⟨hqp, h'⟩
    · cases h'
    · exact absurd (huniq q h') hqp
  · rw [hlog]
    have := hi.budget
    change 0 + _ ≤ _
    omega
  · rw [hproc]
    exact forall_inOp_update (fun v h' => nomatch h') fun q v _ h' => absurd h' (hnone q v)
  · rw [hproc]
    exact forall_inOp_update (fun v h' => nomatch h') fun q v _ h' => absurd h' (hnone q v)

theorem inv_step (hi : Inv s) {a : Act} (h : s.step a = some (.ok s')) : Inv s' := by
  cases a with
  | begin p => exact inv_begin hi h
  | write p b => exact inv_write hi h
  | finish p => exact inv_finish hi h
  | commit p => exact inv_commit hi h

end Preserve

theorem reachable_inv {s : Sys} (h : Reachable s) : Inv s := by
  induction h with
  | boot start => exact inv_boot start
  | step a _ hs ih => exact inv_step ih hs

/-- `end_op`'s `log.committing` panic is unreachable: in every state an interleaving
reaches, a process inside an operation can always finish it. -/
theorem endOp_ok_of_reachable {s : Sys} (h : Reachable s) {p : Fin NPROC} {w : List Nat}
    (hp : s.proc p = .inOp w) : ∃ r, endOp s.log = .ok r := by
  have hi := reachable_inv h
  have hc : s.log.committing = false := by
    cases hc : s.log.committing
    · rfl
    · have := one_le_outstanding hi hp
      have := hi.committing hc
      omega
  unfold endOp
  dsimp only
  rw [if_neg (by simp [hc])]
  split_ifs
  · exact ⟨_, rfl⟩
  · exact ⟨_, rfl⟩

/-- The first process enters an operation, and can finish it. -/
theorem endOp_ok_first_op :
    ∃ s, Reachable s ∧ s.proc ⟨0, NPROC_pos⟩ = .inOp [] ∧ ∃ r, endOp s.log = .ok r := by
  have hs : Reachable _ := .step (.begin ⟨0, NPROC_pos⟩) (.boot 2) rfl
  exact ⟨_, hs, rfl, endOp_ok_of_reachable (p := ⟨0, NPROC_pos⟩) (w := []) hs rfl⟩

/-- The count of logged blocks never exceeds `LOGSIZE` in a reachable state. -/
theorem n_le_LOGSIZE_of_reachable {s : Sys} (h : Reachable s) : s.log.lh.n ≤ LOGSIZE := by
  have := (reachable_inv h).budget
  omega

/-! ## Where the reservation and `log_write` disagree -/

/-- A panic met along a schedule from a reachable state is met in a reachable state. -/
theorem run_error_reachable {s : Sys} (hs : Reachable s) :
    ∀ {acts : List Act} {e : String}, s.run acts = some (.error e) →
      ∃ t a, Reachable t ∧ t.step a = some (.error e)
  | [], _, h => by cases h
  | a :: as, e, h => by
      simp only [Sys.run] at h
      split at h
      · rename_i s' hstep
        exact run_error_reachable (Reachable.step a hs hstep) h
      · exact ⟨s, a, hs, h⟩

/-- Three processes each begin an operation, then write ten fresh blocks each: `begin_op`
admits all three (`0 + 3 * MAXOPBLOCKS ≤ LOGSIZE`), and each operation stays within
`MAXOPBLOCKS` distinct blocks. -/
def threeFullOps : List Act :=
  [.begin ⟨0, NPROC_pos⟩, .begin ⟨1, one_lt_NPROC⟩, .begin ⟨2, two_lt_NPROC⟩] ++
    (List.range 10).map (fun b => .write ⟨0, NPROC_pos⟩ b) ++
    (List.range 10).map (fun b => .write ⟨1, one_lt_NPROC⟩ (10 + b)) ++
    (List.range 10).map (fun b => .write ⟨2, two_lt_NPROC⟩ (20 + b)) ++
    [.finish ⟨0, NPROC_pos⟩, .finish ⟨1, one_lt_NPROC⟩, .finish ⟨2, two_lt_NPROC⟩]

/-- The thirtieth distinct block panics: the count has reached `log.size - 1 = 29`. -/
theorem run_threeFullOps :
    (Sys.boot 2).run threeFullOps = some (.error "too big a transaction") := by
  rfl

/-- `log_write`'s panic is reachable by operations that each write at most `MAXOPBLOCKS`
distinct blocks. -/
theorem logWrite_panic_reachable :
    ∃ t a, Reachable t ∧ t.step a = some (.error "too big a transaction") :=
  run_error_reachable (Reachable.boot 2) run_threeFullOps

end Log

end Xv6
