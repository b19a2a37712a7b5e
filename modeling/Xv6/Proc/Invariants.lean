import Xv6.Proc.Kill

/-!
# What every reachable process table keeps

Each function of the table changes few slots, and in few ways: a wakeup turns a sleeper
into a runnable process, `exit` passes its children to `initproc`, `allocproc` takes an
`UNUSED` slot and `wait` gives one back. The lemmas below say so once per function, and the
invariants are assembled from them:

* `Ptable.Inv`: `initproc` exists and never exits, no `EMBRYO` survives a call, every
  parent pointer names a live process, and every process but `init` has one
  (`inv_of_reachable`); so every process other than `init` that the scheduler or `wait`
  can see has a parent that is not `UNUSED` (`parent_not_unused`);
* `wait` returns a pid only for a zombie child of the caller, whose slot it frees
  (`wait_reaped`);
* `Ptable.PidsOk`: the pids of the slots in use are positive, below `nextpid` and pairwise
  distinct, over every run of fewer than `2 ^ 31 - 2` steps (`pidsOk_of_run`). The bound is
  needed: `nextpid` is an `int`, and the `2 ^ 31 - 2`-th allocation after boot takes it past
  `INT_MAX` (`fork_negative_pid`).
-/

namespace Xv6

namespace ProcState

/-- The state a wakeup leaves: a sleeper becomes runnable. -/
def awake : ProcState → ProcState
  | .SLEEPING => .RUNNABLE
  | s => s

@[simp] theorem awake_awake (s : ProcState) : s.awake.awake = s.awake := by
  cases s <;> rfl

/-- A process the scheduler runs or may wake. -/
def Live (s : ProcState) : Prop := s = .SLEEPING ∨ s = .RUNNABLE ∨ s = .RUNNING

/-- A process that the scheduler or `wait` sees: live, or a zombie. -/
def Active (s : ProcState) : Prop := s.Live ∨ s = .ZOMBIE

/-- A property of states that waking a sleeper does not change. -/
def WakeStable (P : ProcState → Prop) : Prop := ∀ s, P s.awake ↔ P s

theorem live_wakeStable : WakeStable Live := by
  intro s
  cases s <;> simp [awake, Live]

theorem active_wakeStable : WakeStable Active := by
  intro s
  cases s <;> simp [awake, Active, Live]

/-- Being in a state that is neither sleeping nor runnable survives a wakeup. -/
theorem eq_wakeStable {s₀ : ProcState} (h₁ : s₀ ≠ .SLEEPING) (h₂ : s₀ ≠ .RUNNABLE) :
    WakeStable (· = s₀) := by
  intro s
  cases s <;> cases s₀ <;> simp_all [awake]

theorem not_wakeStable {P : ProcState → Prop} (hP : WakeStable P) : WakeStable (¬ P ·) :=
  fun s => not_congr (hP s)

theorem Live.not_unused {s : ProcState} (h : s.Live) : s ≠ .UNUSED := by
  rcases h with h | h | h <;> simp [h]

theorem Live.not_zombie {s : ProcState} (h : s.Live) : s ≠ .ZOMBIE := by
  rcases h with h | h | h <;> simp [h]

theorem Active.not_unused {s : ProcState} (h : s.Active) : s ≠ .UNUSED := by
  rcases h with h | h
  · exact h.not_unused
  · simp [h]

end ProcState

open ProcState

theorem mem_slots (q : Fin NPROC) : q ∈ slots := by
  rw [slots]
  exact List.mem_finRange q

/-- The scans over the table stop at the first slot that matches. -/
theorem find?_slots_of_first {f : Fin NPROC → Bool} {p : Fin NPROC} (hp : f p = true)
    (hlt : ∀ q : Fin NPROC, q < p → f q = false) : slots.find? f = some p := by
  rw [List.find?_eq_some_iff_getElem]
  refine ⟨hp, p.val, by simp [slots], by simp [slots], fun j hj => ?_⟩
  have hj' : j < NPROC := lt_trans hj p.isLt
  simp [slots, hlt ⟨j, hj'⟩ (Fin.mk_lt_of_lt_val hj)]

theorem Ptable.set_proc (t : Ptable) (p : Fin NPROC) (x : Proc) (q : Fin NPROC) :
    (t.set p x).proc q = if q = p then x else t.proc q := by
  by_cases hq : q = p
  · subst hq
    simp
  · simp [hq, Ptable.set_proc_of_ne]

/-! ## Wakeups and `exit` -/

section Wakeup

variable (t : Ptable) (c : Chan) (q : Fin NPROC)

@[simp] theorem wakeup1_pid : ((wakeup1 t c).proc q).pid = (t.proc q).pid := by
  simp only [wakeup1]; split_ifs <;> rfl

@[simp] theorem wakeup1_parent : ((wakeup1 t c).proc q).parent = (t.proc q).parent := by
  simp only [wakeup1]; split_ifs <;> rfl

@[simp] theorem wakeup1_killed : ((wakeup1 t c).proc q).killed = (t.proc q).killed := by
  simp only [wakeup1]; split_ifs <;> rfl

@[simp] theorem wakeup1_nextpid : (wakeup1 t c).nextpid = t.nextpid := rfl

@[simp] theorem wakeup1_initproc : (wakeup1 t c).initproc = t.initproc := rfl

/-- A wakeup leaves a slot as it was or wakes it. -/
theorem wakeup1_state : ((wakeup1 t c).proc q).state = (t.proc q).state ∨
    ((wakeup1 t c).proc q).state = (t.proc q).state.awake := by
  simp only [wakeup1]
  split_ifs with h
  · exact .inr (by rw [h.1]; rfl)
  · exact .inl rfl

theorem wakeStable_of_awake {P : ProcState → Prop} (hP : WakeStable P) {s s' : ProcState}
    (h : s' = s ∨ s' = s.awake) : P s' ↔ P s := by
  rcases h with rfl | rfl
  · exact Iff.rfl
  · exact hP s

theorem wakeup1_stable {P : ProcState → Prop} (hP : WakeStable P) :
    P ((wakeup1 t c).proc q).state ↔ P (t.proc q).state :=
  wakeStable_of_awake hP (wakeup1_state t c q)

end Wakeup

/-- How the wakeups and the reparenting loop of `exit` may change a slot: it may be woken, and
a child of `cur` may pass to `i`. -/
structure Proc.Passes (cur : Fin NPROC) (i : Option (Fin NPROC)) (x y : Proc) : Prop where
  pid : y.pid = x.pid
  state : y.state = x.state ∨ y.state = x.state.awake
  parent : y.parent = x.parent ∨ x.parent = some cur ∧ y.parent = i

theorem Proc.Passes.refl (cur : Fin NPROC) (i : Option (Fin NPROC)) (x : Proc) :
    x.Passes cur i x :=
  ⟨rfl, .inl rfl, .inl rfl⟩

theorem Proc.Passes.trans {cur : Fin NPROC} {i : Option (Fin NPROC)} {x y z : Proc}
    (h₁ : x.Passes cur i y) (h₂ : y.Passes cur i z) : x.Passes cur i z := by
  refine ⟨h₂.pid.trans h₁.pid, ?_, ?_⟩
  · rcases h₁.state with h | h <;> rcases h₂.state with h' | h' <;> rw [h', h] <;> simp
  · rcases h₁.parent with h | ⟨h, h'⟩ <;> rcases h₂.parent with g | ⟨g, g'⟩
    · exact .inl (g.trans h)
    · exact .inr ⟨h ▸ g, g'⟩
    · exact .inr ⟨h, g.trans h'⟩
    · exact .inr ⟨h, g'⟩

/-- A table whose slots all passed: `nextpid` and `initproc` stay. -/
def Ptable.Passes (cur : Fin NPROC) (t t' : Ptable) : Prop :=
  t'.nextpid = t.nextpid ∧ t'.initproc = t.initproc ∧
    ∀ q, (t.proc q).Passes cur t.initproc (t'.proc q)

namespace Ptable.Passes

variable {cur : Fin NPROC} {t t' t'' : Ptable}

theorem refl (t : Ptable) : t.Passes cur t :=
  ⟨rfl, rfl, fun _ => Proc.Passes.refl _ _ _⟩

theorem trans (h₁ : t.Passes cur t') (h₂ : t'.Passes cur t'') : t.Passes cur t'' :=
  ⟨h₂.1.trans h₁.1, h₂.2.1.trans h₁.2.1, fun q => (h₁.2.2 q).trans (h₁.2.1 ▸ h₂.2.2 q)⟩

theorem stable {P : ProcState → Prop} (hP : WakeStable P) (h : t.Passes cur t') (q : Fin NPROC) :
    P (t'.proc q).state ↔ P (t.proc q).state :=
  wakeStable_of_awake hP (h.2.2 q).state

end Ptable.Passes

theorem wakeup1_passes (cur : Fin NPROC) (t : Ptable) (c : Chan) : t.Passes cur (wakeup1 t c) :=
  ⟨rfl, rfl, fun q => ⟨wakeup1_pid t c q, wakeup1_state t c q, .inl (wakeup1_parent t c q)⟩⟩

theorem reparent_passes (cur : Fin NPROC) (t : Ptable) (p : Fin NPROC) :
    t.Passes cur (reparent cur t p) := by
  -- the child passes to `init`; the other slots stay
  have hset : (t.proc p).parent = some cur →
      t.Passes cur (t.set p { t.proc p with parent := t.initproc }) := by
    intro hp
    refine ⟨rfl, rfl, fun q => ?_⟩
    by_cases hq : q = p
    · subst hq
      exact ⟨by simp, by simp, .inr ⟨hp, by simp⟩⟩
    · rw [Ptable.set_proc_of_ne _ _ hq]
      exact Proc.Passes.refl _ _ _
  unfold reparent
  dsimp only
  split_ifs with hp
  · -- a zombie child: `init` is woken to reap it
    split
    · exact (hset hp).trans (wakeup1_passes _ _ _)
    · exact hset hp
  · exact hset hp
  · exact Ptable.Passes.refl _

theorem foldl_reparent_passes (cur : Fin NPROC) (l : List (Fin NPROC)) (t : Ptable) :
    t.Passes cur (l.foldl (reparent cur) t) := by
  induction l generalizing t with
  | nil => exact Ptable.Passes.refl _
  | cons p l ih => exact (reparent_passes cur t p).trans (ih _)

/-- After its turn of the loop, a slot is no longer a child of `cur`. -/
theorem reparent_orphan {cur : Fin NPROC} {t : Ptable} (hi : t.initproc ≠ some cur) (p : Fin NPROC) :
    ((reparent cur t p).proc p).parent ≠ some cur := by
  unfold reparent
  dsimp only
  split_ifs with hp
  · split
    · rw [wakeup1_parent]
      simpa using hi
    · simpa using hi
  · simpa using hi
  · exact hp

/-- A slot that is not a child of `cur` stays so while other slots pass to `init`. -/
theorem Ptable.Passes.not_child {cur : Fin NPROC} {t t' : Ptable} (h : t.Passes cur t')
    {q : Fin NPROC} (hq : (t.proc q).parent ≠ some cur) :
    (t'.proc q).parent ≠ some cur := by
  rcases (h.2.2 q).parent with h' | ⟨h', -⟩
  · rwa [h']
  · exact absurd h' hq

/-- When the loop of `exit` is over, `cur` has no children left. -/
theorem foldl_reparent_orphans {cur : Fin NPROC} (l : List (Fin NPROC)) {t : Ptable}
    (hi : t.initproc ≠ some cur) {q : Fin NPROC} (hq : q ∈ l) :
    ((l.foldl (reparent cur) t).proc q).parent ≠ some cur := by
  induction l generalizing t with
  | nil => cases hq
  | cons p l ih =>
    have hi' : (reparent cur t p).initproc ≠ some cur := by
      rwa [(reparent_passes cur t p).2.1]
    rw [List.foldl_cons]
    by_cases hqp : q = p
    · subst hqp
      exact (foldl_reparent_passes cur l _).not_child (reparent_orphan hi q)
    · exact ih hi' (List.mem_of_ne_of_mem hqp hq)

/-- The loop of `exit` passes every child of `cur` to `init`. -/
theorem exit_loop {t t₀ : Ptable} {cur : Fin NPROC} (hi : t.initproc ≠ some cur)
    (hpass : t.Passes cur t₀) :
    t.Passes cur (slots.foldl (reparent cur) t₀) ∧
      ∀ q, ((slots.foldl (reparent cur) t₀).proc q).parent ≠ some cur :=
  ⟨hpass.trans (foldl_reparent_passes cur slots t₀),
    fun q => foldl_reparent_orphans slots (by rwa [hpass.2.1]) (mem_slots q)⟩

/-- What `exit` does: the caller is not `init`; after the wakeups and the reparenting, which
leave it no children, it becomes a zombie. -/
theorem exit_spec {t t' : Ptable} {cur : Fin NPROC} (h : exit t cur = .ok t') :
    t.initproc ≠ some cur ∧ ∃ t₁, t.Passes cur t₁ ∧ (∀ q, (t₁.proc q).parent ≠ some cur) ∧
      t' = t₁.set cur { t₁.proc cur with state := .ZOMBIE } := by
  unfold exit at h
  dsimp only at h
  split_ifs at h with hi
  -- the parent is woken first, then the loop runs over every slot
  split at h
  · rename_i q _
    cases h
    obtain ⟨hpass, horph⟩ := exit_loop hi (wakeup1_passes cur t (.proc q))
    refine ⟨hi, slots.foldl (reparent cur) (wakeup1 t (.proc q)), hpass, horph, ?_⟩
    -- the two sides differ by the `have` of the structure update
    dsimp only
  · cases h
    obtain ⟨hpass, horph⟩ := exit_loop hi (Ptable.Passes.refl t)
    refine ⟨hi, slots.foldl (reparent cur) t, hpass, horph, ?_⟩
    dsimp only

/-! ## The other calls -/

/-- What `fork` does: nothing when no slot is free; otherwise the first free slot `np` takes
the pid `nextpid` and `nextpid` is incremented, and `np` becomes a runnable child of `cur`
when both allocations succeed, or is free again. -/
theorem fork_spec (t : Ptable) (cur : Fin NPROC) (kstackOk copyOk : Bool) :
    (slots.find? (fun p => (t.proc p).state = .UNUSED) = none ∧ (fork t cur kstackOk copyOk).1 = t) ∨
      ∃ np, slots.find? (fun p => (t.proc p).state = .UNUSED) = some np ∧
        (fork t cur kstackOk copyOk).1 =
          { t.set np (if kstackOk && copyOk then
              { t.proc np with state := .RUNNABLE, pid := t.nextpid, parent := some cur }
            else { t.proc np with state := .UNUSED, pid := t.nextpid }) with
            nextpid := wrapInt (t.nextpid + 1) } := by
  cases hfind : slots.find? (fun p => (t.proc p).state = .UNUSED) with
  | none =>
    left
    rw [fork, allocproc, hfind]
    exact ⟨rfl, rfl⟩
  | some np =>
    right
    refine ⟨np, rfl, ?_⟩
    rw [fork, allocproc, hfind]
    cases kstackOk <;> cases copyOk <;> simp [Ptable.set, Function.update_idem]

/-- `fork` seen slot by slot: only the free slot it takes changes. -/
theorem fork_slots (t : Ptable) (cur : Fin NPROC) (kstackOk copyOk : Bool) :
    (fork t cur kstackOk copyOk).1 = t ∨
      ∃ np, slots.find? (fun p => (t.proc p).state = .UNUSED) = some np ∧
        (fork t cur kstackOk copyOk).1.nextpid = wrapInt (t.nextpid + 1) ∧
        (fork t cur kstackOk copyOk).1.initproc = t.initproc ∧
        (∀ q, q ≠ np → (fork t cur kstackOk copyOk).1.proc q = t.proc q) ∧
        ((fork t cur kstackOk copyOk).1.proc np).pid = t.nextpid ∧
        (((fork t cur kstackOk copyOk).1.proc np).state = .UNUSED ∧
            ((fork t cur kstackOk copyOk).1.proc np).parent = (t.proc np).parent ∨
          ((fork t cur kstackOk copyOk).1.proc np).state = .RUNNABLE ∧
            ((fork t cur kstackOk copyOk).1.proc np).parent = some cur) := by
  rcases fork_spec t cur kstackOk copyOk with ⟨-, h⟩ | ⟨np, hfind, h⟩
  · exact .inl h
  · refine .inr ⟨np, hfind, by rw [h], by rw [h]; rfl, fun q hq => ?_, ?_, ?_⟩ <;> rw [h]
    · exact Ptable.set_proc_of_ne _ _ hq
    · cases kstackOk && copyOk <;> simp
    · cases kstackOk && copyOk <;> simp

theorem unused_of_find? {t : Ptable} {np : Fin NPROC}
    (h : slots.find? (fun p => (t.proc p).state = .UNUSED) = some np) :
    (t.proc np).state = .UNUSED := by
  simpa using List.find?_some h

/-- What `wait` may do: reap a zombie child of the caller, fail, or put the caller to sleep on
its own slot. -/
theorem wait_spec (t : Ptable) (cur : Fin NPROC) :
    (∃ p, (t.proc p).parent = some cur ∧ (t.proc p).state = .ZOMBIE ∧
      wait t cur =
        (t.set p { t.proc p with state := .UNUSED, pid := 0, parent := none, killed := false },
          .reaped (t.proc p).pid)) ∨
    wait t cur = (t, .fail) ∨ wait t cur = (sleep t cur (.proc cur), .sleep) := by
  unfold wait
  split
  · rename_i p hp
    have hzc := List.find?_some hp
    simp only [decide_eq_true_eq] at hzc
    exact .inl ⟨p, hzc.1, hzc.2, rfl⟩
  · split_ifs
    · exact .inr (.inl rfl)
    · exact .inr (.inr rfl)

/-- **`wait` returns only zombie children.** A pid comes back only from a zombie whose parent
is the caller, and its slot is free afterwards. -/
theorem wait_reaped {t t' : Ptable} {cur : Fin NPROC} {pid : Int} (h : wait t cur = (t', .reaped pid)) :
    ∃ p, (t.proc p).parent = some cur ∧ (t.proc p).state = .ZOMBIE ∧ (t.proc p).pid = pid ∧
      (t'.proc p).state = .UNUSED := by
  rcases wait_spec t cur with ⟨p, hpar, hz, hw⟩ | hw | hw <;> rw [hw] at h
  · cases h
    exact ⟨p, hpar, hz, rfl, by simp⟩
  · cases h
  · cases h

theorem ite_sleeping_eq_awake (s : ProcState) :
    (if s = .SLEEPING then .RUNNABLE else s) = s.awake := by
  cases s <;> rfl

/-- What `kill` may do: nothing, or mark one slot killed and wake it. -/
theorem kill_spec (t : Ptable) (pid : Int) :
    (kill t pid).1 = t ∨
      ∃ p, (kill t pid).1 = t.set p { t.proc p with killed := true, state := (t.proc p).state.awake } := by
  unfold kill
  split
  · rename_i p _
    exact .inr ⟨p, by rw [ite_sleeping_eq_awake]⟩
  · exact .inl rfl

/-! ## The table invariant -/

/-- What every table reachable from `userinit` keeps. -/
structure Ptable.Inv (t : Ptable) : Prop where
  /-- `initproc` is set and never exits. -/
  init : ∃ i, t.initproc = some i ∧ (t.proc i).state.Live
  /-- An `EMBRYO` exists only inside `allocproc` and `fork`. -/
  noEmbryo : ∀ p, (t.proc p).state ≠ .EMBRYO
  /-- Every parent pointer names a live process: `exit` passes the children on before its
  caller becomes a zombie. -/
  parentLive : ∀ p q, (t.proc p).parent = some q → (t.proc q).state.Live
  /-- Every process but `init` that the scheduler or `wait` sees has a parent. -/
  hasParent : ∀ p, t.initproc ≠ some p → (t.proc p).state.Active → (t.proc p).parent ≠ none

namespace Ptable.Inv

variable {t t' : Ptable}

/-- A change of one slot that keeps its parent, and whether it is live, active or an embryo. -/
theorem set (hinv : t.Inv) {p : Fin NPROC} {x : Proc}
    (hlive : x.state.Live ↔ (t.proc p).state.Live) (hact : x.state.Active ↔ (t.proc p).state.Active)
    (hemb : x.state ≠ .EMBRYO) (hpar : x.parent = (t.proc p).parent) : (t.set p x).Inv := by
  obtain ⟨⟨i, hi, hil⟩, hemb₀, hpl, hhp⟩ := hinv
  refine ⟨⟨i, hi, ?_⟩, fun q => ?_, fun q r hqr => ?_, fun q hq hqa => ?_⟩
  · rw [Ptable.set_proc]
    split_ifs with h
    · exact hlive.2 (h ▸ hil)
    · exact hil
  · rw [Ptable.set_proc]
    split_ifs
    exacts [hemb, hemb₀ q]
  · -- the parent of `q` was already `r`
    have hqr' : (t.proc q).parent = some r := by
      rw [Ptable.set_proc] at hqr
      split_ifs at hqr with h
      · rw [h, ← hpar, hqr]
      · exact hqr
    rw [Ptable.set_proc]
    split_ifs with h
    · exact hlive.2 (h ▸ hpl q r hqr')
    · exact hpl q r hqr'
  · rw [Ptable.set_proc] at hqa ⊢
    split_ifs at hqa ⊢ with h
    · subst q
      rw [hpar]
      exact hhp p hq (hact.1 hqa)
    · exact hhp q hq hqa

/-- Wakeups, and the mark of `kill`: no parent changes, and states only wake. -/
theorem wake (hinv : t.Inv) (hi : t'.initproc = t.initproc)
    (hs : ∀ q, (t'.proc q).state = (t.proc q).state ∨ (t'.proc q).state = (t.proc q).state.awake)
    (hp : ∀ q, (t'.proc q).parent = (t.proc q).parent) : t'.Inv := by
  obtain ⟨⟨i, hi₀, hil⟩, hemb₀, hpl, hhp⟩ := hinv
  refine ⟨⟨i, hi ▸ hi₀, (wakeStable_of_awake live_wakeStable (hs i)).2 hil⟩, fun q => ?_,
    fun q r hqr => ?_, fun q hq hqa => ?_⟩
  · exact (wakeStable_of_awake (not_wakeStable (eq_wakeStable (by decide) (by decide))) (hs q)).2
      (hemb₀ q)
  · exact (wakeStable_of_awake live_wakeStable (hs r)).2 (hpl q r (hp q ▸ hqr))
  · rw [hp]
    exact hhp q (hi ▸ hq) ((wakeStable_of_awake active_wakeStable (hs q)).1 hqa)

theorem wakeup1 (hinv : t.Inv) (c : Chan) : (wakeup1 t c).Inv :=
  hinv.wake rfl (wakeup1_state t c) (wakeup1_parent t c)

theorem kill (hinv : t.Inv) (pid : Int) : (kill t pid).1.Inv := by
  rcases kill_spec t pid with h | ⟨p, h⟩ <;> rw [h]
  · exact hinv
  · refine hinv.wake rfl (fun q => ?_) (fun q => ?_) <;> rw [Ptable.set_proc] <;> split_ifs with hq
    · exact .inr (hq ▸ rfl)
    · exact .inl rfl
    · rw [hq]
    · rfl

theorem fork (hinv : t.Inv) {cur : Fin NPROC} (hcur : t.running cur) (kstackOk copyOk : Bool) :
    (fork t cur kstackOk copyOk).1.Inv := by
  rcases fork_slots t cur kstackOk copyOk with h | ⟨np, hfind, -, hi, hq, -, hnp⟩
  · rw [h]
    exact hinv
  have hu := unused_of_find? hfind
  obtain ⟨⟨i, hi₀, hil⟩, hemb₀, hpl, hhp⟩ := hinv
  -- nobody is a child of the free slot, and `init` and the caller are not that slot
  have hfree : ∀ q, (t.proc q).parent ≠ some np := fun q h => (hpl q np h).not_unused hu
  have hinp : i ≠ np := fun h => hil.not_unused (h ▸ hu)
  have hcnp : cur ≠ np := fun h => by rw [Ptable.running, h, hu] at hcur; cases hcur
  refine ⟨⟨i, hi.trans hi₀, by rw [hq i hinp]; exact hil⟩, fun q => ?_, fun q r hqr => ?_,
    fun q hq' hqa => ?_⟩
  · by_cases h : q = np
    · subst q
      rcases hnp with ⟨h, -⟩ | ⟨h, -⟩ <;> rw [h] <;> simp
    · rw [hq q h]
      exact hemb₀ q
  · have hr : r ≠ np := by
      intro hrn
      rw [hrn] at hqr
      by_cases h : q = np
      · rw [h] at hqr
        rcases hnp with ⟨-, h'⟩ | ⟨-, h'⟩
        · exact hfree np (h'.symm.trans hqr)
        · exact hcnp (Option.some_inj.1 (h'.symm.trans hqr))
      · exact hfree q (hq q h ▸ hqr)
    rw [hq r hr]
    by_cases h : q = np
    · subst q
      rcases hnp with ⟨-, h⟩ | ⟨-, h⟩
      · exact hpl np r (h ▸ hqr)
      · rw [h] at hqr
        cases hqr
        exact .inr (.inr hcur)
    · exact hpl q r (hq q h ▸ hqr)
  · by_cases h : q = np
    · subst q
      rcases hnp with ⟨h, -⟩ | ⟨-, h⟩
      · rw [h] at hqa
        exact absurd hqa (by simp [Active, Live])
      · rw [h]
        simp
    · rw [hq q h] at hqa ⊢
      exact hhp q (hi ▸ hq') hqa

theorem exit (hinv : t.Inv) {cur : Fin NPROC} (hcur : t.running cur) (h : exit t cur = .ok t') :
    t'.Inv := by
  obtain ⟨hic, t₁, hpass, horph, ht'⟩ := exit_spec h
  rw [ht']
  obtain ⟨⟨i, hi₀, hil⟩, hemb₀, hpl, hhp⟩ := hinv
  have hi₁ : t₁.initproc = some i := hpass.2.1.trans hi₀
  have hicur : i ≠ cur := fun h => hic (h ▸ hi₀)
  -- the live slots of `t₁` are those of `t`
  have hlive₁ : ∀ q, (t₁.proc q).state.Live ↔ (t.proc q).state.Live := hpass.stable live_wakeStable
  refine ⟨⟨i, hi₁, ?_⟩, fun q => ?_, fun q r hqr => ?_, fun q hq hqa => ?_⟩
  · rw [Ptable.set_proc_of_ne _ _ hicur]
    exact (hlive₁ i).2 hil
  · rw [Ptable.set_proc]
    split_ifs
    · simp
    · exact (hpass.stable (not_wakeStable (eq_wakeStable (by decide) (by decide))) q).2 (hemb₀ q)
  · -- `r` is not the exiting process, which has no children left
    have hqr₁ : (t₁.proc q).parent = some r := by
      rw [Ptable.set_proc] at hqr
      split_ifs at hqr with h
      · rw [h]
        exact hqr
      · exact hqr
    have hrc : r ≠ cur := fun h => horph q (h ▸ hqr₁)
    rw [Ptable.set_proc_of_ne _ _ hrc, hlive₁]
    rcases ((hpass.2.2 q).parent) with h | ⟨-, h⟩
    · exact hpl q r (h ▸ hqr₁)
    · rw [hqr₁, hi₀] at h
      cases h
      exact hil
  · -- a parent pointer changes only from `cur` to `init`
    have hpar₁ : (t.proc q).parent ≠ none → (t₁.proc q).parent ≠ none := by
      intro hne
      rcases (hpass.2.2 q).parent with h | ⟨-, h⟩
      · rwa [h]
      · rw [h, hi₀]
        simp
    rw [Ptable.set_initproc, hpass.2.1] at hq
    rw [Ptable.set_proc] at hqa ⊢
    split_ifs at hqa ⊢ with h
    · subst h
      exact hpar₁ (hhp q hq (.inl (.inr (.inr hcur))))
    · exact hpar₁ (hhp q hq ((hpass.stable active_wakeStable q).1 hqa))

theorem wait (hinv : t.Inv) {cur : Fin NPROC} (hcur : t.running cur) : (wait t cur).1.Inv := by
  rcases wait_spec t cur with ⟨p, hpar, hz, hw⟩ | hw | hw <;> rw [hw]
  · -- the reaped zombie is nobody's parent and not `init`
    obtain ⟨⟨i, hi₀, hil⟩, hemb₀, hpl, hhp⟩ := hinv
    have hnp : ∀ q, (t.proc q).parent ≠ some p := fun q h => (hpl q p h).not_zombie hz
    have hip : i ≠ p := fun h => hil.not_zombie (h ▸ hz)
    refine ⟨⟨i, hi₀, by rw [Ptable.set_proc_of_ne _ _ hip]; exact hil⟩, fun q => ?_,
      fun q r hqr => ?_, fun q hq hqa => ?_⟩
    · rw [Ptable.set_proc]
      split_ifs
      · simp
      · exact hemb₀ q
    · -- the freed slot has no parent, and was nobody's parent
      rw [Ptable.set_proc] at hqr
      split_ifs at hqr with h
      have hrp : r ≠ p := fun hr => hnp q (hr ▸ hqr)
      rw [Ptable.set_proc_of_ne _ _ hrp]
      exact hpl q r hqr
    · rw [Ptable.set_proc] at hqa ⊢
      split_ifs at hqa ⊢ with h
      · exact absurd hqa (by simp [Active, Live])
      · exact hhp q hq hqa
  · exact hinv
  · -- the caller goes to sleep on its own slot
    have hc : (t.proc cur).state = .RUNNING := hcur
    exact hinv.set (by simp [Live, hc]) (by simp [Active, Live, hc]) (by simp) rfl

theorem sleep (hinv : t.Inv) {cur : Fin NPROC} (hcur : t.running cur) (c : Chan) :
    (sleep t cur c).Inv := by
  have hc : (t.proc cur).state = .RUNNING := hcur
  exact hinv.set (by simp [Live, hc]) (by simp [Active, Live, hc]) (by simp) rfl

/-- Every step keeps the invariant. -/
theorem step (hinv : t.Inv) {a : PAct} (h : t.step a = some (.ok t')) : t'.Inv := by
  cases a with
  | fork cur kstackOk copyOk =>
    simp only [Ptable.step] at h
    split_ifs at h with hr
    cases h
    exact hinv.fork hr kstackOk copyOk
  | exit cur =>
    simp only [Ptable.step] at h
    split_ifs at h with hr
    exact hinv.exit hr (Option.some.inj h)
  | wait cur =>
    simp only [Ptable.step] at h
    split_ifs at h with hr
    cases h
    exact hinv.wait hr
  | kill cur pid =>
    simp only [Ptable.step] at h
    split_ifs at h
    cases h
    exact hinv.kill pid
  | sleep cur c =>
    simp only [Ptable.step] at h
    split_ifs at h with hr
    cases h
    exact hinv.sleep hr c
  | wakeup c =>
    cases h
    exact hinv.wakeup1 c
  | run p =>
    simp only [Ptable.step] at h
    split_ifs at h with hr
    cases h
    exact hinv.set (by simp [Live, hr]) (by simp [Active, Live, hr]) (by simp) rfl
  | yield p =>
    simp only [Ptable.step] at h
    split_ifs at h with hr
    cases h
    have hc : (t.proc p).state = .RUNNING := hr
    exact hinv.set (by simp [Live, hc]) (by simp [Active, Live, hc]) (by simp) rfl

end Ptable.Inv

/-! ## Boot -/

/-- The table `userinit` leaves: `init` in slot `0` with pid `1`, runnable. -/
theorem userinit_zero_proc (q : Fin NPROC) :
    (userinit Ptable.zero).proc q =
      if q = ⟨0, by decide⟩ then { Proc.zero with state := .RUNNABLE, pid := 1 } else Proc.zero := by
  rw [userinit, allocproc, find?_slots_of_first (p := ⟨0, by decide⟩) rfl
    (fun q hq => absurd (Fin.lt_def.1 hq) (Nat.not_lt_zero _))]
  simp only [if_true]
  rw [Ptable.set_proc]
  split_ifs with h
  · rfl
  · rw [Ptable.set_proc_of_ne _ _ h]
    rfl

theorem userinit_zero_nextpid : (userinit Ptable.zero).nextpid = 2 := by
  decide

theorem userinit_zero_initproc : (userinit Ptable.zero).initproc = some ⟨0, by decide⟩ := by
  decide

theorem inv_userinit : (userinit Ptable.zero).Inv := by
  refine ⟨⟨⟨0, by decide⟩, userinit_zero_initproc, ?_⟩, fun q => ?_, fun q r hqr => ?_,
    fun q hq hqa => ?_⟩
  · rw [userinit_zero_proc, if_pos rfl]
    simp [Live]
  · rw [userinit_zero_proc]
    split_ifs <;> simp [Proc.zero]
  · -- no slot has a parent yet
    rw [userinit_zero_proc] at hqr
    split_ifs at hqr <;> simp [Proc.zero] at hqr
  · rw [userinit_zero_initproc] at hq
    rw [userinit_zero_proc] at hqa
    split_ifs at hqa with h
    · exact absurd (congrArg some h).symm hq
    · simp [Proc.zero, Active, Live] at hqa

theorem inv_of_reachable {t : Ptable} (h : PReachable t) : t.Inv := by
  induction h with
  | boot => exact inv_userinit
  | step a _ hs ih => exact ih.step hs

/-- **Every process has a parent.** In every reachable table, each process other than `init`
that is sleeping, runnable, running or a zombie has a parent, and its parent is not `UNUSED`. -/
theorem parent_not_unused {t : Ptable} (h : PReachable t) {p : Fin NPROC}
    (hp : (t.proc p).state.Active) (hi : t.initproc ≠ some p) :
    ∃ q, (t.proc p).parent = some q ∧ (t.proc q).state ≠ .UNUSED := by
  have hinv := inv_of_reachable h
  obtain ⟨q, hq⟩ := Option.ne_none_iff_exists'.1 (hinv.hasParent p hi hp)
  exact ⟨q, hq, (hinv.parentLive p q hq).not_unused⟩

/-- `init` runs and forks: the child in slot `1` is runnable, and its parent is `init`. -/
theorem parent_not_unused_fork :
    ∃ t, PReachable t ∧ (t.proc ⟨1, one_lt_NPROC⟩).state.Active ∧ t.initproc ≠ some ⟨1, one_lt_NPROC⟩ ∧
      ∃ q, (t.proc ⟨1, one_lt_NPROC⟩).parent = some q ∧ (t.proc q).state ≠ .UNUSED := by
  have ht : PReachable _ :=
    .step (.fork ⟨0, NPROC_pos⟩ true true) (.step (.run ⟨0, NPROC_pos⟩) .boot rfl) rfl
  -- the child is runnable, and `init` is slot `0`
  exact ⟨_, ht, .inl (.inr (.inl rfl)), by decide,
    parent_not_unused ht (.inl (.inr (.inl rfl))) (by decide)⟩

/-! ## Pids -/

/-- The pids of the slots in use are positive, below `nextpid`, and pairwise distinct. -/
structure Ptable.PidsOk (t : Ptable) : Prop where
  pos : 0 < t.nextpid
  bound : ∀ p, (t.proc p).state ≠ .UNUSED → 0 < (t.proc p).pid ∧ (t.proc p).pid < t.nextpid
  distinct : ∀ p q, (t.proc p).state ≠ .UNUSED → (t.proc q).state ≠ .UNUSED →
    (t.proc p).pid = (t.proc q).pid → p = q

/-- An `int` in range is stored as it is. -/
theorem wrapInt_of_lt {i : Int} (h₁ : -2 ^ 31 ≤ i) (h₂ : i < 2 ^ 31) : wrapInt i = i := by
  unfold wrapInt
  omega

/-- A step that allocates no pid: `nextpid` stays, and every slot in use was in use before,
with the same pid. -/
def Ptable.KeepsPids (t t' : Ptable) : Prop :=
  t'.nextpid = t.nextpid ∧
    ∀ q, (t'.proc q).state ≠ .UNUSED → (t.proc q).state ≠ .UNUSED ∧ (t'.proc q).pid = (t.proc q).pid

namespace Ptable

variable {t t' : Ptable}

theorem PidsOk.keep (h : t.PidsOk) (hk : t.KeepsPids t') : t'.PidsOk := by
  obtain ⟨hn, hs⟩ := hk
  refine ⟨hn ▸ h.pos, fun p hp => ?_, fun p q hp hq hpq => ?_⟩
  · obtain ⟨hp₀, hpid⟩ := hs p hp
    rw [hpid, hn]
    exact h.bound p hp₀
  · obtain ⟨hp₀, hpid⟩ := hs p hp
    obtain ⟨hq₀, hqid⟩ := hs q hq
    exact h.distinct p q hp₀ hq₀ (by rw [← hpid, ← hqid, hpq])

/-- Changing one slot without freeing or allocating it keeps its pid. -/
theorem keepsPids_set {p : Fin NPROC} {x : Proc} (hpid : x.pid = (t.proc p).pid)
    (hu : x.state ≠ .UNUSED → (t.proc p).state ≠ .UNUSED) : t.KeepsPids (t.set p x) := by
  refine ⟨rfl, fun q hq => ?_⟩
  rw [Ptable.set_proc] at hq ⊢
  split_ifs at hq ⊢ with h
  · subst q
    exact ⟨hu hq, hpid⟩
  · exact ⟨hq, rfl⟩

theorem keepsPids_of_passes {cur : Fin NPROC} (h : t.Passes cur t') : t.KeepsPids t' :=
  ⟨h.1, fun q hq => ⟨(h.stable (not_wakeStable (eq_wakeStable (by decide) (by decide))) q).1 hq,
    (h.2.2 q).pid⟩⟩

theorem KeepsPids.trans {t'' : Ptable} (h₁ : t.KeepsPids t') (h₂ : t'.KeepsPids t'') :
    t.KeepsPids t'' :=
  ⟨h₂.1.trans h₁.1, fun q hq => by
    obtain ⟨hq', hpid'⟩ := h₂.2 q hq
    obtain ⟨hq'', hpid''⟩ := h₁.2 q hq'
    exact ⟨hq'', hpid'.trans hpid''⟩⟩

/-- `fork` below the overflow: the new process takes `nextpid`, which is above every pid in
use, and `nextpid` grows by one. -/
theorem PidsOk.fork (h : t.PidsOk) (hn : t.nextpid < 2 ^ 31 - 1) (cur : Fin NPROC)
    (kstackOk copyOk : Bool) :
    (Xv6.fork t cur kstackOk copyOk).1.PidsOk ∧
      (Xv6.fork t cur kstackOk copyOk).1.nextpid ≤ t.nextpid + 1 := by
  rcases fork_slots t cur kstackOk copyOk with h' | ⟨np, -, hnext, -, hother, hpid, -⟩
  · rw [h']
    exact ⟨h, by omega⟩
  have hnext' : (Xv6.fork t cur kstackOk copyOk).1.nextpid = t.nextpid + 1 := by
    rw [hnext, wrapInt_of_lt (by have := h.pos; omega) (by omega)]
  -- every other slot in use keeps its pid, below the one `np` takes
  have habove : ∀ q, q ≠ np → ((Xv6.fork t cur kstackOk copyOk).1.proc q).state ≠ .UNUSED →
      ((Xv6.fork t cur kstackOk copyOk).1.proc q).pid <
        ((Xv6.fork t cur kstackOk copyOk).1.proc np).pid := by
    intro q hqn hq
    rw [hother q hqn] at hq ⊢
    rw [hpid]
    exact (h.bound q hq).2
  refine ⟨⟨by rw [hnext']; exact h.pos.trans (by omega), fun p hp => ?_, fun p q hp hq hpq => ?_⟩,
    hnext'.le⟩
  · rw [hnext']
    by_cases hpn : p = np
    · subst p
      rw [hpid]
      exact ⟨h.pos, by omega⟩
    · rw [hother p hpn] at hp ⊢
      have := h.bound p hp
      omega
  · by_cases hpn : p = np <;> by_cases hqn : q = np
    · rw [hpn, hqn]
    · rw [hpn] at hpq
      exact absurd hpq (ne_of_lt (habove q hqn hq)).symm
    · rw [hqn] at hpq
      exact absurd hpq (ne_of_lt (habove p hpn hp))
    · rw [hother p hpn] at hp hpq
      rw [hother q hqn] at hq hpq
      exact h.distinct p q hp hq hpq

/-- A step that allocates no pid. -/
theorem keepsPids_of_step {a : PAct} (ha : ∀ cur kstackOk copyOk, a ≠ .fork cur kstackOk copyOk)
    (h : t.step a = some (.ok t')) : t.KeepsPids t' := by
  cases a with
  | fork cur kstackOk copyOk => exact absurd rfl (ha cur kstackOk copyOk)
  | exit cur =>
    simp only [Ptable.step] at h
    split_ifs at h with hr
    obtain ⟨-, t₁, hpass, -, rfl⟩ := exit_spec (Option.some.inj h)
    -- the caller, running before, is in use in `t₁` too
    have hc : (t₁.proc cur).state ≠ .UNUSED :=
      (hpass.stable (not_wakeStable (eq_wakeStable (by decide) (by decide))) cur).2
        (by simp [show (t.proc cur).state = .RUNNING from hr])
    exact (keepsPids_of_passes hpass).trans (keepsPids_set rfl fun _ => hc)
  | wait cur =>
    simp only [Ptable.step] at h
    split_ifs at h with hr
    cases h
    rcases wait_spec t cur with ⟨p, -, -, hw⟩ | hw | hw <;> rw [hw]
    · -- the reaped slot is freed: it is not in use afterwards
      refine ⟨rfl, fun q hq => ?_⟩
      rw [Ptable.set_proc] at hq ⊢
      split_ifs at hq ⊢
      · simp at hq
      · exact ⟨hq, rfl⟩
    · exact ⟨rfl, fun q hq => ⟨hq, rfl⟩⟩
    · exact keepsPids_set rfl fun _ => (by simp [show (t.proc cur).state = .RUNNING from hr])
  | kill cur pid =>
    simp only [Ptable.step] at h
    split_ifs at h
    cases h
    rcases kill_spec t pid with hk | ⟨p, hk⟩ <;> rw [hk]
    · exact ⟨rfl, fun q hq => ⟨hq, rfl⟩⟩
    · exact keepsPids_set rfl fun hu =>
        (not_wakeStable (eq_wakeStable (by decide) (by decide)) _).1 hu
  | sleep cur c =>
    simp only [Ptable.step] at h
    split_ifs at h with hr
    cases h
    exact keepsPids_set rfl fun _ => (by simp [show (t.proc cur).state = .RUNNING from hr])
  | wakeup c =>
    cases h
    exact keepsPids_of_passes (wakeup1_passes ⟨0, by decide⟩ t c)
  | run p =>
    simp only [Ptable.step] at h
    split_ifs at h with hr
    cases h
    exact keepsPids_set rfl fun _ => (by simp [hr])
  | yield p =>
    simp only [Ptable.step] at h
    split_ifs at h with hr
    cases h
    exact keepsPids_set rfl fun _ => (by simp [show (t.proc p).state = .RUNNING from hr])

/-- Every step below the overflow keeps the pids apart, and moves `nextpid` by at most one. -/
theorem PidsOk.step (h : t.PidsOk) (hn : t.nextpid < 2 ^ 31 - 1) {a : PAct}
    (hs : t.step a = some (.ok t')) : t'.PidsOk ∧ t'.nextpid ≤ t.nextpid + 1 := by
  by_cases hf : ∃ cur kstackOk copyOk, a = .fork cur kstackOk copyOk
  · obtain ⟨cur, kstackOk, copyOk, rfl⟩ := hf
    simp only [Ptable.step] at hs
    split_ifs at hs
    cases hs
    exact h.fork hn cur kstackOk copyOk
  · have hk := keepsPids_of_step (fun cur kstackOk copyOk ha => hf ⟨cur, kstackOk, copyOk, ha⟩) hs
    exact ⟨h.keep hk, by rw [hk.1]; omega⟩

end Ptable

/-! ## Runs -/

namespace Ptable

theorem steps_append (t : Ptable) (as bs : List PAct) :
    t.steps (as ++ bs) = (t.steps as).bind (·.steps bs) := by
  induction as generalizing t with
  | nil => rfl
  | cons a as ih =>
    simp only [List.cons_append, steps]
    split
    · exact ih _
    · rfl

/-- A run from a reachable table stays among the reachable tables. -/
theorem preachable_steps {as : List PAct} {t₀ t : Ptable} (h₀ : PReachable t₀)
    (hs : t₀.steps as = some t) : PReachable t := by
  induction as generalizing t₀ with
  | nil =>
    cases hs
    exact h₀
  | cons a as ih =>
    simp only [steps] at hs
    split at hs
    · rename_i t₁ h₁
      exact ih (.step a h₀ h₁) hs
    · cases hs

/-- The runs from `userinit` reach exactly the reachable tables. -/
theorem preachable_iff_steps {t : Ptable} :
    PReachable t ↔ ∃ as, (userinit Ptable.zero).steps as = some t := by
  constructor
  · intro h
    induction h with
    | boot => exact ⟨[], rfl⟩
    | step a _ hs ih =>
      obtain ⟨as, has⟩ := ih
      refine ⟨as ++ [a], ?_⟩
      rw [steps_append, has]
      simp [steps, hs]
  · rintro ⟨as, has⟩
    exact preachable_steps .boot has

theorem pidsOk_userinit : (userinit Ptable.zero).PidsOk := by
  refine ⟨by rw [userinit_zero_nextpid]; decide, fun p hp => ?_, fun p q hp hq _ => ?_⟩
  · rw [userinit_zero_proc] at hp ⊢
    rw [userinit_zero_nextpid]
    split_ifs at hp ⊢
    · decide
    · simp [Proc.zero] at hp
  · -- only `init` is in use
    rw [userinit_zero_proc] at hp hq
    split_ifs at hp hq with h₁ h₂ <;> simp_all [Proc.zero]

/-- A run whose steps cannot take `nextpid` past `INT_MAX` keeps the pids apart. -/
theorem PidsOk.steps {as : List PAct} {t₀ t : Ptable} (h₀ : t₀.PidsOk)
    (hn : t₀.nextpid + as.length ≤ 2 ^ 31 - 1) (hs : t₀.steps as = some t) : t.PidsOk := by
  induction as generalizing t₀ with
  | nil =>
    cases hs
    exact h₀
  | cons a as ih =>
    simp only [Ptable.steps] at hs
    split at hs
    · rename_i t₁ h₁
      simp only [List.length_cons] at hn
      obtain ⟨hok, hle⟩ := h₀.step (by omega) h₁
      exact ih hok (by omega) hs
    · cases hs

end Ptable

/-- **Pids below the overflow.** Over every run from `userinit` of fewer than `2 ^ 31 - 2`
steps, the pids of the slots in use are positive, below `nextpid` and pairwise distinct. -/
theorem pidsOk_of_run {as : List PAct} {t : Ptable} (h : (userinit Ptable.zero).steps as = some t)
    (hlen : as.length < 2 ^ 31 - 2) : t.PidsOk :=
  Ptable.pidsOk_userinit.steps (by rw [userinit_zero_nextpid]; omega) h

/-- `init` runs and forks once. -/
theorem pidsOk_of_run_fork :
    ∃ t, (userinit Ptable.zero).steps [.run ⟨0, NPROC_pos⟩, .fork ⟨0, NPROC_pos⟩ true true] = some t ∧
      t.PidsOk :=
  ⟨_, rfl, @pidsOk_of_run [.run ⟨0, NPROC_pos⟩, .fork ⟨0, NPROC_pos⟩ true true] _ rfl (by decide)⟩

/-! ## The overflow of `nextpid` -/

/-- While `init` runs in slot `0`, `allocproc` takes slot `1` when it is free. -/
theorem find?_slot_one {t : Ptable} (h0 : (t.proc ⟨0, by decide⟩).state = .RUNNING)
    (h1 : (t.proc ⟨1, by decide⟩).state = .UNUSED) :
    slots.find? (fun p => (t.proc p).state = .UNUSED) = some ⟨1, by decide⟩ := by
  refine find?_slots_of_first (by simp [h1]) (fun q hq => ?_)
  have hq0 : q = ⟨0, by decide⟩ := Fin.ext (Nat.lt_one_iff.1 (Fin.lt_def.1 hq))
  subst hq0
  simp [h0]

/-- A fork of `init` whose kernel stack cannot be allocated, while `init` runs in slot `0`
and slot `1` is free: slot `1` gets the pid `nextpid` and is free again, `nextpid++` runs
once, and no other slot changes. -/
theorem failed_fork {t : Ptable} (h0 : (t.proc ⟨0, by decide⟩).state = .RUNNING)
    (h1 : (t.proc ⟨1, by decide⟩).state = .UNUSED) :
    t.step (.fork ⟨0, by decide⟩ false true) = some (.ok (fork t ⟨0, by decide⟩ false true).1) ∧
      ((fork t ⟨0, by decide⟩ false true).1.proc ⟨1, by decide⟩).state = .UNUSED ∧
      ((fork t ⟨0, by decide⟩ false true).1.proc ⟨1, by decide⟩).pid = t.nextpid ∧
      (fork t ⟨0, by decide⟩ false true).1.nextpid = wrapInt (t.nextpid + 1) ∧
      ∀ r, r ≠ ⟨1, by decide⟩ → (fork t ⟨0, by decide⟩ false true).1.proc r = t.proc r := by
  rcases fork_spec t ⟨0, by decide⟩ false true with ⟨hnone, -⟩ | ⟨np, hfind, hfork⟩
  · rw [find?_slot_one h0 h1] at hnone
    cases hnone
  rw [find?_slot_one h0 h1] at hfind
  cases hfind
  refine ⟨by simp [Ptable.step, Ptable.running, h0], by rw [hfork]; simp, by rw [hfork]; simp,
    by rw [hfork], fun r hr => ?_⟩
  rw [hfork]
  exact Ptable.set_proc_of_ne _ _ hr

/-- `init`'s forks whose kernel stacks cannot be allocated: each one gives slot `1` a pid and
takes it back, and `nextpid++` runs once. -/
theorem failed_forks (n : Nat) :
    ∃ t, PReachable t ∧ (t.proc ⟨0, by decide⟩).state = .RUNNING ∧
      (t.proc ⟨1, by decide⟩).state = .UNUSED ∧ t.nextpid = (fun x => wrapInt (x + 1))^[n] 2 := by
  induction n with
  | zero => exact ⟨initRunning, preachable_initRunning, by decide, by decide, by decide⟩
  | succ n ih =>
    obtain ⟨t, ht, h0, h1, hn⟩ := ih
    obtain ⟨hstep, h1', -, hnext, hrest⟩ := failed_fork h0 h1
    refine ⟨_, .step _ ht hstep, ?_, h1', ?_⟩
    · rw [hrest _ (by decide)]
      exact h0
    · rw [hnext, Function.iterate_succ_apply', ← hn]

theorem iterate_wrapInt {n : Nat} (hn : n ≤ 2 ^ 31 - 3) :
    (fun x => wrapInt (x + 1))^[n] 2 = 2 + n := by
  induction n with
  | zero => rfl
  | succ n ih =>
    rw [Function.iterate_succ_apply', ih (by omega), wrapInt_of_lt (by omega) (by omega)]
    omega

/-- **`nextpid` overflows.** `nextpid` is an `int` that every allocation increments, also one
whose fork then fails. After boot, `2 ^ 31 - 2` forks of `init` whose kernel stacks cannot be
allocated take it past `INT_MAX`, and the next fork that succeeds gives a runnable process the
pid `-2 ^ 31`. -/
theorem fork_negative_pid :
    ∃ t, PReachable t ∧ (t.proc ⟨1, by decide⟩).state = .RUNNABLE ∧
      (t.proc ⟨1, by decide⟩).pid = -2 ^ 31 := by
  obtain ⟨t, ht, h0, h1, hn⟩ := failed_forks (2 ^ 31 - 2)
  -- the last of these forks took `nextpid` from `INT_MAX` to `INT_MIN`
  have hwrap : t.nextpid = -2 ^ 31 := by
    rw [hn, show 2 ^ 31 - 2 = (2 ^ 31 - 3) + 1 from rfl, Function.iterate_succ_apply',
      iterate_wrapInt le_rfl]
    unfold wrapInt
    omega
  rcases fork_spec t ⟨0, by decide⟩ true true with ⟨hnone, -⟩ | ⟨np, hfind, hfork⟩
  · rw [find?_slot_one h0 h1] at hnone
    cases hnone
  rw [find?_slot_one h0 h1] at hfind
  cases hfind
  refine ⟨(fork t ⟨0, by decide⟩ true true).1,
    .step (.fork ⟨0, by decide⟩ true true) ht (by simp [Ptable.step, Ptable.running, h0]),
    ?_, ?_⟩ <;> rw [hfork] <;> simp [hwrap]

end Xv6
