import Xv6.Log.Admission
import Xv6.Bio
import Xv6.Lib.Except

/-!
# Log absorption

`log_write` records a block in the header only the first time a transaction writes it: its loop
looks for the block among the first `n` entries, and appends it when it is not there. The header
is therefore the list of the distinct blocks written since the last commit, in the order of
their first write (`absorb`), through every interleaving of the processes' operations
(`txBlocks_boot_run`).

The buffer of a logged block is pinned: `log_write` marks it `B_DIRTY`, and a dirty buffer keeps
the flag and its block through every step of the cache until the disk completes a write of it,
which puts its data at the block's home (`Bsys.dirty_step`). `bget` never recycles it meanwhile.
-/

namespace Xv6

namespace Log

/-- The header as a list: `b` is appended unless it is already there. -/
def absorb (l : List Nat) (b : Nat) : List Nat := if b ∈ l then l else l ++ [b]

/-- The header after an action: a write absorbs its block, a commit empties it. -/
def header (l : List Nat) : Act → List Nat
  | .write _ b => absorb l b
  | .commit _ => []
  | _ => l

/-- The blocks passed to `log_write` after an action: a commit forgets them. -/
def written (w : List Nat) : Act → List Nat
  | .write _ b => w ++ [b]
  | .commit _ => []
  | _ => w

/-- The blocks passed to `log_write` since the last commit, in order. -/
def sinceCommit (acts : List Act) : List Nat := acts.foldl written []

/-! ## The abstract header -/

theorem mem_absorb {l : List Nat} {b c : Nat} : b ∈ absorb l c ↔ b ∈ l ∨ b = c := by
  unfold absorb
  split
  · rename_i hc
    exact ⟨Or.inl, fun h => h.elim id fun h => h ▸ hc⟩
  · simp

theorem nodup_absorb {l : List Nat} (hl : l.Nodup) (c : Nat) : (absorb l c).Nodup := by
  unfold absorb
  split
  · exact hl
  · rename_i hc
    refine List.nodup_append.2 ⟨hl, List.nodup_singleton c, fun a ha b hb => ?_⟩
    rw [List.mem_singleton.1 hb]
    rintro rfl
    exact hc ha

theorem mem_foldl_absorb (ws l : List Nat) (b : Nat) :
    b ∈ ws.foldl absorb l ↔ b ∈ l ∨ b ∈ ws := by
  induction ws generalizing l with
  | nil => simp
  | cons c ws ih =>
    rw [List.foldl_cons, ih, mem_absorb, List.mem_cons]
    tauto

theorem nodup_foldl_absorb (ws : List Nat) {l : List Nat} (hl : l.Nodup) :
    (ws.foldl absorb l).Nodup := by
  induction ws generalizing l with
  | nil => exact hl
  | cons c ws ih => exact ih (nodup_absorb hl c)

/-- The absorbed list has one entry per distinct block. -/
theorem length_foldl_absorb (ws : List Nat) : (ws.foldl absorb []).length = ws.toFinset.card := by
  rw [← List.toFinset_card_of_nodup (nodup_foldl_absorb ws List.nodup_nil)]
  congr 1
  ext b
  simp [mem_foldl_absorb]

/-- `header` along a run is `absorb` along the blocks written since the last commit. -/
theorem foldl_header (acts : List Act) (w : List Nat) :
    acts.foldl header (w.foldl absorb []) = (acts.foldl written w).foldl absorb [] := by
  induction acts generalizing w with
  | nil => rfl
  | cons a acts ih =>
    have hstep : header (w.foldl absorb []) a = (written w a).foldl absorb [] := by
      cases a <;> simp [header, written, List.foldl_append]
    rw [List.foldl_cons, List.foldl_cons, hstep, ih]

/-! ## The header in memory -/

theorem mem_txBlocks {log : Log} {b : Nat} : b ∈ txBlocks log ↔ Logged log.lh b := by
  simp [txBlocks, Logged]

theorem length_txBlocks (log : Log) : (txBlocks log).length = log.lh.n := by
  simp [txBlocks]

/-- `log_write` absorbs its block into the header. -/
theorem txBlocks_logWrite {log log' : Log} {b : Nat} (h : logWrite log b = .ok log') :
    txBlocks log' = absorb (txBlocks log) b := by
  unfold logWrite at h
  split_ifs at h with h1 h2
  cases h
  unfold absorb
  by_cases hb : Logged log.lh b
  · -- absorbed: the entry the loop stops at already holds `b`
    obtain ⟨hlt, heq⟩ := absorbIndex_spec_of_logged hb
    rw [if_pos (mem_txBlocks.2 hb)]
    simp only [txBlocks, if_neg (Nat.ne_of_lt hlt)]
    rw [Function.update_eq_self_iff.2 heq.symm]
  · -- appended at index `n`, past every entry read
    have hn := absorbIndex_eq_of_not_logged hb
    rw [if_neg fun h => hb (mem_txBlocks.1 h)]
    simp only [txBlocks, hn, if_true, List.range_succ, List.map_append, List.map_singleton,
      Function.update_self]
    congr 1
    refine List.map_congr_left fun j hj => Function.update_of_ne ?_ _ _
    rw [List.mem_range] at hj
    omega

/-- One action moves the header as `header` says. -/
theorem txBlocks_step {s s' : Sys} {a : Act} (h : s.step a = some (.ok s')) :
    txBlocks s'.log = header (txBlocks s.log) a := by
  cases a with
  | begin p =>
    obtain ⟨-, hb, -⟩ := step_begin h
    rw [(beginOp_some hb).2.2]
    rfl
  | write p b =>
    obtain ⟨w, -, -, hw, -⟩ := step_write h
    exact txBlocks_logWrite hw
  | finish p =>
    obtain ⟨w, c, -, he, -⟩ := step_finish h
    simp only [txBlocks, (endOp_ok he).2.2.1]
    rfl
  | commit p =>
    obtain ⟨-, hc, -⟩ := step_commit h
    rw [hc]
    rfl

/-- Along a run, the header follows `header`. -/
theorem txBlocks_run {s s' : Sys} {acts : List Act} (h : s.run acts = some (.ok s')) :
    txBlocks s'.log = acts.foldl header (txBlocks s.log) := by
  induction acts generalizing s with
  | nil =>
    cases h
    rfl
  | cons a acts ih =>
    simp only [Sys.run] at h
    split at h
    · rename_i s₁ h₁
      rw [List.foldl_cons, ← txBlocks_step h₁]
      exact ih h
    · rename_i hne
      exact absurd (h ▸ rfl) (hne s')

/-- From boot, through every interleaving, the header is the absorbed list of the blocks
written since the last commit. -/
theorem txBlocks_boot_run {start : Nat} {acts : List Act} {s : Sys}
    (h : (Sys.boot start).run acts = some (.ok s)) :
    txBlocks s.log = (sinceCommit acts).foldl absorb [] := by
  rw [txBlocks_run h]
  exact foldl_header acts []

/-- A non-empty `commit` ends with the header on disk at count zero. -/
theorem commit_head_n {α : Type*} {log : Log} (cache : Nat → α) (d : Disk α)
    (h : 0 < log.lh.n) :
    (Crash.run (commit log cache) d).head.n = 0 := by
  rw [commit, if_pos h, Crash.run_append, Crash.run_cons, Crash.run_append, Crash.run_cons,
    Crash.run_nil, writeHead_n, LogHeader.clear_n]

end Log

/-! ## Pinned buffers -/

/-- The buffer `b'` is still dirty and holds the block `b` held. -/
def Pinned (b b' : Buf) : Prop := b'.dirty = true ∧ b'.dev = b.dev ∧ b'.blockno = b.blockno

section Pin

variable {c c' : Bcache} {i j : Fin NBUF}

theorem pinned_set (hd : (c.buf i).dirty = true) {b : Buf}
    (hb : i = j → Pinned (c.buf i) b) : Pinned (c.buf i) ((c.set j b).buf i) := by
  by_cases hij : i = j
  · subst hij
    rw [Bcache.set_buf_self]
    exact hb rfl
  · rw [Bcache.set_buf_of_ne _ _ hij]
    exact ⟨hd, rfl, rfl⟩

theorem pinned_bget (hd : (c.buf i).dirty = true) {dev blockno : Nat} {r : BgetEnd × Bcache}
    (h : bget c dev blockno = .ok r) : Pinned (c.buf i) (r.2.buf i) := by
  unfold bget at h
  split at h
  · split at h <;> cases h
    · exact pinned_set hd fun hij => hij ▸ ⟨hd, rfl, rfl⟩
    · exact ⟨hd, rfl, rfl⟩
  · split at h
    · -- the buffer recycled is clean, so it is not this one
      rename_i j hj
      cases h
      have hclean := List.find?_some hj
      refine pinned_set hd fun hij => ?_
      subst hij
      simp [hd] at hclean
    · cases h

theorem buf_iderw (h : iderw c j = .ok c') : c'.buf = c.buf := by
  rw [iderw_eq_ok h]

theorem pinned_bwrite (hd : (c.buf i).dirty = true) (h : bwrite c j = .ok c') :
    Pinned (c.buf i) (c'.buf i) := by
  unfold bwrite at h
  split_ifs at h
  rw [buf_iderw h]
  exact pinned_set hd fun hij => hij ▸ ⟨rfl, rfl, rfl⟩

theorem pinned_brelse (hd : (c.buf i).dirty = true) (h : brelse c j = .ok c') :
    Pinned (c.buf i) (c'.buf i) := by
  unfold brelse at h
  split_ifs at h
  cases h
  exact pinned_set hd fun hij => hij ▸ ⟨hd, rfl, rfl⟩

/-- When the disk completes a request a dirty buffer stays pinned, unless its own write completes
and puts its data at its home. -/
theorem pinned_ideDone (hd : (c.buf i).dirty = true) :
    Pinned (c.buf i) ((ideDone c).buf i) ∨
      (c.idequeue.head? = some i ∧
        (ideDone c).disk (c.buf i).dev (c.buf i).blockno = (c.buf i).data) := by
  unfold ideDone
  split
  · exact .inl ⟨hd, rfl, rfl⟩
  · rename_i j rest hq
    by_cases hij : i = j
    · subst hij
      refine .inr ⟨by simp [hq], ?_⟩
      simp [hd]
    · refine .inl ?_
      dsimp only
      split <;> exact pinned_set hd fun h => absurd h hij

end Pin

namespace Bsys

variable {s s' : Bsys} {i : Fin NBUF}

theorem pinned_breadFor (hd : (s.cache.buf i).dirty = true) {p : Fin NPROC} {dev blockno : Nat}
    (h : s.breadFor p dev blockno = .ok s') : Pinned (s.cache.buf i) (s'.cache.buf i) := by
  unfold breadFor at h
  split at h
  · cases h
  · cases h
    exact pinned_bget hd (by assumption)
  · rename_i j c hb
    have hp := pinned_bget hd hb
    split at h
    · cases h
      exact hp
    · split at h
      · cases h
      · cases h
        rename_i c' hc
        show Pinned (s.cache.buf i) (c'.buf i)
        rw [congrFun (buf_iderw hc) i]
        exact hp

/-- A dirty buffer stays pinned through every step of the cache, until the disk completes a
write of it, which puts its data at its home. -/
theorem dirty_step {a : BAct} (h : s.step a = some (.ok s')) (hd : (s.cache.buf i).dirty = true) :
    Pinned (s.cache.buf i) (s'.cache.buf i) ∨
      (a = .ideintr ∧ s.cache.idequeue.head? = some i ∧
        s'.cache.disk (s.cache.buf i).dev (s.cache.buf i).blockno = (s.cache.buf i).data) := by
  cases a with
  | bread p dev blockno =>
    simp only [step] at h
    split_ifs at h
    exact .inl (pinned_breadFor hd (Option.some.inj h))
  | retry p =>
    simp only [step] at h
    split at h
    · exact .inl (pinned_breadFor hd (Option.some.inj h))
    · cases h
  | done p =>
    simp only [step] at h
    split at h
    · split_ifs at h
      cases h
      exact .inl ⟨hd, rfl, rfl⟩
    · cases h
  | logWrite p j =>
    simp only [step] at h
    split_ifs at h
    cases h
    exact .inl (pinned_set hd fun hij => hij ▸ ⟨rfl, rfl, rfl⟩)
  | bwrite p j =>
    simp only [step] at h
    split_ifs at h
    obtain ⟨c, hc, rfl⟩ := Except.map_eq_ok_iff.1 (Option.some.inj h)
    exact .inl (pinned_bwrite hd hc)
  | brelse p j =>
    simp only [step] at h
    split_ifs at h
    obtain ⟨c, hc, rfl⟩ := Except.map_eq_ok_iff.1 (Option.some.inj h)
    exact .inl (pinned_brelse hd hc)
  | ideintr =>
    simp only [step, Option.some.injEq] at h
    obtain ⟨c, hc, rfl⟩ := Except.map_eq_ok_iff.1 h
    rw [ideintr_eq_ok hc]
    rcases pinned_ideDone hd with hp | hw
    · exact .inl hp
    · exact .inr ⟨rfl, hw⟩

/-- `log_write` pins the buffer. -/
theorem dirty_logWrite {p : Fin NPROC} (h : s.step (.logWrite p i) = some (.ok s')) :
    (s'.cache.buf i).dirty = true := by
  simp only [step] at h
  split_ifs at h
  cases h
  simp [logWriteBuf]

end Bsys

theorem log_absorption :
    (∀ start acts (s : Log.Sys), (Log.Sys.boot start).run acts = some (.ok s) →
      (Log.txBlocks s.log).Nodup ∧ s.log.lh.n = (Log.sinceCommit acts).toFinset.card ∧
        ∀ b, b ∈ Log.txBlocks s.log ↔ b ∈ Log.sinceCommit acts) ∧
    (∀ (s s' : Bsys) p i, s.step (.logWrite p i) = some (.ok s') →
      (s'.cache.buf i).dirty = true) ∧
    (∀ (s s' : Bsys) a i, s.step a = some (.ok s') → (s.cache.buf i).dirty = true →
      Pinned (s.cache.buf i) (s'.cache.buf i) ∨
        (a = .ideintr ∧ s.cache.idequeue.head? = some i ∧
          s'.cache.disk (s.cache.buf i).dev (s.cache.buf i).blockno = (s.cache.buf i).data)) ∧
    ∀ (log : Log) (cache : Nat → Block) (d : Disk Block), (Log.commitDone log).lh.n = 0 ∧
      (0 < log.lh.n → (Crash.run (Log.commit log cache) d).head.n = 0) := by
  refine ⟨fun start acts s h => ?_, fun s s' p i h => Bsys.dirty_logWrite h,
    fun s s' a i h hd => Bsys.dirty_step h hd,
    fun log cache d => ⟨rfl, Log.commit_head_n cache d⟩⟩
  -- the header is the absorbed list of the blocks written since the last commit
  have ht := Log.txBlocks_boot_run h
  refine ⟨ht ▸ Log.nodup_foldl_absorb _ List.nodup_nil, ?_, fun b => ?_⟩
  · rw [← Log.length_txBlocks, ht, Log.length_foldl_absorb]
  · rw [ht, Log.mem_foldl_absorb]
    simp

/-- A transaction that writes block `40`, then block `41`, then block `40` again: the header
holds the two blocks, `40` once. -/
theorem log_absorption_rewrite :
    ∃ s : Log.Sys, (Log.Sys.boot 2).run [.begin ⟨0, NPROC_pos⟩, .write ⟨0, NPROC_pos⟩ 40,
        .write ⟨0, NPROC_pos⟩ 41, .write ⟨0, NPROC_pos⟩ 40] = some (.ok s) ∧
      (Log.txBlocks s.log).Nodup ∧ s.log.lh.n = 2 ∧
      ∀ b, b ∈ Log.txBlocks s.log ↔ b = 40 ∨ b = 41 := by
  obtain ⟨s, hs⟩ : ∃ s : Log.Sys, (Log.Sys.boot 2).run [.begin ⟨0, NPROC_pos⟩,
      .write ⟨0, NPROC_pos⟩ 40, .write ⟨0, NPROC_pos⟩ 41, .write ⟨0, NPROC_pos⟩ 40] =
        some (.ok s) := ⟨_, rfl⟩
  obtain ⟨hnd, hn, hmem⟩ := log_absorption.1 2 _ s hs
  refine ⟨s, hs, hnd, hn.trans (by decide), fun b => ?_⟩
  rw [hmem b]
  simp only [Log.sinceCommit, Log.written, List.foldl_cons, List.foldl_nil, List.nil_append,
    List.cons_append, List.mem_cons, List.not_mem_nil, or_false]
  tauto

end Xv6
