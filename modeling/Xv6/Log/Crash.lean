import Xv6.Log.Commit

/-!
# Crash atomicity of the redo log

A crash keeps the first `k` writes of `commit()` for some `k`; the next boot runs
`recover_from_log()`, which may itself crash any number of times before one run
completes. Every state a crash can leave falls in one of three classes:

* `CleanWith log old`: the header is clean and the home blocks are as before;
* `Committed`: the header names the transaction, the log slots hold it, and the home
  blocks it does not name are as before (the ones it names may be half installed);
* `CleanWith log (installed ...)`: the header is clean and the transaction is home.

Recovery keeps each class and, started from any state of a class, always ends in the
same state (`complete_crashAfter_recover`), so `Crash.recoverAfter_eq_complete` removes
the crashes of recovery. What remains is where one complete recovery ends from each
class: `commit_crash_recover_atomic`. The header write of `commit` is the single point
where the outcome switches from the old home contents to the new ones.
-/

namespace Xv6

variable {α : Type*}

namespace Log

/-- Writing a header whose count is zero does not depend on the header's block numbers. -/
theorem writeHead_of_n_eq_zero {lh lh' : LogHeader} (hn : lh.n = 0) (hn' : lh'.n = 0) :
    (writeHead lh : Disk α → Disk α) = writeHead lh' := by
  funext d
  ext <;> simp [writeHead, hn, hn']

section Transaction

variable (log : Log) (cache : Nat → α) (old : Nat → α)

/-- A clean header, and the home blocks holding `home`. -/
def CleanWith (home : Nat → α) (d : Disk α) : Prop :=
  d.head.n = 0 ∧ ∀ b, log.home b → d.data b = home b

/-- The header names the transaction, the log slots hold its cached blocks, and every
home block outside the transaction holds `old`. -/
def Committed (d : Disk α) : Prop :=
  d.head.n = log.lh.n ∧ (∀ i < log.lh.n, d.head.block i = log.lh.block i) ∧
    (∀ i < log.lh.n, d.data (log.slot i) = cache (log.lh.block i)) ∧
    ∀ b, log.home b → b ∉ log.txBlocks → d.data b = old b

/-- The states a crash of `commit` or of `recover_from_log` can leave. -/
def Recoverable (d : Disk α) : Prop :=
  CleanWith log old d ∨ CleanWith log (installed log cache old) d ∨ Committed log cache old d

/-- The disk once every logged block holds its cached copy. -/
def installAll (d : Disk α) : Disk α :=
  { d with data := fun b => if b ∈ log.txBlocks then cache b else d.data b }

/-- The writes of `install_trans`'s turns `ts` once the slots hold the cached blocks. -/
def installWrites (ts : List Nat) : List (Nat × α) :=
  ts.map fun t => (log.lh.block t, cache (log.lh.block t))

end Transaction

section Layout

variable {log : Log} {cache : Nat → α} {old : Nat → α}

/-- The logged blocks are home blocks and the transaction fits in the log area. -/
structure Layout (log : Log) : Prop where
  room : log.lh.n < log.size
  home : ∀ i < log.lh.n, log.home (log.lh.block i)

theorem Layout.block_ne_slot (hl : Layout log) {i j : Nat} (hi : i < log.lh.n)
    (hj : j < log.lh.n) : log.lh.block i ≠ log.slot j := by
  intro h
  exact not_home_slot log hj hl.room (h ▸ hl.home i hi)

theorem Layout.not_mem_txBlocks_slot (hl : Layout log) {j : Nat} (hj : j < log.lh.n) :
    log.slot j ∉ log.txBlocks := by
  simp only [txBlocks, List.mem_map, List.mem_range, not_exists, not_and]
  exact fun i hi h => hl.block_ne_slot hi hj h

/-- A prefix of `install_trans` run on a committed disk: each step stores the cached copy. -/
theorem run_installTrans_take (hl : Layout log) (hc : Committed log cache old d) (j : Nat) :
    Crash.run ((installTrans log).take j) d =
      { d with data := Store.writeList (installWrites log cache ((List.range log.lh.n).take j)) d.data } := by
  have hts : ∀ t ∈ (List.range log.lh.n).take j, t < log.lh.n :=
    fun t ht => List.mem_range.1 (List.mem_of_mem_take ht)
  rw [installTrans, ← List.map_take, run_installSteps log _
    (fun t ht t' ht' => hl.block_ne_slot (hts t ht) (hts t' ht'))]
  congr 2
  exact List.map_congr_left fun t ht => by rw [hc.2.2.1 t (hts t ht)]

/-- The locations a prefix of `install_trans` writes are logged blocks. -/
theorem mem_installWrites (j : Nat) {x : Nat}
    (hx : x ∈ (installWrites log cache ((List.range log.lh.n).take j)).map Prod.fst) :
    x ∈ log.txBlocks := by
  simp only [installWrites, List.map_map, List.mem_map, Function.comp_def] at hx
  obtain ⟨t, ht, rfl⟩ := hx
  exact List.mem_map.2 ⟨t, List.mem_of_mem_take ht, rfl⟩

/-- A crash inside `install_trans` leaves the disk committed. -/
theorem committed_installTrans_take (hl : Layout log) (hc : Committed log cache old d) (j : Nat) :
    Committed log cache old (Crash.run ((installTrans log).take j) d) := by
  rw [run_installTrans_take hl hc j]
  obtain ⟨hn, hblock, hslot, hrest⟩ := hc
  refine ⟨hn, hblock, fun i hi => ?_, fun b hb hnot => ?_⟩
  · dsimp only
    rw [Store.writeList_of_not_mem _ _ fun hx =>
      hl.not_mem_txBlocks_slot hi (mem_installWrites j hx)]
    exact hslot i hi
  · dsimp only
    rw [Store.writeList_of_not_mem _ _ fun hx => hnot (mem_installWrites j hx)]
    exact hrest b hb hnot

/-- All of `install_trans` on a committed disk installs every cached block. -/
theorem run_installTrans (hl : Layout log) (hc : Committed log cache old d) :
    Crash.run (installTrans log) d = installAll log cache d := by
  have hfull := run_installTrans_take hl hc log.lh.n
  rw [List.take_of_length_le (by simp [installTrans]),
    List.take_of_length_le (by simp)] at hfull
  rw [hfull]
  have hcons : ∀ w ∈ installWrites log cache (List.range log.lh.n), w.2 = cache w.1 := by
    intro w hw
    obtain ⟨t, -, rfl⟩ := List.mem_map.1 hw
    rfl
  ext b
  · dsimp only
    rw [Store.writeList_consistent cache _ hcons]
    simp only [installAll, installWrites, List.map_map, Function.comp_def, txBlocks]
    rfl
  · rfl

/-- `install_trans` depends only on the log's start, its count and its first `n` block
numbers. -/
theorem installTrans_congr {log log' : Log} (hstart : log'.start = log.start)
    (hn : log'.lh.n = log.lh.n) (hblock : ∀ i < log.lh.n, log'.lh.block i = log.lh.block i) :
    (installTrans log' : List (Disk α → Disk α)) = installTrans log := by
  rw [installTrans, installTrans, hn]
  refine List.map_congr_left fun t ht => ?_
  funext e
  simp [installStep, slot, hstart, hblock t (List.mem_range.1 ht)]

/-- Installing after a crash inside `install_trans` installs the same thing. -/
theorem installAll_installTrans_take (hl : Layout log) (hc : Committed log cache old d) (j : Nat) :
    installAll log cache (Crash.run ((installTrans log).take j) d) = installAll log cache d := by
  rw [run_installTrans_take hl hc j]
  ext b
  · simp only [installAll]
    split_ifs with hb
    · rfl
    · exact Store.writeList_of_not_mem _ _ fun hx => hb (mem_installWrites j hx)
  · rfl

end Layout

/-! ## Recovery from each class -/

section Recovery

variable {log boot : Log} {cache old home : Nat → α} {d : Disk α}

/-- On a committed disk, recovery installs the transaction the header names and clears
the header. -/
theorem recoverFromLog_of_committed (hstart : boot.start = log.start)
    (hc : Committed log cache old d) :
    recoverFromLog boot d = installTrans log ++ [writeHead log.lh.clear] := by
  have hinstall : (installTrans { boot with lh := readHead boot.lh d } : List (Disk α → Disk α)) =
      installTrans log :=
    installTrans_congr hstart hc.1 fun i hi => by simp [readHead, hc.1, hi, hc.2.1 i hi]
  simp only [recoverFromLog]
  rw [hinstall, writeHead_of_n_eq_zero (LogHeader.clear_n _) (LogHeader.clear_n log.lh)]

/-- On a clean disk, recovery only clears the header again. -/
theorem recoverFromLog_of_clean (log : Log) (hn : d.head.n = 0) :
    recoverFromLog boot d = [writeHead log.lh.clear] := by
  have hinstall : (installTrans { boot with lh := readHead boot.lh d } : List (Disk α → Disk α)) =
      [] := by
    simp [installTrans, readHead, hn]
  simp only [recoverFromLog]
  rw [hinstall, writeHead_of_n_eq_zero (LogHeader.clear_n _) (LogHeader.clear_n log.lh)]
  rfl

theorem cleanWith_writeHead_clear (hcl : CleanWith log home d) :
    CleanWith log home (writeHead log.lh.clear d) :=
  ⟨rfl, hcl.2⟩

theorem complete_of_clean (log : Log) (hn : d.head.n = 0) :
    Crash.complete (recoverFromLog boot) d = writeHead log.lh.clear d := by
  rw [Crash.complete, recoverFromLog_of_clean log hn]
  rfl

/-- Clearing the header of a committed disk after installing it leaves the transaction
home. -/
theorem cleanWith_installAll (hc : Committed log cache old d) :
    CleanWith log (installed log cache old) (writeHead log.lh.clear (installAll log cache d)) := by
  refine ⟨rfl, fun b hb => ?_⟩
  simp only [writeHead_data, installAll, installed]
  split_ifs with hx
  · rfl
  · exact hc.2.2.2 b hb hx

theorem complete_of_committed (hl : Layout log) (hstart : boot.start = log.start)
    (hc : Committed log cache old d) :
    Crash.complete (recoverFromLog boot) d = writeHead log.lh.clear (installAll log cache d) := by
  rw [Crash.complete, recoverFromLog_of_committed hstart hc, Crash.run_append,
    run_installTrans hl hc]
  rfl

/-- Where a crashed recovery of a committed disk stops: inside `install_trans`, or after
its last write. -/
theorem crashAfter_of_committed (hstart : boot.start = log.start)
    (hc : Committed log cache old d) (j : Nat) :
    (j ≤ log.lh.n ∧ Crash.crashAfter (recoverFromLog boot) d j =
        Crash.run ((installTrans log).take j) d) ∨
      Crash.crashAfter (recoverFromLog boot) d j = Crash.complete (recoverFromLog boot) d := by
  by_cases hj : j ≤ log.lh.n
  · left
    have hlen : (installTrans log : List (Disk α → Disk α)).length = log.lh.n := by
      simp [installTrans]
    refine ⟨hj, ?_⟩
    rw [Crash.crashAfter, recoverFromLog_of_committed hstart hc,
      List.take_append_of_le_length (by rw [hlen]; exact hj)]
  · right
    apply Crash.crashAfter_of_length_le
    rw [recoverFromLog_of_committed hstart hc]
    simp [installTrans]
    omega

/-- Crashed recoveries keep a disk in its class. -/
theorem recoverable_crashAfter (hl : Layout log) (hstart : boot.start = log.start)
    (hr : Recoverable log cache old d) (j : Nat) :
    Recoverable log cache old (Crash.crashAfter (recoverFromLog boot) d j) := by
  have hclean : ∀ {h : Nat → α} {e : Disk α}, CleanWith log h e →
      CleanWith log h (Crash.crashAfter (recoverFromLog boot) e j) := by
    intro h e hcl
    rw [Crash.crashAfter, recoverFromLog_of_clean log hcl.1]
    cases j with
    | zero => exact hcl
    | succ j =>
        rw [List.take_succ_cons, List.take_nil]
        exact cleanWith_writeHead_clear hcl
  rcases hr with hcl | hcl | hc
  · exact Or.inl (hclean hcl)
  · exact Or.inr (Or.inl (hclean hcl))
  · rcases crashAfter_of_committed hstart hc j with ⟨-, heq⟩ | heq
    · rw [heq]
      exact Or.inr (Or.inr (committed_installTrans_take hl hc j))
    · rw [heq, complete_of_committed hl hstart hc]
      exact Or.inr (Or.inl (cleanWith_installAll hc))

/-- From every state of a class, recovery ends in the same place whether or not a crash
came first: the idempotence `Crash.recoverAfter_eq_complete` needs. -/
theorem complete_crashAfter_recover (hl : Layout log) (hstart : boot.start = log.start)
    (hr : Recoverable log cache old d) (j : Nat) :
    Crash.complete (recoverFromLog boot) (Crash.crashAfter (recoverFromLog boot) d j) =
      Crash.complete (recoverFromLog boot) d := by
  have hclean : ∀ {e : Disk α}, e.head.n = 0 →
      Crash.complete (recoverFromLog boot) (Crash.crashAfter (recoverFromLog boot) e j) =
        Crash.complete (recoverFromLog boot) e := by
    intro e hn
    rw [Crash.crashAfter, recoverFromLog_of_clean log hn]
    cases j with
    | zero => rfl
    | succ j =>
        rw [List.take_succ_cons, List.take_nil, Crash.run_cons, Crash.run_nil,
          complete_of_clean log rfl, complete_of_clean log hn,
          writeHead_zero_idem _ _ rfl rfl]
  rcases hr with hcl | hcl | hc
  · exact hclean hcl.1
  · exact hclean hcl.1
  · rcases crashAfter_of_committed hstart hc j with ⟨-, heq⟩ | heq
    · rw [heq, complete_of_committed hl hstart (committed_installTrans_take hl hc j),
        complete_of_committed hl hstart hc, installAll_installTrans_take hl hc j]
    · rw [heq, complete_of_committed hl hstart hc, complete_of_clean log rfl,
        writeHead_zero_idem _ _ rfl rfl]

/-- A complete recovery ends with a clean header, and the home blocks either as before
or with the transaction installed. -/
theorem complete_of_recoverable (hl : Layout log) (hstart : boot.start = log.start)
    (hr : Recoverable log cache old d) :
    CleanWith log old (Crash.complete (recoverFromLog boot) d) ∨
      CleanWith log (installed log cache old) (Crash.complete (recoverFromLog boot) d) := by
  rcases hr with hcl | hcl | hc
  · rw [complete_of_clean log hcl.1]
    exact Or.inl (cleanWith_writeHead_clear hcl)
  · rw [complete_of_clean log hcl.1]
    exact Or.inr (cleanWith_writeHead_clear hcl)
  · rw [complete_of_committed hl hstart hc]
    exact Or.inr (cleanWith_installAll hc)

/-- Whatever the disk holds, a completed recovery leaves a clean header: every boot
hands `commit` a disk of the kind `commit_crash_recover_atomic` starts from. -/
theorem complete_recoverFromLog_head_n (boot : Log) (d : Disk α) :
    (Crash.complete (recoverFromLog boot) d).head.n = 0 := by
  simp only [Crash.complete, recoverFromLog, Crash.run_append, Crash.run_cons, Crash.run_nil,
    writeHead_n, LogHeader.clear_n]

end Recovery

/-! ## Where a crash of `commit` leaves the disk -/

section Commit

variable {log : Log} {cache : Nat → α} {d : Disk α}

/-- The slot of each logged block, read back after a prefix of `write_log`. -/
theorem writeList_logWrites_slot (i : Nat) (hi : i < log.lh.n) :
    Store.writeList (logWrites log cache) d.data (log.slot i) = cache (log.lh.block i) := by
  have hcons : ∀ w ∈ logWrites log cache, w.2 = cache (log.lh.block (w.1 - log.start - 1)) := by
    intro w hw
    obtain ⟨t, -, rfl⟩ := List.mem_map.1 hw
    have ht : log.start + t + 1 - log.start - 1 = t := by omega
    simp [slot, ht]
  have hmem : log.slot i ∈ (logWrites log cache).map Prod.fst := by
    simp only [logWrites, List.map_map, List.mem_map, List.mem_range, Function.comp_def]
    exact ⟨i, hi, rfl⟩
  have hi' : log.slot i - log.start - 1 = i := by
    simp only [slot]
    omega
  rw [Store.writeList_consistent (fun x => cache (log.lh.block (x - log.start - 1))) _ hcons,
    if_pos hmem, hi']

/-- `write_log` touches no home block. -/
theorem writeList_take_logWrites_home (hl : Layout log) (k : Nat) {b : Nat} (hb : log.home b) :
    Store.writeList ((logWrites log cache).take k) d.data b = d.data b := by
  apply Store.writeList_of_not_mem
  intro hx
  simp only [logWrites, ← List.map_take, List.map_map, List.mem_map, Function.comp_def] at hx
  obtain ⟨t, ht, rfl⟩ := hx
  exact not_home_slot log (List.mem_range.1 (List.mem_of_mem_take ht)) hl.room hb

theorem length_writeLog : (writeLog log cache).length = log.lh.n := by
  simp [writeLog, logWrites]

/-- The disk at the commit point: the log written and the header naming it. -/
theorem committed_writeHead_writeLog (hl : Layout log) :
    Committed log cache d.data (writeHead log.lh (Crash.run (writeLog log cache) d)) := by
  rw [writeLog, run_bwrites]
  refine ⟨rfl, fun i hi => writeHead_block_of_lt _ _ hi, fun i hi => ?_, fun b hb _ => ?_⟩
  · exact writeList_logWrites_slot i hi
  · have h : Store.writeList ((logWrites log cache).take (logWrites log cache).length) d.data b =
        d.data b := writeList_take_logWrites_home hl _ hb
    rwa [List.take_length] at h

/-- Every crash point of `commit`, on a disk with a clean header, leaves a state from
which recovery is well defined. -/
theorem recoverable_commit_take (hl : Layout log) (hclean : d.head.n = 0) (k : Nat) :
    Recoverable log cache d.data (Crash.run ((commit log cache).take k) d) := by
  by_cases hn : 0 < log.lh.n
  swap
  · rw [commit, if_neg hn, List.take_nil]
    exact Or.inl ⟨hclean, fun b _ => rfl⟩
  rw [commit, if_pos hn, List.take_append, Crash.run_append, length_writeLog]
  by_cases hk : k ≤ log.lh.n
  · -- the crash came inside `write_log`: the header is still clean
    rw [Nat.sub_eq_zero_of_le hk, List.take_zero, Crash.run_nil, writeLog, ← List.map_take,
      run_bwrites]
    exact Or.inl ⟨hclean, fun b hb => writeList_take_logWrites_home hl k hb⟩
  -- past the commit point: the header names the transaction
  obtain ⟨m, hm⟩ : ∃ m, k - log.lh.n = m + 1 := ⟨k - log.lh.n - 1, by omega⟩
  rw [List.take_of_length_le (l := writeLog log cache) (by rw [length_writeLog]; omega), hm,
    List.take_succ_cons,
    Crash.run_cons, List.take_append, Crash.run_append]
  have hc : Committed log cache d.data (writeHead log.lh (Crash.run (writeLog log cache) d)) :=
    committed_writeHead_writeLog hl
  generalize writeHead log.lh (Crash.run (writeLog log cache) d) = d1 at hc ⊢
  have hlen : (installTrans log : List (Disk α → Disk α)).length = log.lh.n := by
    simp [installTrans]
  by_cases hm' : m ≤ log.lh.n
  · -- the crash came inside `install_trans`
    rw [hlen, Nat.sub_eq_zero_of_le hm', List.take_zero, Crash.run_nil]
    exact Or.inr (Or.inr (committed_installTrans_take hl hc m))
  · -- the crash came after the last write: the header is clean again
    obtain ⟨m', hm''⟩ : ∃ m', m - log.lh.n = m' + 1 := ⟨m - log.lh.n - 1, by omega⟩
    rw [List.take_of_length_le (l := installTrans log) (by omega), hlen, hm'',
      List.take_succ_cons, List.take_nil,
      Crash.run_cons, Crash.run_nil, run_installTrans hl hc]
    exact Or.inr (Or.inl (cleanWith_installAll hc))

end Commit

/-- The disk after `commit` crashed after its first `k` writes and the next boot's
`recover_from_log` crashed at each point of `ks` before one run completed. -/
def recoveredAfterCommit (log boot : Log) (cache : Nat → α) (d : Disk α) (k : Nat)
    (ks : List Nat) : Disk α :=
  Crash.recoverAfter (recoverFromLog boot) ks (Crash.run ((commit log cache).take k) d)

/-- **Crash atomicity of the log.** Start from a disk whose header is clean (as every
commit and every recovery leave it) and a transaction whose blocks are home blocks and
fit in the log. Whatever prefix of `commit`'s writes reaches the disk, and however often
the recovery that follows is interrupted, once a recovery completes the home blocks hold
either exactly their old contents or the old contents overwritten by every logged block,
and the header is clean. -/
theorem commit_crash_recover_atomic (log boot : Log) (cache : Nat → α) (d : Disk α)
    (hclean : d.head.n = 0) (hroom : log.lh.n < log.size)
    (hhome : ∀ i < log.lh.n, log.home (log.lh.block i)) (hstart : boot.start = log.start)
    (k : Nat) (ks : List Nat) :
    ((∀ b, log.home b → (recoveredAfterCommit log boot cache d k ks).data b = d.data b) ∨
      ∀ b, log.home b →
        (recoveredAfterCommit log boot cache d k ks).data b = installed log cache d.data b) ∧
      (recoveredAfterCommit log boot cache d k ks).head.n = 0 := by
  have hl : Layout log := ⟨hroom, hhome⟩
  have hr : Recoverable log cache d.data (Crash.run ((commit log cache).take k) d) :=
    recoverable_commit_take hl hclean k
  have hrec : recoveredAfterCommit log boot cache d k ks =
      Crash.complete (recoverFromLog boot) (Crash.run ((commit log cache).take k) d) :=
    Crash.recoverAfter_eq_complete _ (Recoverable log cache d.data)
      (fun _ j he => recoverable_crashAfter hl hstart he j)
      (fun _ j he => complete_crashAfter_recover hl hstart he j) ks _ hr
  rw [hrec]
  rcases complete_of_recoverable hl hstart hr with h | h
  · exact ⟨Or.inl h.2, h.1⟩
  · exact ⟨Or.inr h.2, h.1⟩

/-- One logged block `100` in a log at block `2` of size `30`: commit crashed after its
header write, recovery crashed after its first step and then completed. -/
theorem commit_crash_recover_atomic_one_block :
    (⟨fun _ => 0, ⟨0, fun _ => 0⟩⟩ : Disk Nat).head.n = 0 ∧
      (⟨2, 30, 0, false, ⟨1, fun _ => 100⟩⟩ : Log).lh.n < 30 ∧
      (∀ i < 1, (⟨2, 30, 0, false, ⟨1, fun _ => 100⟩⟩ : Log).home 100) ∧
      (((∀ b, (⟨2, 30, 0, false, ⟨1, fun _ => 100⟩⟩ : Log).home b →
          (recoveredAfterCommit ⟨2, 30, 0, false, ⟨1, fun _ => 100⟩⟩ ⟨2, 30, 0, false, ⟨1, fun _ => 100⟩⟩
            (fun _ => 7) ⟨fun _ => 0, ⟨0, fun _ => 0⟩⟩ 3 [1]).data b = 0) ∨
        ∀ b, (⟨2, 30, 0, false, ⟨1, fun _ => 100⟩⟩ : Log).home b →
          (recoveredAfterCommit ⟨2, 30, 0, false, ⟨1, fun _ => 100⟩⟩ ⟨2, 30, 0, false, ⟨1, fun _ => 100⟩⟩
            (fun _ => 7) ⟨fun _ => 0, ⟨0, fun _ => 0⟩⟩ 3 [1]).data b =
            installed ⟨2, 30, 0, false, ⟨1, fun _ => 100⟩⟩ (fun _ => 7) (fun _ => 0) b) ∧
        (recoveredAfterCommit ⟨2, 30, 0, false, ⟨1, fun _ => 100⟩⟩ ⟨2, 30, 0, false, ⟨1, fun _ => 100⟩⟩
          (fun _ => 7) ⟨fun _ => 0, ⟨0, fun _ => 0⟩⟩ 3 [1]).head.n = 0) :=
  ⟨rfl, by decide, fun _ _ => by decide,
    commit_crash_recover_atomic _ _ _ _ rfl (by decide) (by decide) rfl 3 [1]⟩

end Log

end Xv6
