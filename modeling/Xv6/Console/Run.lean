import Mathlib
import Xv6.Lib.History
import Xv6.Console.Input

/-!
# The console's line discipline over every interleaving

Characters reach `consoleintr` one at a time, and `consoleread` calls take `cons.lock` in any
order between them. A call that finds nothing committed sleeps, and runs again later in a new
hold, with the count of bytes it still has to copy. The calls are a family indexed by `ι`,
call `c` asking for `n c` bytes; `kill` sets the flag `proc->killed` of a caller at any time,
and the wakeups are left to the scheduler, so every schedule of the kernel is among the runs.

A run keeps, beside the ring, the state of the line discipline on lists (`Discipline.key`):
the line as edited, and the input committed so far. It also keeps two histories the code does
not: `taken`, the bytes the reads consumed, each with the call that consumed it, and `got`, the
bytes the reads copied to their callers, in the order they were copied. `ConsoleRun.Inv` holds
in every reachable state (`ConsoleRun.inv_of_reachable`): the ring holds the edited line and,
after the bytes taken, the committed input; the bytes copied are those taken but `C('D')`; and
each call's state says what it consumed (`CallOk`).
-/

namespace Xv6

/-- Where a read call stands: not begun, asleep with `m` bytes still to copy, or returned
`r`. -/
inductive ReadCall where
  | ready
  | asleep (m : Nat)
  | returned (r : Int)
deriving DecidableEq, Repr

namespace ReadCall

/-- The count a hold of the call starts from, if the call can run. -/
def resume (target : Nat) : ReadCall → Option Nat
  | ready => some target
  | asleep m => some m
  | returned _ => none

/-- Where the call stands after a hold that started from `m` and copied `bs`. -/
def after (m : Nat) (bs : List UInt8) : ReadEnd → ReadCall
  | .returned r => returned r
  | .sleep => asleep (m - bs.length)

end ReadCall

/-- What a read call's state says of the bytes `tk` it consumed, for a call asking `target`
bytes whose caller is `killed` or not. Before it ends it has consumed only plain bytes, and
has that many fewer to copy; a `C('D')` it consumed is the only byte it consumed, and made it
return `0`; it returns `-1` only if killed, and otherwise the count of bytes it copied, which is
`0` exactly when it asked for none or consumed a `C('D')`. -/
def CallOk (target : Nat) (killed : Bool) (tk : List UInt8) : ReadCall → Prop
  | .ready => tk = []
  | .asleep m => (∀ x ∈ tk, Discipline.Plain x) ∧ tk.length < target ∧ m = target - tk.length
  | .returned r =>
    (C 'D' ∈ tk → tk = [C 'D'] ∧ r = 0) ∧
      ((r = -1 ∧ killed = true) ∨
        (r = (tk.filter fun x => x ≠ C 'D').length ∧ (r = 0 ↔ target = 0 ∨ tk = [C 'D'])))

section CallOk

variable {target : Nat} {killed : Bool} {tk : List UInt8} {call : ReadCall}

/-- A call that can run has consumed plain bytes only, and has as many fewer to copy. -/
theorem CallOk.running {m : Nat} (hc : CallOk target killed tk call)
    (hres : call.resume target = some m) :
    (∀ x ∈ tk, Discipline.Plain x) ∧ m + tk.length = target := by
  cases call with
  | ready =>
    cases hc
    cases hres
    exact ⟨by simp, by simp⟩
  | asleep m' =>
    cases hres
    obtain ⟨hplain, hlt, rfl⟩ := hc
    exact ⟨hplain, by omega⟩
  | returned r => cases hres

/-- A kill changes nothing a call's state says but the flag. -/
theorem CallOk.kill (hc : CallOk target killed tk call) : CallOk target true tk call := by
  cases call with
  | ready => exact hc
  | asleep m => exact hc
  | returned r =>
    obtain ⟨hD, hkill | hret⟩ := hc
    · exact ⟨hD, .inl ⟨hkill.1, rfl⟩⟩
    · exact ⟨hD, .inr hret⟩

/-- One hold of a call that can run keeps its state right, over the bytes it consumes. -/
theorem CallOk.hold {m : Nat} {p t bs : List UInt8} {e : ReadEnd}
    (hc : CallOk target killed tk call) (hres : call.resume target = some m)
    (h : Discipline.read target killed m p = (t, bs, e)) :
    CallOk target killed (tk ++ t) (ReadCall.after m bs e) := by
  obtain ⟨htk, hm⟩ := hc.running hres
  obtain ⟨q, hq, hcase⟩ := Discipline.read_cases h
  have hplain : ∀ x ∈ tk ++ q, Discipline.Plain x := by
    simpa [or_imp, forall_and] using And.intro htk hq
  have hnD : C 'D' ∉ tk ++ q := fun h' => (hplain _ h').1 rfl
  have hlen := Discipline.filter_of_plain hplain
  have hne : tk ++ q ≠ [C 'D'] := fun h' => hnD (by simp [h'])
  have hnl : byte '\n' ≠ C 'D' := by decide
  have hnD' : C 'D' ∉ tk ++ q ++ [byte '\n'] := by
    rw [List.mem_append, List.mem_singleton, not_or]
    exact ⟨hnD, hnl.symm⟩
  have hne' : tk ++ (q ++ [byte '\n']) ≠ [C 'D'] := fun h' =>
    hnD' (by rw [List.append_assoc, h']; simp)
  rcases hcase with ⟨hq_len, -, rfl, -, rfl⟩ | ⟨hq_len, -, rfl, hbs, rfl⟩ |
      ⟨rest, hq_len, -, rfl, -, rfl⟩ | ⟨rest, hq_len, -, rfl, -, rfl⟩
  · -- it copied all it was asked for
    refine ⟨fun h' => absurd h' hnD, .inr ⟨?_, ?_⟩⟩
    · rw [hlen, List.length_append]
      omega
    · simp [hne]
  · cases killed with
    | true => exact ⟨fun h' => absurd h' hnD, .inl ⟨rfl, rfl⟩⟩
    | false =>
      -- it took every committed byte and sleeps, with the rest still to copy
      refine ⟨hplain, by rw [List.length_append]; omega, by rw [List.length_append, hbs]; omega⟩
  · split_ifs with hsave
    · -- the `C('D')` is saved for the next call
      refine ⟨fun h' => absurd h' hnD, .inr ⟨?_, ?_⟩⟩
      · rw [hlen, List.length_append]
        omega
      · simp only [hne, or_false]
        omega
    · -- the `C('D')` is the call's first byte: it is consumed, and the call returns `0`
      have hq0 : q = [] := List.eq_nil_of_length_eq_zero (by omega)
      have htk0 : tk = [] := List.eq_nil_of_length_eq_zero (by omega)
      subst hq0 htk0
      have hm' : m = target := by simpa using hm
      subst hm'
      refine ⟨fun _ => ⟨rfl, by simp⟩, .inr ⟨by simp, by simp⟩⟩
  · -- it copied a newline
    refine ⟨fun h' => absurd (by rwa [← List.append_assoc] at h') hnD', .inr ⟨?_, ?_⟩⟩
    · rw [← List.append_assoc, List.filter_append, hlen]
      simp only [List.length_append]
      rw [List.filter_singleton]
      simp only [hnl, ne_eq, not_false_eq_true, decide_true, cond_true, List.length_singleton]
      omega
    · simp only [hne', or_false]
      omega

end CallOk

/-- The ring, the read calls, the killed flags, the line discipline on lists, and the two
histories. -/
structure ConsoleRun (ι : Type*) where
  input : Input
  calls : ι → ReadCall
  killed : ι → Bool
  line : List UInt8
  committed : List UInt8
  taken : List (ι × UInt8)
  got : List (ι × UInt8)

namespace ConsoleRun

variable {ι : Type*} [DecidableEq ι] (n : ι → Int)

/-- A run starts with the counters of `input` at `0`, as the kernel's data leaves them, and no
call begun. -/
def init (buf : Fin INPUT_BUF → UInt8) : ConsoleRun ι :=
  { input := ⟨buf, 0, 0, 0⟩, calls := fun _ => .ready, killed := fun _ => false,
    line := [], committed := [], taken := [], got := [] }

/-- The count of committed bytes not read yet, as the line discipline on lists knows it. -/
def pending (s : ConsoleRun ι) : Nat := s.committed.length - s.taken.length

/-- One step: a character through `consoleintr`, a hold of `cons.lock` by a read call, or a
kill. -/
inductive Step : ConsoleRun ι → ConsoleRun ι → Prop
  | intr {s : ConsoleRun ι} (ch : UInt8) :
      Step s { s with input := s.input.intr ch,
                      line := (Discipline.key s.pending s.line ch).1,
                      committed := s.committed ++ (Discipline.key s.pending s.line ch).2 }
  /-- Call `c` runs `consoleread`'s loop from the count it had reached; the bytes it consumes
  are those `r` moves over. -/
  | read {s : ConsoleRun ι} (c : ι) {m : Nat} {inp : Input} {bs : List UInt8} {e : ReadEnd} :
      (s.calls c).resume (n c).toNat = some m →
      consolereadLoop (n c).toNat (s.killed c) m s.input = (inp, bs, e) →
      Step s { s with input := inp, calls := Function.update s.calls c (ReadCall.after m bs e),
                      taken := s.taken ++
                        History.tag c (Ring.window s.input.buf s.input.r (inp.r - s.input.r).toNat),
                      got := s.got ++ History.tag c bs }
  | kill {s : ConsoleRun ι} (c : ι) : Step s { s with killed := Function.update s.killed c true }

/-- The states of the runs from some contents of the ring. -/
def Reachable (s : ConsoleRun ι) : Prop :=
  ∃ buf, Relation.ReflTransGen (Step n) (init buf) s

/-- What holds in every reachable state. -/
structure Inv (s : ConsoleRun ι) : Prop where
  ok : s.input.Ok
  line : s.input.line = s.line
  no_newline : byte '\n' ∉ s.line
  no_return : byte '\r' ∉ s.line ∧ byte '\r' ∉ s.committed
  fifo : s.taken.map Prod.snd ++ s.input.unread = s.committed
  got : s.got = s.taken.filter fun x => x.2 ≠ C 'D'
  call : ∀ c, CallOk (n c).toNat (s.killed c) (History.byCall s.taken c) (s.calls c)

section Invariant

variable {n} {s : ConsoleRun ι}

theorem inv_init (buf : Fin INPUT_BUF → UInt8) : (init buf : ConsoleRun ι).Inv n := by
  refine ⟨⟨le_rfl, by simp [init, INPUT_BUF]⟩, by simp [init, Input.line], by simp [init],
    by simp [init], by simp [init, Input.unread], rfl, fun c => rfl⟩

/-- The line discipline on lists counts the unread bytes as the ring does. -/
theorem Inv.pending_eq (hs : s.Inv n) : s.pending = s.input.unread.length := by
  have hlen := congrArg List.length hs.fifo
  rw [List.length_append, List.length_map] at hlen
  rw [pending, ← hlen]
  omega

theorem Inv.intr (hs : s.Inv n) (ch : UInt8) :
    Inv n { s with input := s.input.intr ch,
                   line := (Discipline.key s.pending s.line ch).1,
                   committed := s.committed ++ (Discipline.key s.pending s.line ch).2 } := by
  have hkey : Discipline.key s.pending s.line ch =
      Discipline.key s.input.unread.length s.input.line ch := by
    rw [hs.pending_eq, hs.line]
  have hn : byte '\n' ∉ s.input.line := hs.line ▸ hs.no_newline
  have hr : byte '\r' ∉ s.input.line := hs.line ▸ hs.no_return.1
  obtain ⟨hok, hun, hline⟩ := hs.ok.intr hn ch
  obtain ⟨hr1, hr2⟩ := Discipline.key_no_return (k := s.input.unread.length) ch hr
  refine ⟨hok, ?_, ?_, ⟨?_, ?_⟩, ?_, hs.got, hs.call⟩ <;> dsimp only <;> rw [hkey]
  · exact hline
  · exact Discipline.key_no_newline ch hn
  · exact hr1
  · simp only [List.mem_append, not_or]
    exact ⟨hs.no_return.2, hr2⟩
  · -- the bytes committed go after the unread ones
    rw [hun, ← List.append_assoc, hs.fifo]

theorem Inv.read (hs : s.Inv n) {c : ι} {m : Nat} {inp : Input} {bs : List UInt8} {e : ReadEnd}
    (hres : (s.calls c).resume (n c).toNat = some m)
    (hloop : consolereadLoop (n c).toNat (s.killed c) m s.input = (inp, bs, e)) :
    Inv n { s with input := inp, calls := Function.update s.calls c (ReadCall.after m bs e),
                   taken := s.taken ++
                     History.tag c (Ring.window s.input.buf s.input.r (inp.r - s.input.r).toNat),
                   got := s.got ++ History.tag c bs } := by
  rcases hd : Discipline.read (n c).toNat (s.killed c) m s.input.unread with ⟨t, bs', e'⟩
  rw [Input.consolereadLoop_eq hd] at hloop
  cases hloop
  -- the hold consumed `t`, the first of the unread bytes
  obtain ⟨rest, hrest⟩ := Discipline.read_prefix hd
  have htlen : t.length ≤ s.input.unread.length := by
    rw [hrest, List.length_append]
    omega
  have htake : s.input.unread.take t.length = t := by
    rw [hrest, List.take_left]
  obtain ⟨hok, hun, hline, hwin⟩ := hs.ok.advance htlen
  refine ⟨hok, hline.trans hs.line, hs.no_newline, hs.no_return, ?_, ?_, fun c' => ?_⟩
  · dsimp only
    rw [hwin, hun, List.map_append, History.map_snd_tag, List.append_assoc,
      List.take_append_drop, hs.fifo]
  · dsimp only
    rw [hwin, htake, hs.got, Discipline.read_copied hd, History.tag_filter, List.filter_append]
  · dsimp only
    by_cases hc : c' = c
    · subst hc
      rw [Function.update_self, History.byCall_append, History.byCall_tag_self, hwin, htake]
      exact (hs.call c').hold hres hd
    · rw [Function.update_of_ne hc, History.byCall_append, History.byCall_tag_of_ne hc,
        List.append_nil]
      exact hs.call c'

theorem Inv.kill (hs : s.Inv n) (c : ι) :
    Inv n { s with killed := Function.update s.killed c true } := by
  refine ⟨hs.ok, hs.line, hs.no_newline, hs.no_return, hs.fifo, hs.got, fun c' => ?_⟩
  dsimp only
  by_cases hc : c' = c
  · subst hc
    rw [Function.update_self]
    exact (hs.call c').kill
  · rw [Function.update_of_ne hc]
    exact hs.call c'

theorem Inv.step (hs : s.Inv n) {s' : ConsoleRun ι} (h : Step n s s') : s'.Inv n := by
  cases h with
  | intr ch => exact hs.intr ch
  | read c hres hloop => exact hs.read hres hloop
  | kill c => exact hs.kill c

theorem Inv.steps (hs : s.Inv n) {s' : ConsoleRun ι}
    (h : Relation.ReflTransGen (Step n) s s') : s'.Inv n := by
  induction h with
  | refl => exact hs
  | tail _ hstep ih => exact ih.step hstep

theorem inv_of_reachable (h : s.Reachable n) : s.Inv n := by
  obtain ⟨buf, hrun⟩ := h
  exact (inv_init buf).steps hrun

/-- Each call copied the bytes it consumed but `C('D')`. -/
theorem Inv.gotBy (hs : s.Inv n) (c : ι) :
    History.byCall s.got c = (History.byCall s.taken c).filter fun x => x ≠ C 'D' := by
  rw [hs.got]
  exact History.byCall_filter s.taken c fun x => x ≠ C 'D'

/-- The bytes copied to the callers, followed by the unread ones, are the committed input, all
without `C('D')`. -/
theorem Inv.copied (hs : s.Inv n) :
    s.got.map Prod.snd ++ s.input.unread.filter (fun x => x ≠ C 'D') =
      s.committed.filter fun x => x ≠ C 'D' := by
  have hmap : s.got.map Prod.snd = (s.taken.map Prod.snd).filter fun x => x ≠ C 'D' := by
    rw [hs.got, List.filter_map]
    rfl
  rw [hmap, ← List.filter_append, hs.fifo]

/-- A hold that meets a `C('D')` after plain bytes `q` ends its call there: it copies `q`, and
returns the count of bytes the call copied in all. -/
theorem Inv.read_ctrlD (hs : s.Inv n) {c : ι} {m : Nat}
    (hres : (s.calls c).resume (n c).toNat = some m) {q rest : List UInt8}
    (hq : ∀ x ∈ q, Discipline.Plain x) (hlt : q.length < m)
    (hp : s.input.unread = q ++ C 'D' :: rest) :
    ∃ inp, consolereadLoop (n c).toNat (s.killed c) m s.input =
      (inp, q, .returned (((History.byCall s.got c).length + q.length : Nat) : Int)) := by
  obtain ⟨htk, hm⟩ := (hs.call c).running hres
  obtain ⟨k, hk⟩ : ∃ k, m - q.length = k + 1 := ⟨m - q.length - 1, by omega⟩
  have hD : Discipline.read (n c).toNat (s.killed c) (m - q.length) (C 'D' :: rest) =
      (if m - q.length < (n c).toNat then [] else [C 'D'], [],
        .returned (((n c).toNat : Int) - (m - q.length : Nat))) := by
    rw [hk, Discipline.read, if_pos rfl]
  have hread := Discipline.read_append_of_plain hq hlt.le hD
  rw [← hp, List.append_nil] at hread
  -- the count is what the call copied in earlier holds, and `q`
  have hr : ((n c).toNat : Int) - (m - q.length : Nat) =
      (((History.byCall s.got c).length + q.length : Nat) : Int) := by
    rw [hs.gotBy, Discipline.filter_of_plain htk]
    omega
  exact ⟨_, (Input.consolereadLoop_eq hread).trans (by rw [hr])⟩

end Invariant

section CallEnds

variable {target : Nat} {killed : Bool} {tk : List UInt8} {call : ReadCall}

/-- A `C('D')` a call consumed is the only byte it consumed, and the call returned `0`. -/
theorem CallOk.ctrlD (hc : CallOk target killed tk call) (hD : C 'D' ∈ tk) :
    tk = [C 'D'] ∧ call = .returned 0 := by
  cases call with
  | ready =>
    rw [show tk = [] from hc] at hD
    cases hD
  | asleep m => exact absurd rfl (hc.1 _ hD).1
  | returned r =>
    obtain ⟨htk, rfl⟩ := hc.1 hD
    exact ⟨htk, rfl⟩

end CallEnds

/-- The console's line discipline, over every interleaving of input characters, read calls
and kills. In every reachable state the counters satisfy `w - r ≤ e - r ≤ INPUT_BUF`, modulo
`2 ^ 32`; the ring's line is the line as the discipline edits it; the bytes the reads consumed,
followed by the unread bytes in the ring, are the committed input, which holds no carriage
return; the bytes copied to the callers, in order, followed by the unread ones, are the
committed input, all without `C('D')`; a `C('D')` a call consumed is the only byte it consumed,
and it returned `0`; a call returns `-1` only if killed, and otherwise the number of bytes it
copied, which is `0` exactly when it asked for none or consumed a `C('D')`; and a hold that
meets a `C('D')` after plain bytes ends its call there, having copied just those. -/
theorem console_line_discipline {s : ConsoleRun ι} (h : s.Reachable n) :
    ((s.input.w - s.input.r).toNat ≤ (s.input.e - s.input.r).toNat ∧
      (s.input.e - s.input.r).toNat ≤ INPUT_BUF) ∧
    s.input.line = s.line ∧
    s.taken.map Prod.snd ++ s.input.unread = s.committed ∧
    byte '\r' ∉ s.committed ∧
    s.got.map Prod.snd ++ s.input.unread.filter (fun x => x ≠ C 'D') =
      s.committed.filter (fun x => x ≠ C 'D') ∧
    (∀ c, C 'D' ∈ History.byCall s.taken c →
      History.byCall s.taken c = [C 'D'] ∧ s.calls c = .returned 0) ∧
    (∀ c r, s.calls c = .returned r →
      (r = -1 ∧ s.killed c = true) ∨
        (r = (History.byCall s.got c).length ∧
          (r = 0 ↔ (n c).toNat = 0 ∨ History.byCall s.taken c = [C 'D']))) ∧
    (∀ c m q rest, (s.calls c).resume (n c).toNat = some m →
      (∀ x ∈ q, Discipline.Plain x) → q.length < m → s.input.unread = q ++ C 'D' :: rest →
      ∃ inp, consolereadLoop (n c).toNat (s.killed c) m s.input =
        (inp, q, .returned (((History.byCall s.got c).length + q.length : Nat) : Int))) := by
  have hs := inv_of_reachable h
  refine ⟨hs.ok, hs.line, hs.fifo, hs.no_return.2, hs.copied, fun c => CallOk.ctrlD (hs.call c),
    fun c r hr => ?_, fun c m q rest hres hq hlt hp => hs.read_ctrlD hres hq hlt hp⟩
  have hc := hs.call c
  rw [hr] at hc
  rw [hs.gotBy]
  exact hc.2

/-- The keys `h` and return, then a read of two bytes that gets the line. -/
theorem console_line_discipline_read :
    ∃ s : ConsoleRun Unit, s.Reachable (fun _ => 2) ∧
      s.got = [((), 104), ((), 10)] ∧ s.calls () = .returned 2 ∧
      (((s.input.w - s.input.r).toNat ≤ (s.input.e - s.input.r).toNat ∧
        (s.input.e - s.input.r).toNat ≤ INPUT_BUF) ∧
      s.input.line = s.line ∧
      s.taken.map Prod.snd ++ s.input.unread = s.committed ∧
      byte '\r' ∉ s.committed ∧
      s.got.map Prod.snd ++ s.input.unread.filter (fun x => x ≠ C 'D') =
        s.committed.filter (fun x => x ≠ C 'D') ∧
      (∀ c, C 'D' ∈ History.byCall s.taken c →
        History.byCall s.taken c = [C 'D'] ∧ s.calls c = .returned 0) ∧
      (∀ c r, s.calls c = .returned r →
        (r = -1 ∧ s.killed c = true) ∨
          (r = (History.byCall s.got c).length ∧
            (r = 0 ↔ ((fun _ => 2 : Unit → Int) c).toNat = 0 ∨
              History.byCall s.taken c = [C 'D']))) ∧
      (∀ c m q rest, (s.calls c).resume ((fun _ => 2 : Unit → Int) c).toNat = some m →
        (∀ x ∈ q, Discipline.Plain x) → q.length < m → s.input.unread = q ++ C 'D' :: rest →
        ∃ inp, consolereadLoop ((fun _ => 2 : Unit → Int) c).toNat (s.killed c) m s.input =
          (inp, q, .returned (((History.byCall s.got c).length + q.length : Nat) : Int)))) := by
  have hr : Reachable (ι := Unit) (fun _ => 2) _ :=
    ⟨fun _ => 0, .tail (.tail (.tail .refl (.intr 104)) (.intr 13)) (.read () rfl rfl)⟩
  exact ⟨_, hr, rfl, rfl, console_line_discipline (fun _ => 2) hr⟩

end ConsoleRun

end Xv6
