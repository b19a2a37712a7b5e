import Mathlib
import Xv6.Pipe.Buffer

/-!
# Pipes are lossless FIFOs

Processes call `pipewrite` and `piperead` on one pipe, and their holds of the pipe's lock
interleave in any order. The write calls are a family indexed by `ι`: call `c` writes the
`n c` bytes at `addr c`, over as many holds as it needs, resuming after each sleep at the byte
it had reached. Readers need no such record, since a woken reader runs as a new call. The
flag `proc->killed` of the caller is arbitrary at every hold, and the wakeups that make a
sleeper run again are left to the scheduler, so every schedule of the kernel is among the runs.

A run keeps two histories that the code does not: `stored`, every byte `pipewrite` put into
the buffer with the call that put it, and `got`, the bytes `piperead` returned, concatenated
in the order the calls returned. `PipeRun.Inv` holds in every reachable state
(`PipeRun.inv_of_reachable`): the counters are at most `PIPESIZE` apart, the bytes read
followed by the bytes in the buffer are the bytes stored, and the bytes each write call stored
are the first bytes of its buffer, in order. Once the write end is closed and the buffer
drained, the pipe stays so, and `piperead` returns `0` (`PipeRun.Drained`).
-/

namespace Xv6

/-- Where a write call stands: not begun, asleep in `pipewrite` after storing its first `i`
bytes, or returned `r` after storing them. -/
inductive WriteCall where
  | ready
  | asleep (i : Nat)
  | returned (i : Nat) (r : Int)
deriving DecidableEq, Repr

namespace WriteCall

/-- The number of bytes the call has stored. -/
def pos : WriteCall → Nat
  | ready => 0
  | asleep i => i
  | returned i _ => i

/-- The byte a call runs from when it next holds the lock; `none` once it has returned. -/
def resume : WriteCall → Option Nat
  | ready => some 0
  | asleep i => some i
  | returned _ _ => none

/-- The call after a hold of the lock that reached byte `j` and ended in `e`. -/
def after (j : Nat) : PipeEnd → WriteCall
  | .returned r => returned j r
  | .sleep => asleep j

theorem pos_of_resume {w : WriteCall} {i : Nat} (h : w.resume = some i) : w.pos = i := by
  cases w <;> simp_all [resume, pos]

@[simp] theorem pos_after (j : Nat) (e : PipeEnd) : (after j e).pos = j := by
  cases e <;> rfl

end WriteCall

/-- A pipe, the write calls on it, and the two histories. -/
structure PipeRun (ι : Type*) where
  pipe : Pipe
  calls : ι → WriteCall
  stored : List (ι × UInt8)
  got : List UInt8

namespace PipeRun

variable {ι : Type*} [DecidableEq ι] (addr : ι → Nat → UInt8) (n : ι → Int)

/-- A run starts at `pipealloc`, with no call begun. -/
def init (page : Fin PIPESIZE → UInt8) : PipeRun ι :=
  { pipe := pipealloc page, calls := fun _ => .ready, stored := [], got := [] }

/-- One hold of the pipe's lock. -/
inductive Step : PipeRun ι → PipeRun ι → Prop
  /-- Write call `c` runs `pipewrite` from the byte it had reached. A writer holds a
  reference to the write end, and `pipeclose` runs when the last one goes, so the write end
  is open. -/
  | write {s : PipeRun ι} (c : ι) (killed : Bool) {i j : Nat} {p : Pipe} {e : PipeEnd} :
      s.pipe.writeopen = true → (s.calls c).resume = some i →
      pipewrite s.pipe (addr c) (n c) killed i = (p, j, e) →
      Step s { pipe := p, calls := Function.update s.calls c (.after j e),
               stored := s.stored ++ (List.range' i (j - i)).map (fun k => (c, addr c k)),
               got := s.got }
  /-- A reader runs `piperead` for `m` bytes. -/
  | read {s : PipeRun ι} (m : Int) (killed : Bool) {p : Pipe} {bs : List UInt8} {e : PipeEnd} :
      piperead s.pipe m killed = (p, bs, e) → Step s { s with pipe := p, got := s.got ++ bs }
  /-- The last reference to one end goes; the close that frees the pipe ends the run. -/
  | close {s : PipeRun ι} (writable : Bool) {p : Pipe} :
      pipeclose s.pipe writable = some p → Step s { s with pipe := p }

/-- The states of the runs from some `pipealloc`. -/
def Reachable (s : PipeRun ι) : Prop :=
  ∃ page, Relation.ReflTransGen (Step addr n) (init page) s

/-- The bytes of call `c` among those stored, in the order they were stored. -/
def storedBy (s : PipeRun ι) (c : ι) : List UInt8 :=
  (s.stored.filter fun e => e.1 = c).map Prod.snd

/-- What holds in every reachable state. -/
structure Inv (s : PipeRun ι) : Prop where
  bound : s.pipe.count ≤ PIPESIZE
  fifo : s.got ++ s.pipe.contents = s.stored.map Prod.snd
  storedBy : ∀ c, s.storedBy c = (List.range (s.calls c).pos).map (addr c)
  pos_le : ∀ c, (s.calls c).pos ≤ (n c).toNat
  /-- A call returns `-1`, or `n` once it has stored all `n` bytes. -/
  ret : ∀ c k r, s.calls c = .returned k r → r = -1 ∨ (r = n c ∧ k = (n c).toNat)

/-! ## The histories -/

section Histories

variable {addr}

/-- The bytes a hold of call `c` stores, tagged with `c`, go to the end of its own. -/
theorem storedBy_of_stored {s s' : PipeRun ι} {c : ι} {ks : List Nat}
    (h : s'.stored = s.stored ++ ks.map fun k => (c, addr c k)) :
    s'.storedBy c = s.storedBy c ++ ks.map (addr c) := by
  have hall : (ks.map fun k => (c, addr c k)).filter (fun e => e.1 = c) =
      ks.map fun k => (c, addr c k) :=
    List.filter_eq_self.2 (by simp)
  rw [storedBy, storedBy, h, List.filter_append, hall, List.map_append, List.map_map]
  rfl

/-- … and leave those of every other call as they were. -/
theorem storedBy_of_stored_of_ne {s s' : PipeRun ι} {c c' : ι} (hc : c' ≠ c) {ks : List Nat}
    (h : s'.stored = s.stored ++ ks.map fun k => (c, addr c k)) :
    s'.storedBy c' = s.storedBy c' := by
  have hnone : (ks.map fun k => (c, addr c k)).filter (fun e => e.1 = c') = [] :=
    List.filter_eq_nil_iff.2 (by simp [Ne.symm hc])
  rw [storedBy, storedBy, h, List.filter_append, hnone, List.append_nil]

/-- The first `j` bytes of a buffer are its first `i` and the next `j - i`. -/
theorem range_append_range' (f : Nat → UInt8) {i j : Nat} (hij : i ≤ j) :
    (List.range i).map f ++ (List.range' i (j - i)).map f = (List.range j).map f := by
  have hsplit := @List.range'_append 0 i (j - i) 1
  rw [Nat.zero_add, Nat.one_mul, Nat.add_sub_cancel' hij] at hsplit
  rw [← List.map_append, List.range_eq_range', List.range_eq_range', hsplit]

end Histories

/-! ## The invariant -/

section Invariant

variable {addr n} {s : PipeRun ι}

theorem inv_init (page : Fin PIPESIZE → UInt8) : (init page : PipeRun ι).Inv addr n := by
  refine ⟨by simp [init, pipealloc, Pipe.count, PIPESIZE],
    by simp [init, pipealloc, Pipe.contents, Pipe.count], fun c => ?_,
    fun c => ?_, fun c k r hc => ?_⟩
  · simp [init, storedBy, WriteCall.pos]
  · simp [init, WriteCall.pos]
  · cases hc

theorem Inv.write (hs : s.Inv addr n) {c : ι} {killed : Bool} {i j : Nat} {p : Pipe}
    {e : PipeEnd} (hi : (s.calls c).resume = some i)
    (hw : pipewrite s.pipe (addr c) (n c) killed i = (p, j, e)) :
    Inv addr n
      { pipe := p, calls := Function.update s.calls c (.after j e),
        stored := s.stored ++ (List.range' i (j - i)).map (fun k => (c, addr c k)),
        got := s.got } := by
  have hpos := WriteCall.pos_of_resume hi
  obtain ⟨hij, hjn, hbound, hcont, -, -⟩ :=
    pipewrite_spec hs.bound (hpos ▸ hs.pos_le c) hw
  refine ⟨hbound, ?_, fun c' => ?_, fun c' => ?_, fun c' k r hc' => ?_⟩
  · -- the stored bytes go to the end of the buffer
    dsimp only
    rw [hcont, ← List.append_assoc, hs.fifo, List.map_append, List.map_map]
    rfl
  · by_cases hc : c' = c
    · subst c'
      rw [storedBy_of_stored rfl, hs.storedBy]
      dsimp only
      rw [Function.update_self, WriteCall.pos_after, hpos, range_append_range' _ hij]
    · rw [storedBy_of_stored_of_ne hc rfl, hs.storedBy]
      dsimp only
      rw [Function.update_of_ne hc]
  · dsimp only
    by_cases hc : c' = c
    · subst c'
      rw [Function.update_self, WriteCall.pos_after]
      exact hjn
    · rw [Function.update_of_ne hc]
      exact hs.pos_le c'
  · dsimp only at hc'
    by_cases hc : c' = c
    · -- the hold that returned: all `n` bytes stored, or `-1`
      subst c'
      rw [Function.update_self] at hc'
      rcases pipewrite_end hs.bound (hpos ▸ hs.pos_le c) hw with ⟨rfl, rfl⟩ | ⟨-, -, rfl⟩
      · cases hc'
        exact .inr ⟨rfl, rfl⟩
      · -- a call that stops short of `n` returns `-1` or sleeps
        split_ifs at hc'
        · cases hc'
          exact .inl rfl
        · cases hc'
    · rw [Function.update_of_ne hc] at hc'
      exact hs.ret c' k r hc'

theorem Inv.read (hs : s.Inv addr n) {m : Int} {killed : Bool} {p : Pipe} {bs : List UInt8}
    {e : PipeEnd} (hr : piperead s.pipe m killed = (p, bs, e)) :
    Inv addr n { s with pipe := p, got := s.got ++ bs } := by
  obtain ⟨hcont, -, -⟩ := piperead_spec hr
  have hlen : p.count ≤ s.pipe.count := by
    rw [← Pipe.length_contents, ← Pipe.length_contents, hcont, List.length_append]
    omega
  refine ⟨hlen.trans hs.bound, ?_, hs.storedBy, hs.pos_le, hs.ret⟩
  -- the bytes returned leave the front of the buffer
  rw [List.append_assoc, ← hcont]
  exact hs.fifo

theorem Inv.close (hs : s.Inv addr n) {writable : Bool} {p : Pipe}
    (hc : pipeclose s.pipe writable = some p) : Inv addr n { s with pipe := p } := by
  obtain ⟨hcont, hcount, -, -⟩ := pipeclose_spec hc
  refine ⟨?_, ?_, hs.storedBy, hs.pos_le, hs.ret⟩
  · rw [hcount]
    exact hs.bound
  · rw [hcont]
    exact hs.fifo

theorem Inv.step (hs : s.Inv addr n) {s' : PipeRun ι} (h : Step addr n s s') : s'.Inv addr n := by
  cases h with
  | write c killed _ hi hw => exact hs.write hi hw
  | read m killed hr => exact hs.read hr
  | close writable hc => exact hs.close hc

theorem Inv.steps (hs : s.Inv addr n) {s' : PipeRun ι}
    (h : Relation.ReflTransGen (Step addr n) s s') : s'.Inv addr n := by
  induction h with
  | refl => exact hs
  | tail _ hstep ih => exact ih.step hstep

theorem inv_of_reachable (h : s.Reachable addr n) : s.Inv addr n := by
  obtain ⟨page, hrun⟩ := h
  exact (inv_init page).steps hrun

end Invariant

/-! ## End of file -/

/-- The write end is closed and every byte in the buffer has been read. -/
def Drained (s : PipeRun ι) : Prop := s.pipe.writeopen = false ∧ s.pipe.count = 0

section Drained

variable {addr n} {s : PipeRun ι}

/-- `piperead` on a drained pipe with its write end closed returns `0` and changes nothing,
whatever the caller asks for and whether or not it is killed. -/
theorem piperead_drained {p : Pipe} (hw : p.writeopen = false) (h0 : p.count = 0) (m : Int)
    (killed : Bool) : piperead p m killed = (p, [], .returned 0) := by
  have hnil : p.contents = [] := List.eq_nil_of_length_eq_zero (by simp [h0])
  rw [piperead_of_ready (by simp [hw]), h0, Nat.min_zero, hnil, List.take_nil]
  simp only [show UInt32.ofNat 0 = 0 from rfl, UInt32.add_zero]
  rfl

theorem Drained.step (hd : s.Drained) {s' : PipeRun ι} (h : Step addr n s s') : s'.Drained := by
  obtain ⟨hw, h0⟩ := hd
  cases h with
  | write c killed hopen _ _ =>
    -- no write call runs once the write end is closed
    rw [hw] at hopen
    cases hopen
  | read m killed hr =>
    rw [piperead_drained hw h0] at hr
    obtain ⟨rfl, -, -⟩ := hr
    exact ⟨hw, h0⟩
  | close writable hc =>
    obtain ⟨-, hcount, -, hw'⟩ := pipeclose_spec hc
    refine ⟨?_, ?_⟩
    · simp [hw', hw]
    · rw [hcount, h0]

theorem Drained.steps (hd : s.Drained) {s' : PipeRun ι}
    (h : Relation.ReflTransGen (Step addr n) s s') : s'.Drained := by
  induction h with
  | refl => exact hd
  | tail _ hstep ih => exact ih.step hstep

end Drained

/-- Pipes are lossless FIFOs. In every state of every run, the counters are at most
`PIPESIZE` apart (modulo `2 ^ 32`); the bytes the calls of `piperead` returned, in order and
concatenated, followed by the bytes in the buffer, are the bytes `pipewrite` stored, in the
order they were stored; the bytes each write call stored are, in order, the first bytes of
its buffer, and a call that returned anything but `-1` returned `n` and stored all `n` of them;
and once the write end is closed and the buffer drained, every later `piperead` returns `0`. -/
theorem pipe_fifo {s : PipeRun ι} (h : s.Reachable addr n) :
    s.pipe.count ≤ PIPESIZE ∧
      s.got ++ s.pipe.contents = s.stored.map Prod.snd ∧
      (∀ c, ∃ k ≤ (n c).toNat, s.storedBy c = (List.range k).map (addr c)) ∧
      (∀ c k r, s.calls c = .returned k r →
        r = -1 ∨ (r = n c ∧ s.storedBy c = (List.range (n c).toNat).map (addr c))) ∧
      (s.pipe.writeopen = false → s.pipe.count = 0 →
        ∀ s', Relation.ReflTransGen (Step addr n) s s' →
          ∀ m killed, piperead s'.pipe m killed = (s'.pipe, [], .returned 0)) := by
  have hs := inv_of_reachable h
  refine ⟨hs.bound, hs.fifo, fun c => ⟨_, hs.pos_le c, hs.storedBy c⟩, fun c k r hc => ?_, ?_⟩
  · rcases hs.ret c k r hc with hr | ⟨hr, hk⟩
    · exact .inl hr
    · refine .inr ⟨hr, ?_⟩
      rw [hs.storedBy, hc, WriteCall.pos, hk]
  intro hw h0 s' hrun m killed
  obtain ⟨hw', h0'⟩ := Drained.steps ⟨hw, h0⟩ hrun
  exact piperead_drained hw' h0' m killed

/-- A write of two bytes that returns `2`, then a read that gets them. -/
theorem pipe_fifo_write_read :
    ∃ s : PipeRun Unit, s.Reachable (fun _ _ => 7) (fun _ => 2) ∧
      s.calls () = .returned 2 2 ∧ s.got = [7, 7] ∧
      (s.pipe.count ≤ PIPESIZE ∧
        s.got ++ s.pipe.contents = s.stored.map Prod.snd ∧
        (∀ c, ∃ k ≤ ((fun _ => 2 : Unit → Int) c).toNat,
          s.storedBy c = (List.range k).map ((fun _ _ => 7 : Unit → Nat → UInt8) c)) ∧
        (∀ c k r, s.calls c = .returned k r →
          r = -1 ∨ (r = (fun _ => 2 : Unit → Int) c ∧ s.storedBy c =
            (List.range ((fun _ => 2 : Unit → Int) c).toNat).map
              ((fun _ _ => 7 : Unit → Nat → UInt8) c))) ∧
        (s.pipe.writeopen = false → s.pipe.count = 0 →
          ∀ s', Relation.ReflTransGen (Step (fun _ _ => 7) (fun _ => 2)) s s' →
            ∀ m killed, piperead s'.pipe m killed = (s'.pipe, [], .returned 0))) := by
  have hr : Reachable (ι := Unit) (fun _ _ => 7) (fun _ => 2) _ :=
    ⟨fun _ => 0, .tail (.tail .refl (.write () false rfl rfl rfl)) (.read 2 false rfl)⟩
  exact ⟨_, hr, rfl, rfl, pipe_fifo (fun _ _ => 7) (fun _ => 2) hr⟩

end PipeRun

end Xv6
