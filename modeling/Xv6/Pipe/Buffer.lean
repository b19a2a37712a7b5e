import Xv6.Lib.Ring

/-!
# Pipes

The `struct pipe` of `pipe.c` and the operations on it. A pipe is a ring buffer of `PIPESIZE`
bytes read and written through the `uint` counters `nread` and `nwrite` (`Xv6.Lib.Ring`, with
`N = PIPESIZE`, which divides `2 ^ 32`); `Pipe.contents` is the list of its unread bytes.

`pipewrite` and `piperead` sleep on the pipe while it is full, or empty, releasing its lock;
each is modelled by what it does in one hold of the lock. `pipewrite … i` starts, or resumes
after a sleep, at byte `i` of the caller's buffer, and ends returning, or going to sleep, at the
byte it has reached. `piperead` sleeps or copies and returns; its sleep loop reads the pipe
again after every wakeup, so a woken reader runs as a new call. The wakeups both issue, and the
caller's `proc->killed`, belong to the process model: here `killed` is an argument.

The spec lemmas of the two loops are the main results: `writeLoop_spec` appends as many of the
caller's bytes as fit, and `readLoop_eq` takes as many as are asked for and there are, so that
the contents of a pipe behave as a FIFO queue of at most `PIPESIZE` bytes.
-/

namespace Xv6

/-- Size of a pipe's buffer. -/
def PIPESIZE : Nat := 512

instance : NeZero PIPESIZE := ⟨by decide⟩

theorem pipesize_dvd : PIPESIZE ∣ 2 ^ 32 := ⟨2 ^ 23, rfl⟩

structure Pipe where
  data : Fin PIPESIZE → UInt8
  /-- number of bytes read -/
  nread : UInt32
  /-- number of bytes written -/
  nwrite : UInt32
  /-- read fd is still open -/
  readopen : Bool
  /-- write fd is still open -/
  writeopen : Bool

namespace Pipe

/-- The cell `p->data[x % PIPESIZE]`, the remainder taken in `uint`. -/
def slot (x : UInt32) : Fin PIPESIZE :=
  ⟨(x % 512).toNat, by rw [UInt32.toNat_mod]; exact Nat.mod_lt _ (by decide)⟩

/-- The number of unread bytes, `nwrite - nread` in `uint`. -/
def count (p : Pipe) : Nat := (p.nwrite - p.nread).toNat

/-- The unread bytes, oldest first. -/
def contents (p : Pipe) : List UInt8 := Ring.window p.data p.nread p.count

/-- `p->data[p->nwrite++ % PIPESIZE] = b`. -/
def put (p : Pipe) (b : UInt8) : Pipe :=
  { p with data := Function.update p.data (slot p.nwrite) b, nwrite := p.nwrite + 1 }

/-- `p->nread++`, once `p->data[p->nread % PIPESIZE]` is copied out. -/
def take (p : Pipe) : Pipe := { p with nread := p.nread + 1 }

end Pipe

/-- The pipe `pipealloc` sets up in the page `kalloc` returned. -/
def pipealloc (page : Fin PIPESIZE → UInt8) : Pipe :=
  { data := page, nread := 0, nwrite := 0, readopen := true, writeopen := true }

/-- `pipeclose`: the end `writable` names is closed; `none` when both are, and the page is
freed. -/
def pipeclose (p : Pipe) (writable : Bool) : Option Pipe :=
  let p := if writable then { p with writeopen := false } else { p with readopen := false }
  if !p.readopen && !p.writeopen then none else some p

/-- The loop of `pipewrite`: it stores `addr[i]`, `addr[i+1]`, … until `k` bytes are stored or
the pipe is full, and returns the index it reached. -/
def writeLoop (addr : Nat → UInt8) : Nat → Pipe → Nat → Pipe × Nat
  | 0, p, i => (p, i)
  | k + 1, p, i =>
    if p.nwrite = p.nread + UInt32.ofNat PIPESIZE then (p, i)
    else writeLoop addr k (p.put (addr i)) (i + 1)

/-- How a hold of the pipe's lock ends: the call returns `r`, or sleeps on the pipe. -/
inductive PipeEnd where
  | returned (r : Int)
  | sleep
deriving DecidableEq, Repr

/-- `pipewrite(p, addr, n)` from byte `i` on, with the caller's `killed` flag: the pipe, the
byte reached, and how the hold ends. A full pipe makes it fail if the read end is closed or
the caller is killed, and sleep otherwise. -/
def pipewrite (p : Pipe) (addr : Nat → UInt8) (n : Int) (killed : Bool) (i : Nat) :
    Pipe × Nat × PipeEnd :=
  match writeLoop addr (n.toNat - i) p i with
  | (p', j) =>
    if (j : Int) < n then
      if !p'.readopen || killed then (p', j, .returned (-1)) else (p', j, .sleep)
    else (p', j, .returned n)

/-- The copy loop of `piperead`: up to `k` bytes, oldest first, until the pipe is empty. -/
def readLoop : Nat → Pipe → Pipe × List UInt8
  | 0, p => (p, [])
  | k + 1, p =>
    if p.nread = p.nwrite then (p, [])
    else
      match readLoop k p.take with
      | (p', bs) => (p', p.data (Pipe.slot p.nread) :: bs)

/-- `piperead(p, addr, n)` with the caller's `killed` flag: the pipe, the bytes copied to
`addr`, and how the hold ends. It sleeps while the pipe is empty and the write end open. -/
def piperead (p : Pipe) (n : Int) (killed : Bool) : Pipe × List UInt8 × PipeEnd :=
  if p.nread = p.nwrite ∧ p.writeopen then
    if killed then (p, [], .returned (-1)) else (p, [], .sleep)
  else
    match readLoop n.toNat p with
    | (p', bs) => (p', bs, .returned bs.length)

namespace Pipe

/-! ## The ring buffer -/

variable {p : Pipe}

theorem slot_eq_cell (x : UInt32) : slot x = Ring.cell PIPESIZE x := by
  ext
  simp only [slot, Ring.cell, UInt32.toNat_mod]
  rfl

@[simp] theorem length_contents (p : Pipe) : p.contents.length = p.count := by
  simp [contents]

theorem count_lt_size (h : p.count ≤ PIPESIZE) : p.count < 2 ^ 32 :=
  lt_of_le_of_lt h (by decide)

/-- `pipewrite`'s test for a full pipe. -/
theorem full_iff : p.nwrite = p.nread + UInt32.ofNat PIPESIZE ↔ p.count = PIPESIZE :=
  Ring.eq_add_iff (by decide)

/-- `piperead`'s test for an empty pipe. -/
theorem empty_iff : p.nread = p.nwrite ↔ p.count = 0 := by
  rw [count, ← Ring.eq_add_iff (by decide), show UInt32.ofNat 0 = 0 from rfl, UInt32.add_zero,
    eq_comm]

@[simp] theorem put_nread (b : UInt8) : (p.put b).nread = p.nread := rfl
@[simp] theorem put_readopen (b : UInt8) : (p.put b).readopen = p.readopen := rfl
@[simp] theorem put_writeopen (b : UInt8) : (p.put b).writeopen = p.writeopen := rfl

theorem count_put (h : p.count < PIPESIZE) (b : UInt8) : (p.put b).count = p.count + 1 :=
  Ring.toNat_add_one_sub (lt_of_lt_of_le (Nat.succ_lt_succ h) (by decide))

/-- A byte put into a pipe with room goes to the end of its contents. -/
theorem contents_put (h : p.count < PIPESIZE) (b : UInt8) :
    (p.put b).contents = p.contents ++ [b] := by
  have hslot : slot p.nwrite = Ring.cell PIPESIZE (p.nread + UInt32.ofNat p.count) := by
    rw [slot_eq_cell, count, Ring.add_ofNat_toNat_sub]
  rw [contents, count_put h, put_nread, put, hslot]
  exact Ring.window_put pipesize_dvd h b

/-- Advancing `nread` by `m` of the unread bytes drops them. -/
theorem contents_advance {m : Nat} (hm : m ≤ p.count) :
    { p with nread := p.nread + UInt32.ofNat m }.contents = p.contents.drop m := by
  rw [contents, contents, Ring.window_drop _ _ hm]
  simp only [count]
  rw [Ring.toNat_sub_add_ofNat hm]

theorem count_advance {m : Nat} (hm : m ≤ p.count) :
    { p with nread := p.nread + UInt32.ofNat m }.count = p.count - m :=
  Ring.toNat_sub_add_ofNat hm

/-- The byte at `nread` heads the contents of a pipe that is not empty. -/
theorem contents_eq_cons (h : p.count ≠ 0) :
    p.contents = p.data (slot p.nread) :: p.take.contents := by
  have hdrop := contents_advance (m := 1) (Nat.one_le_iff_ne_zero.2 h)
  rw [UInt32.ofNat_one] at hdrop
  rw [take, hdrop, contents, slot_eq_cell]
  obtain ⟨k, hk⟩ := Nat.exists_eq_add_of_le' (Nat.one_le_iff_ne_zero.2 h)
  rw [hk, Nat.add_comm k 1, Ring.window_add, Ring.window_one]
  simp

end Pipe

/-- `pipeclose` clears the flag of the end it closes and keeps the bytes. -/
theorem pipeclose_spec {p p' : Pipe} {writable : Bool} (h : pipeclose p writable = some p') :
    p'.contents = p.contents ∧ p'.count = p.count ∧
      p'.readopen = (p.readopen && writable) ∧ p'.writeopen = (p.writeopen && !writable) := by
  cases writable <;> simp only [pipeclose, Bool.false_eq_true, ↓reduceIte] at h <;>
    split_ifs at h <;> cases h <;> simp [Pipe.contents, Pipe.count]

/-! ## The loops -/

section Loops

variable {addr : Nat → UInt8}

/-- What `pipewrite`'s loop does in one hold of the lock: it appends the caller's next bytes,
as many as it was asked for or as fit, and touches neither end's flag. -/
theorem writeLoop_spec {k : Nat} {p p' : Pipe} {i j : Nat} (hv : p.count ≤ PIPESIZE)
    (h : writeLoop addr k p i = (p', j)) :
    j = i + min k (PIPESIZE - p.count) ∧
      p'.contents = p.contents ++ (List.range' i (j - i)).map addr ∧
      p'.readopen = p.readopen ∧ p'.writeopen = p.writeopen := by
  induction k generalizing p i with
  | zero =>
    cases h
    simp
  | succ k ih =>
    rw [writeLoop] at h
    split_ifs at h with hfull
    · -- full: nothing is stored
      cases h
      rw [Pipe.full_iff.1 hfull]
      simp
    · have hlt : p.count < PIPESIZE := lt_of_le_of_ne hv (mt Pipe.full_iff.2 hfull)
      have hv' : (p.put (addr i)).count ≤ PIPESIZE := by rw [Pipe.count_put hlt]; exact hlt
      obtain ⟨hj, hc, hr, hw⟩ := ih hv' h
      rw [Pipe.count_put hlt] at hj
      have hm : min (k + 1) (PIPESIZE - p.count) = min k (PIPESIZE - (p.count + 1)) + 1 := by
        omega
      refine ⟨by omega, ?_, by simpa using hr, by simpa using hw⟩
      -- the byte of this round, then those of the rest of the loop
      rw [hc, Pipe.contents_put hlt, List.append_assoc, show j - i = j - (i + 1) + 1 by omega,
        List.range'_succ]
      rfl

/-- `piperead`'s loop takes the first `k` bytes, or all if there are fewer, and advances
`nread` past them. -/
theorem readLoop_eq (k : Nat) (p : Pipe) :
    readLoop k p =
      ({ p with nread := p.nread + UInt32.ofNat (min k p.count) }, p.contents.take k) := by
  induction k generalizing p with
  | zero => simp [readLoop]
  | succ k ih =>
    rw [readLoop]
    split_ifs with hempty
    · -- empty: nothing to take
      have h0 := Pipe.empty_iff.1 hempty
      have hnil : p.contents = [] := List.eq_nil_of_length_eq_zero (by simp [h0])
      simp [h0, hnil]
    · have h0 : p.count ≠ 0 := mt Pipe.empty_iff.2 hempty
      have hcount : p.take.count = p.count - 1 := by
        have := Pipe.count_advance (p := p) (m := 1) (Nat.one_le_iff_ne_zero.2 h0)
        rwa [UInt32.ofNat_one] at this
      rw [ih, Pipe.contents_eq_cons h0, List.take_succ_cons]
      have hm : min (k + 1) p.count = min k p.take.count + 1 := by omega
      simp only [Pipe.take, hm, UInt32.ofNat_add, UInt32.ofNat_one]
      rw [UInt32.add_assoc, UInt32.add_comm 1]

/-! ## The calls -/

/-- `pipewrite` leaves the pipe, and reaches the byte, that its loop does. -/
theorem pipewrite_loop (p : Pipe) (addr : Nat → UInt8) (n : Int) (killed : Bool) (i : Nat) :
    ((pipewrite p addr n killed i).1, (pipewrite p addr n killed i).2.1) =
      writeLoop addr (n.toNat - i) p i := by
  rcases hw : writeLoop addr (n.toNat - i) p i with ⟨q, k⟩
  simp only [pipewrite, hw]
  split_ifs <;> rfl

variable {p p' : Pipe} {n : Int} {killed : Bool} {i j : Nat}

/-- One hold of the lock in `pipewrite`, from byte `i` of its `n`: it stores the bytes from
`i` up to the one it reaches, at the end of the pipe's contents. -/
theorem pipewrite_spec {e : PipeEnd} (hv : p.count ≤ PIPESIZE) (hi : i ≤ n.toNat)
    (h : pipewrite p addr n killed i = (p', j, e)) :
    i ≤ j ∧ j ≤ n.toNat ∧ p'.count ≤ PIPESIZE ∧
      p'.contents = p.contents ++ (List.range' i (j - i)).map addr ∧
      p'.readopen = p.readopen ∧ p'.writeopen = p.writeopen := by
  have hloop := pipewrite_loop p addr n killed i
  rw [h] at hloop
  dsimp only at hloop
  obtain ⟨hj, hc, hr, hw⟩ := writeLoop_spec hv hloop.symm
  have hcount : p'.count = p.count + (j - i) := by
    rw [← Pipe.length_contents, hc, List.length_append, List.length_map, List.length_range',
      Pipe.length_contents]
  have hmin := min_le_left (n.toNat - i) (PIPESIZE - p.count)
  have hmin' := min_le_right (n.toNat - i) (PIPESIZE - p.count)
  generalize n.toNat = m at hi hj hmin hmin' ⊢
  exact ⟨by omega, by omega, by omega, hc, hr, hw⟩

/-- How the hold ends: `pipewrite` returns `n` once all its bytes are stored; short of that
the pipe is full, and it fails if the read end is closed or the caller killed, and sleeps
otherwise. -/
theorem pipewrite_end {e : PipeEnd} (hv : p.count ≤ PIPESIZE) (hi : i ≤ n.toNat)
    (h : pipewrite p addr n killed i = (p', j, e)) :
    (j = n.toNat ∧ e = .returned n) ∨
      (j < n.toNat ∧ p'.count = PIPESIZE ∧
        e = if !p.readopen || killed then .returned (-1) else .sleep) := by
  rcases hw : writeLoop addr (n.toNat - i) p i with ⟨q, k⟩
  obtain ⟨hk, hc, hr, -⟩ := writeLoop_spec hv hw
  have hcount : q.count = p.count + (k - i) := by
    rw [← Pipe.length_contents, hc, List.length_append, List.length_map, List.length_range',
      Pipe.length_contents]
  have hmin := min_le_left (n.toNat - i) (PIPESIZE - p.count)
  simp only [pipewrite, hw, hr] at h
  split_ifs at h with hlt hko
  · -- stopped short of `n`: the loop met a full pipe
    obtain ⟨rfl, rfl, rfl⟩ := h
    exact .inr ⟨by omega, by omega, by rw [if_pos hko]⟩
  · obtain ⟨rfl, rfl, rfl⟩ := h
    exact .inr ⟨by omega, by omega, by rw [if_neg hko]⟩
  · obtain ⟨rfl, rfl, rfl⟩ := h
    exact .inl ⟨by omega, rfl⟩

/-- `piperead` on an empty pipe whose write end is open: it sleeps, or fails if the caller is
killed. -/
theorem piperead_of_wait (hw : p.count = 0 ∧ p.writeopen = true) :
    piperead p n killed = (p, [], if killed then .returned (-1) else .sleep) := by
  rw [piperead, if_pos ⟨Pipe.empty_iff.2 hw.1, hw.2⟩]
  split_ifs <;> rfl

/-- `piperead` on a pipe with bytes, or whose write end is closed: it copies out and returns
as many bytes as were asked for and there are. -/
theorem piperead_of_ready (hr : ¬(p.count = 0 ∧ p.writeopen = true)) :
    piperead p n killed =
      ({ p with nread := p.nread + UInt32.ofNat (min n.toNat p.count) },
        p.contents.take n.toNat, .returned ((min n.toNat p.count : Nat) : Int)) := by
  have hnot : ¬(p.nread = p.nwrite ∧ p.writeopen = true) := fun h =>
    hr ⟨Pipe.empty_iff.1 h.1, h.2⟩
  simp only [piperead, if_neg hnot, readLoop_eq, List.length_take, Pipe.length_contents]

/-- One hold of the lock in `piperead` takes the bytes it returns from the front of the
pipe's contents, and touches neither end's flag. -/
theorem piperead_spec {bs : List UInt8} {e : PipeEnd}
    (h : piperead p n killed = (p', bs, e)) :
    p.contents = bs ++ p'.contents ∧ p'.readopen = p.readopen ∧ p'.writeopen = p.writeopen := by
  by_cases hw : p.count = 0 ∧ p.writeopen = true
  · rw [piperead_of_wait hw] at h
    obtain ⟨rfl, rfl, -⟩ := h
    exact ⟨rfl, rfl, rfl⟩
  · rw [piperead_of_ready hw] at h
    obtain ⟨rfl, rfl, -⟩ := h
    refine ⟨?_, rfl, rfl⟩
    rw [Pipe.contents_advance (min_le_right _ _)]
    -- the bytes taken are the first `min n count` ones, all that `take n` gives
    rcases le_total n.toNat p.count with hle | hle
    · rw [min_eq_left hle, List.take_append_drop]
    · rw [min_eq_right hle, List.take_of_length_le (by simpa using hle),
        List.drop_of_length_le (by simp), List.append_nil]

end Loops

end Xv6
