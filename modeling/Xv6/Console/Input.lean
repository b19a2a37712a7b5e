import Mathlib
import Xv6.Lib.Ring

/-!
# The console's input ring

`consoleintr` takes the characters of the keyboard and the serial line into the ring `input`
of `INPUT_BUF` bytes, indexed by three `uint` counters: `r`, the next byte to read, `w`, the end
of the committed input, and `e`, the end of the line being edited. Backspace and kill-line
edit the line; a newline, a `C('D')` or a full buffer commits it; `consoleread` takes committed
bytes, ends at a newline or a `C('D')`, and sleeps while there is nothing committed.

The buffer between the counters is two `Ring.window`s, the unread committed bytes
(`Input.unread`) and the line (`Input.line`); `INPUT_BUF` divides `2 ^ 32`, so the cells stay
right across the wrap of the counters. `Discipline` is the same line discipline on lists, with
no ring and no counters: `Input.Ok.intr` and `Input.consolereadLoop_eq` say that the ring
implements it.
-/

namespace Xv6

/-- Size of the console's input ring. -/
def INPUT_BUF : Nat := 128

instance : NeZero INPUT_BUF := ⟨by decide⟩

theorem input_buf_dvd : INPUT_BUF ∣ 2 ^ 32 := ⟨2 ^ 25, rfl⟩

/-- `C(x)`: control-`x`. -/
def C (x : Char) : UInt8 := UInt8.ofNat (x.toNat - '@'.toNat)

/-- The byte of a character. -/
def byte (x : Char) : UInt8 := UInt8.ofNat x.toNat

/-- The `input` struct of `console.c`. -/
structure Input where
  buf : Fin INPUT_BUF → UInt8
  /-- Read index -/
  r : UInt32
  /-- Write index -/
  w : UInt32
  /-- Edit index -/
  e : UInt32

namespace Input

/-- The cell `input.buf[x % INPUT_BUF]`. -/
def slot (x : UInt32) : Fin INPUT_BUF := Ring.cell INPUT_BUF x

/-- The committed bytes not read yet. -/
def unread (inp : Input) : List UInt8 := Ring.window inp.buf inp.r (inp.w - inp.r).toNat

/-- The line being edited. -/
def line (inp : Input) : List UInt8 := Ring.window inp.buf inp.w (inp.e - inp.w).toNat

/-- The loop of kill-line, for `k` turns at most: erase back to a newline or to `w`. -/
def killLoop : Nat → Input → Input
  | 0, inp => inp
  | k + 1, inp =>
    if inp.e ≠ inp.w ∧ inp.buf (slot (inp.e - 1)) ≠ byte '\n' then
      killLoop k { inp with e := inp.e - 1 }
    else inp

/-- Kill-line (`C('U')`): each turn moves `e` one back towards `w`, so `e - w` turns do. -/
def killLine (inp : Input) : Input := killLoop (inp.e - inp.w).toNat inp

/-- `input.buf[input.e++ % INPUT_BUF] = c`. -/
def put (inp : Input) (c : UInt8) : Input :=
  { inp with buf := Function.update inp.buf (slot inp.e) c, e := inp.e + 1 }

/-- `input.w = input.e`: the line is committed. -/
def commit (inp : Input) : Input := { inp with w := inp.e }

/-- One character `c` of `consoleintr`'s loop. -/
def intr (inp : Input) (c : UInt8) : Input :=
  if c = C 'P' then inp
  else if c = C 'U' then inp.killLine
  else if c = C 'H' ∨ c = byte '\x7f' then
    if inp.e ≠ inp.w then { inp with e := inp.e - 1 } else inp
  else if c ≠ 0 ∧ (inp.e - inp.r).toNat < INPUT_BUF then
    let c := if c = byte '\r' then byte '\n' else c
    let inp := inp.put c
    if c = byte '\n' ∨ c = C 'D' ∨ inp.e = inp.r + UInt32.ofNat INPUT_BUF then inp.commit
    else inp
  else inp

/-! ## The two windows -/

/-- The counters in order `r, w, e`, at most `INPUT_BUF` apart. -/
def Ok (inp : Input) : Prop :=
  (inp.w - inp.r).toNat ≤ (inp.e - inp.r).toNat ∧ (inp.e - inp.r).toNat ≤ INPUT_BUF

variable {inp : Input}

@[simp] theorem length_unread (inp : Input) : inp.unread.length = (inp.w - inp.r).toNat :=
  Ring.length_window _ _ _

@[simp] theorem length_line (inp : Input) : inp.line.length = (inp.e - inp.w).toNat :=
  Ring.length_window _ _ _

/-- The bytes from `r` to `e` are the unread ones, then the line. -/
theorem Ok.window_all (h : inp.Ok) :
    Ring.window inp.buf inp.r (inp.e - inp.r).toNat = inp.unread ++ inp.line := by
  have hL := Ring.toNat_sub_of_le h.1
  have h1 := h.1
  rw [show (inp.e - inp.r).toNat = (inp.w - inp.r).toNat + (inp.e - inp.w).toNat by omega,
    Ring.window_add, Ring.add_ofNat_toNat_sub]
  rfl

/-- The cell of `e` is the one after the line, and after the unread bytes and the line. -/
theorem slot_e_line (inp : Input) :
    slot inp.e = Ring.cell INPUT_BUF (inp.w + UInt32.ofNat (inp.e - inp.w).toNat) := by
  rw [Ring.add_ofNat_toNat_sub]
  rfl

theorem slot_e_all (inp : Input) :
    slot inp.e = Ring.cell INPUT_BUF (inp.r + UInt32.ofNat (inp.e - inp.r).toNat) := by
  rw [Ring.add_ofNat_toNat_sub]
  rfl

/-- Moving `e` back over the last byte of a line that has one drops it. -/
theorem Ok.back (h : inp.Ok) (hne : inp.e ≠ inp.w) :
    ({ inp with e := inp.e - 1 } : Input).Ok ∧ ({ inp with e := inp.e - 1 } : Input).unread = inp.unread ∧
      ({ inp with e := inp.e - 1 } : Input).line = inp.line.dropLast := by
  obtain ⟨h1, h2⟩ := h
  have hlt : (inp.w - inp.r).toNat < (inp.e - inp.r).toNat :=
    lt_of_le_of_ne h1 fun h' => hne (Ring.eq_of_toNat_sub_eq h').symm
  have he := Ring.toNat_sub_one_sub (w := inp.e) (r := inp.r) (by omega)
  have hL := Ring.toNat_sub_of_le h1
  have hL' : (inp.e - 1 - inp.w).toNat = (inp.e - inp.w).toNat - 1 :=
    Ring.toNat_sub_one_sub (by omega)
  refine ⟨⟨by simp only; omega, by simp only; omega⟩, rfl, ?_⟩
  simp only [line]
  rw [hL', Ring.window_dropLast]

/-- The last byte of a line that has one is the one before `e`. -/
theorem mem_line_pred (hne : inp.e ≠ inp.w) : inp.buf (slot (inp.e - 1)) ∈ inp.line := by
  have hpos := Ring.toNat_sub_pos (Ne.symm hne)
  refine List.mem_map.2 ⟨(inp.e - inp.w).toNat - 1, List.mem_range.2 (by omega), ?_⟩
  rw [Ring.add_ofNat_pred hpos]
  rfl

theorem eq_with_e (he : inp.e = inp.w) : inp = { inp with e := inp.w } := by
  obtain ⟨buf, r, w, e⟩ := inp
  dsimp only at he
  subst he
  rfl

/-- Kill-line on a line without a newline erases all of it: the loop runs to `w`. -/
theorem killLoop_of_no_newline (k : Nat) (inp : Input) (h : inp.Ok)
    (hn : byte '\n' ∉ inp.line) (hk : (inp.e - inp.w).toNat ≤ k) :
    killLoop k inp = { inp with e := inp.w } := by
  induction k generalizing inp with
  | zero =>
    have he : inp.e = inp.w := Ring.eq_of_toNat_sub_eq (r := inp.w) (by simp; omega)
    exact eq_with_e he
  | succ k ih =>
    by_cases hew : inp.e = inp.w
    · rw [killLoop, if_neg (fun h' => h'.1 hew)]
      exact eq_with_e hew
    · -- the last byte of the line is not a newline: erase it and go on
      have hlast : inp.buf (slot (inp.e - 1)) ≠ byte '\n' := fun h' =>
        hn (h' ▸ mem_line_pred hew)
      obtain ⟨hok, -, hline⟩ := h.back hew
      rw [killLoop, if_pos ⟨hew, hlast⟩]
      refine ih _ hok (by rw [hline]; exact fun h' => hn ((List.dropLast_sublist _).subset h')) ?_
      rw [show ({ inp with e := inp.e - 1 } : Input).e - ({ inp with e := inp.e - 1 } : Input).w =
        inp.e - 1 - inp.w from rfl, Ring.toNat_sub_one_sub]
      · omega
      · exact Ring.toNat_sub_pos (Ne.symm hew)

/-- A byte put into a buffer with room goes after the line; the unread bytes keep. -/
theorem Ok.put (h : inp.Ok) (hroom : (inp.e - inp.r).toNat < INPUT_BUF) (c : UInt8) :
    (inp.put c).Ok ∧ (inp.put c).unread = inp.unread ∧ (inp.put c).line = inp.line ++ [c] ∧
      ((inp.put c).e - (inp.put c).r).toNat = (inp.e - inp.r).toNat + 1 := by
  obtain ⟨h1, h2⟩ := h
  have hE : (inp.e + 1 - inp.r).toNat = (inp.e - inp.r).toNat + 1 :=
    Ring.toNat_add_one_sub (by unfold INPUT_BUF at hroom; omega)
  have hL := Ring.toNat_sub_of_le h1
  have hL' : (inp.e + 1 - inp.w).toNat = (inp.e - inp.w).toNat + 1 :=
    Ring.toNat_add_one_sub (by unfold INPUT_BUF at hroom; omega)
  refine ⟨⟨by simp only [Input.put]; omega, by simp only [Input.put]; omega⟩, ?_, ?_, hE⟩
  · simp only [unread, Input.put]
    rw [slot_e_all]
    exact Ring.window_update_of_le input_buf_dvd h1 hroom c
  · simp only [line, Input.put]
    rw [hL', slot_e_line]
    exact Ring.window_put input_buf_dvd (by omega) c

/-- Committing moves the line to the end of the unread bytes. -/
theorem Ok.commit (h : inp.Ok) :
    inp.commit.Ok ∧ inp.commit.unread = inp.unread ++ inp.line ∧ inp.commit.line = [] := by
  refine ⟨⟨le_rfl, h.2⟩, h.window_all, ?_⟩
  simp [line, Input.commit]

end Input

/-- How a hold of `cons.lock` by `consoleread` ends: the call returns `r`, or sleeps. -/
inductive ReadEnd where
  | returned (r : Int)
  | sleep
deriving DecidableEq, Repr

/-- `consoleread`'s loop in one hold of `cons.lock`, `n` bytes still to copy of the `target`
asked for, with the caller's `killed` flag: the input, the bytes copied to `dst`, and how the
hold ends. -/
def consolereadLoop (target : Nat) (killed : Bool) : Nat → Input → Input × List UInt8 × ReadEnd
  | 0, inp => (inp, [], .returned target)
  | n + 1, inp =>
    if inp.r = inp.w then (inp, [], if killed then .returned (-1) else .sleep)
    else
      let c := inp.buf (Input.slot inp.r)
      let inp := { inp with r := inp.r + 1 }
      if c = C 'D' then
        -- save `C('D')` for the next call, unless it is the first byte of this one
        (if n + 1 < target then { inp with r := inp.r - 1 } else inp, [],
          .returned ((target : Int) - (n + 1 : Nat)))
      else if c = byte '\n' then (inp, [c], .returned ((target : Int) - n))
      else
        match consolereadLoop target killed n inp with
        | (inp', bs, e) => (inp', c :: bs, e)

/-! ## The line discipline on lists -/

namespace Discipline

/-- A character as it goes into the line: a carriage return becomes a newline. -/
def mapCr (c : UInt8) : UInt8 := if c = byte '\r' then byte '\n' else c

theorem mapCr_ne_return (c : UInt8) : mapCr c ≠ byte '\r' := by
  unfold mapCr
  split_ifs with hr
  · decide
  · exact hr

/-- What one character `c` does to the `line` being edited, while `k` committed bytes wait to
be read: the new line, and the bytes it commits. -/
def key (k : Nat) (line : List UInt8) (c : UInt8) : List UInt8 × List UInt8 :=
  if c = C 'P' then (line, [])
  else if c = C 'U' then ([], [])
  else if c = C 'H' ∨ c = byte '\x7f' then (line.dropLast, [])
  else if c ≠ 0 ∧ k + line.length < INPUT_BUF then
    if mapCr c = byte '\n' ∨ mapCr c = C 'D' ∨ k + line.length + 1 = INPUT_BUF then
      ([], line ++ [mapCr c])
    else (line ++ [mapCr c], [])
  else (line, [])

/-- What one hold of `consoleread` does with the committed bytes `p` not read yet, `n` bytes
still to copy of the `target`: the bytes it consumes, the bytes it copies and how it ends. -/
def read (target : Nat) (killed : Bool) : Nat → List UInt8 → List UInt8 × List UInt8 × ReadEnd
  | 0, _ => ([], [], .returned target)
  | _ + 1, [] => ([], [], if killed then .returned (-1) else .sleep)
  | n + 1, c :: p =>
    if c = C 'D' then
      (if n + 1 < target then [] else [c], [], .returned ((target : Int) - (n + 1 : Nat)))
    else if c = byte '\n' then ([c], [c], .returned ((target : Int) - n))
    else
      match read target killed n p with
      | (t, bs, e) => (c :: t, c :: bs, e)

section Key

variable {k : Nat} {line : List UInt8}

/-- The line never holds a newline: typing one commits the line. -/
theorem key_no_newline (c : UInt8) (h : byte '\n' ∉ line) : byte '\n' ∉ (key k line c).1 := by
  unfold key
  split_ifs with hP hU hH hroom hcommit
  · exact h
  · simp
  · exact fun h' => h ((List.dropLast_sublist _).subset h')
  · simp
  · -- the byte put is no newline, or it would have committed the line
    simp only [List.mem_append, List.mem_singleton, not_or]
    exact ⟨h, fun h' => hcommit (.inl h'.symm)⟩
  · exact h

/-- A carriage return is never kept: it goes in as a newline. -/
theorem key_no_return (c : UInt8) (h : byte '\r' ∉ line) :
    byte '\r' ∉ (key k line c).1 ∧ byte '\r' ∉ (key k line c).2 := by
  have hput : byte '\r' ∉ line ++ [mapCr c] := by
    simp only [List.mem_append, List.mem_singleton, not_or]
    exact ⟨h, (mapCr_ne_return c).symm⟩
  unfold key
  split_ifs
  · exact ⟨h, List.not_mem_nil⟩
  · exact ⟨List.not_mem_nil, List.not_mem_nil⟩
  · exact ⟨fun h' => h ((List.dropLast_sublist _).subset h'), List.not_mem_nil⟩
  · exact ⟨List.not_mem_nil, hput⟩
  · exact ⟨hput, List.not_mem_nil⟩
  · exact ⟨h, List.not_mem_nil⟩

end Key

/-- A byte that neither ends a read nor is a newline. -/
def Plain (c : UInt8) : Prop := c ≠ C 'D' ∧ c ≠ byte '\n'

section Read

variable {target : Nat} {killed : Bool} {n : Nat} {p t bs : List UInt8} {e : ReadEnd}

/-- A plain byte is copied and the hold goes on. -/
theorem read_cons {c : UInt8} (hc : Plain c) (h : read target killed n p = (t, bs, e)) :
    read target killed (n + 1) (c :: p) = (c :: t, c :: bs, e) := by
  rw [read, if_neg hc.1, if_neg hc.2, h]

/-- A run of plain bytes is copied as it is. -/
theorem read_append_of_plain {q : List UInt8} (hq : ∀ c ∈ q, Plain c) (hn : q.length ≤ n)
    (h : read target killed (n - q.length) p = (t, bs, e)) :
    read target killed n (q ++ p) = (q ++ t, q ++ bs, e) := by
  induction q generalizing n with
  | nil => simpa using h
  | cons c q ih =>
    obtain ⟨n, rfl⟩ : ∃ n', n = n' + 1 := ⟨n - 1, by simp at hn; omega⟩
    have h' : read target killed (n - q.length) p = (t, bs, e) := by
      simpa using h
    exact read_cons (hq c (by simp)) (ih (fun c' hc' => hq c' (by simp [hc'])) (by simp at hn; omega) h')

/-- The four ways a hold ends. It copies a run `q` of plain bytes, and then has copied all it
was asked for, or has taken every committed byte (and sleeps, or returns `-1` if killed), or
meets a `C('D')`, which it consumes only as the call's first byte, or copies a newline. -/
theorem read_cases (h : read target killed n p = (t, bs, e)) :
    ∃ q, (∀ c ∈ q, Plain c) ∧
      ((q.length = n ∧ q <+: p ∧ t = q ∧ bs = q ∧ e = .returned target) ∨
       (q.length < n ∧ p = q ∧ t = q ∧ bs = q ∧ e = if killed then .returned (-1) else .sleep) ∨
       (∃ rest, q.length < n ∧ p = q ++ C 'D' :: rest ∧
          t = (if n - q.length < target then q else q ++ [C 'D']) ∧ bs = q ∧
          e = .returned ((target : Int) - (n - q.length : Nat))) ∨
       (∃ rest, q.length < n ∧ p = q ++ byte '\n' :: rest ∧ t = q ++ [byte '\n'] ∧
          bs = q ++ [byte '\n'] ∧ e = .returned ((target : Int) - (n - q.length - 1 : Nat)))) := by
  induction n generalizing p t bs e with
  | zero =>
    rw [read] at h
    cases h
    exact ⟨[], by simp, .inl ⟨rfl, List.nil_prefix, rfl, rfl, rfl⟩⟩
  | succ n ih =>
    cases p with
    | nil =>
      rw [read] at h
      cases h
      exact ⟨[], by simp, .inr (.inl ⟨by simp, rfl, rfl, rfl, rfl⟩)⟩
    | cons c p =>
      by_cases hD : c = C 'D'
      · rw [read, if_pos hD] at h
        cases h
        subst hD
        exact ⟨[], by simp, .inr (.inr (.inl ⟨p, by simp, rfl, by simp, rfl, by simp⟩))⟩
      by_cases hnl : c = byte '\n'
      · rw [read, if_neg hD, if_pos hnl] at h
        cases h
        exact ⟨[], by simp, .inr (.inr (.inr ⟨p, by simp, by simp [hnl], by simp [hnl],
          by simp [hnl], by simp⟩))⟩
      -- a plain byte: the rest of the hold is the hold on the rest
      rcases hrec : read target killed n p with ⟨t', bs', e'⟩
      rw [read_cons ⟨hD, hnl⟩ hrec] at h
      cases h
      obtain ⟨q, hq, hcase⟩ := ih hrec
      have hq' : ∀ c' ∈ c :: q, Plain c' := by
        simpa using ⟨⟨hD, hnl⟩, hq⟩
      refine ⟨c :: q, hq', ?_⟩
      rcases hcase with ⟨hlen, hpre, rfl, rfl, rfl⟩ | ⟨hlen, rfl, rfl, rfl, rfl⟩ |
          ⟨rest, hlen, rfl, rfl, rfl, rfl⟩ | ⟨rest, hlen, rfl, rfl, rfl, rfl⟩
      · exact .inl ⟨by simp [hlen], List.cons_prefix_cons.2 ⟨rfl, hpre⟩, rfl, rfl, rfl⟩
      · exact .inr (.inl ⟨by simp [hlen], rfl, rfl, rfl, rfl⟩)
      · refine .inr (.inr (.inl ⟨rest, by simp [hlen], rfl, ?_, rfl, by simp⟩))
        simp only [List.length_cons, Nat.add_sub_add_right]
        split_ifs <;> rfl
      · exact .inr (.inr (.inr ⟨rest, by simp [hlen], rfl, rfl, rfl, by simp⟩))

/-- Plain bytes are all copied. -/
theorem filter_of_plain {q : List UInt8} (hq : ∀ c ∈ q, Plain c) :
    q.filter (fun c => c ≠ C 'D') = q :=
  List.filter_eq_self.2 fun c hc => by simpa using (hq c hc).1

/-- A hold consumes the first bytes of what is committed … -/
theorem read_prefix (h : read target killed n p = (t, bs, e)) : ∃ rest, p = t ++ rest := by
  obtain ⟨q, -, hcase⟩ := read_cases h
  rcases hcase with ⟨-, ⟨rest, hrest⟩, rfl, -, -⟩ | ⟨-, rfl, rfl, -, -⟩ |
      ⟨rest, -, rfl, rfl, -, -⟩ | ⟨rest, -, rfl, rfl, -, -⟩
  · exact ⟨rest, hrest.symm⟩
  · exact ⟨[], (List.append_nil _).symm⟩
  · split_ifs
    · exact ⟨C 'D' :: rest, rfl⟩
    · exact ⟨rest, by simp⟩
  · exact ⟨rest, by simp⟩

/-- … and copies every byte it consumes but `C('D')`. -/
theorem read_copied (h : read target killed n p = (t, bs, e)) :
    bs = t.filter fun c => c ≠ C 'D' := by
  obtain ⟨q, hq, hcase⟩ := read_cases h
  have hnl : byte '\n' ≠ C 'D' := by decide
  rcases hcase with ⟨-, -, rfl, rfl, -⟩ | ⟨-, -, rfl, rfl, -⟩ |
      ⟨rest, -, -, rfl, rfl, -⟩ | ⟨rest, -, -, rfl, rfl, -⟩
  · exact (filter_of_plain hq).symm
  · exact (filter_of_plain hq).symm
  · split_ifs
    · exact (filter_of_plain hq).symm
    · rw [List.filter_append, filter_of_plain hq]
      simp
  · rw [List.filter_append, filter_of_plain hq]
    simp [hnl]

end Read

end Discipline

/-! ## The ring implements the line discipline -/

namespace Input

variable {inp : Input}

theorem unread_eq_nil (h : inp.r = inp.w) : inp.unread = [] := by
  simp [unread, h]

/-- The first unread byte is the one at `r`. -/
theorem unread_cons (hne : inp.r ≠ inp.w) :
    inp.unread = inp.buf (slot inp.r) :: ({ inp with r := inp.r + 1 } : Input).unread := by
  have hpos := Ring.toNat_sub_pos hne
  rw [unread, show (inp.w - inp.r).toNat = ((inp.w - inp.r).toNat - 1) + 1 by omega,
    Ring.window_succ, unread, ← Ring.toNat_sub_add_one hpos]
  rfl

/-- Moving `r` over `k` unread bytes takes them off the front of the unread ones; the line
stays. -/
theorem Ok.advance (h : inp.Ok) {k : Nat} (hk : k ≤ inp.unread.length) :
    ({ inp with r := inp.r + UInt32.ofNat k } : Input).Ok ∧
      ({ inp with r := inp.r + UInt32.ofNat k } : Input).unread = inp.unread.drop k ∧
      ({ inp with r := inp.r + UInt32.ofNat k } : Input).line = inp.line ∧
      Ring.window inp.buf inp.r ((inp.r + UInt32.ofNat k) - inp.r).toNat = inp.unread.take k := by
  obtain ⟨h1, h2⟩ := h
  rw [length_unread] at hk
  have hw := Ring.toNat_sub_add_ofNat (w := inp.w) (r := inp.r) hk
  have he := Ring.toNat_sub_add_ofNat (w := inp.e) (r := inp.r) (hk.trans h1)
  have hkr : ((inp.r + UInt32.ofNat k) - inp.r).toNat = k :=
    (Ring.eq_add_iff (by unfold INPUT_BUF at h2; omega)).1 rfl
  refine ⟨⟨by simp only; omega, by simp only; omega⟩, ?_, rfl, ?_⟩
  · simp only [unread]
    rw [hw, Ring.window_drop _ _ hk]
  · rw [hkr, unread, ← Nat.add_sub_cancel' hk, Ring.window_add, List.take_left' (Ring.length_window _ _ _)]

/-- `consoleread`'s loop on the ring is the hold of the line discipline on the unread bytes:
it copies what that copies, ends as that ends, and moves `r` over what that consumes. -/
theorem consolereadLoop_eq {target : Nat} {killed : Bool} {n : Nat} {t bs : List UInt8}
    {e : ReadEnd} (h : Discipline.read target killed n inp.unread = (t, bs, e)) :
    consolereadLoop target killed n inp =
      ({ inp with r := inp.r + UInt32.ofNat t.length }, bs, e) := by
  induction n generalizing inp t bs e with
  | zero =>
    cases h
    simp [consolereadLoop]
  | succ n ih =>
    by_cases hrw : inp.r = inp.w
    · rw [unread_eq_nil hrw, Discipline.read] at h
      cases h
      rw [consolereadLoop, if_pos hrw]
      simp
    rw [unread_cons hrw, Discipline.read] at h
    rw [consolereadLoop, if_neg hrw]
    by_cases hD : inp.buf (slot inp.r) = C 'D'
    · -- a saved `C('D')` leaves `r` where it was
      rw [if_pos hD] at h
      cases h
      simp only [if_pos hD]
      split_ifs <;> simp
    by_cases hnl : inp.buf (slot inp.r) = byte '\n'
    · rw [if_neg hD, if_pos hnl] at h
      cases h
      simp only [if_neg hD, if_pos hnl]
      rfl
    · rcases hrec : Discipline.read target killed n ({ inp with r := inp.r + 1 } : Input).unread
        with ⟨t', bs', e'⟩
      rw [if_neg hD, if_neg hnl, hrec] at h
      cases h
      simp only [if_neg hD, if_neg hnl, ih hrec, List.length_cons, Ring.add_one_add_ofNat]

/-- The unread bytes and the line fill the ring from `r` to `e`. -/
theorem Ok.length_add (h : inp.Ok) :
    inp.unread.length + inp.line.length = (inp.e - inp.r).toNat := by
  have h1 := h.1
  rw [length_unread, length_line, Ring.toNat_sub_of_le h1]
  omega

/-- `consoleintr` implements the line discipline, on a ring whose counters are in order and
whose line has no newline: the ring's line is the discipline's, and the bytes it commits go
after the unread ones, which stay. -/
theorem Ok.intr (h : inp.Ok) (hn : byte '\n' ∉ inp.line) (c : UInt8) :
    (inp.intr c).Ok ∧
      (inp.intr c).unread = inp.unread ++ (Discipline.key inp.unread.length inp.line c).2 ∧
      (inp.intr c).line = (Discipline.key inp.unread.length inp.line c).1 := by
  have hlen := h.length_add
  unfold Input.intr Discipline.key
  by_cases hP : c = C 'P'
  · rw [if_pos hP, if_pos hP]
    exact ⟨h, (List.append_nil _).symm, rfl⟩
  by_cases hU : c = C 'U'
  · -- kill-line erases the whole line, since it has no newline
    rw [if_neg hP, if_neg hP, if_pos hU, if_pos hU, killLine, killLoop_of_no_newline _ _ h hn le_rfl]
    exact ⟨⟨le_rfl, h.1.trans h.2⟩, (List.append_nil _).symm, by simp [line]⟩
  by_cases hH : c = C 'H' ∨ c = byte '\x7f'
  · rw [if_neg hP, if_neg hP, if_neg hU, if_neg hU, if_pos hH, if_pos hH]
    by_cases hew : inp.e = inp.w
    · have hnil : inp.line = [] := List.eq_nil_of_length_eq_zero (by simp [hew])
      rw [if_neg (fun h' => h' hew)]
      exact ⟨h, (List.append_nil _).symm, by rw [hnil]; rfl⟩
    · rw [if_pos hew]
      obtain ⟨hok, hun, hline⟩ := h.back hew
      exact ⟨hok, hun.trans (List.append_nil _).symm, hline⟩
  rw [if_neg hP, if_neg hP, if_neg hU, if_neg hU, if_neg hH, if_neg hH]
  by_cases hroom : c ≠ 0 ∧ (inp.e - inp.r).toNat < INPUT_BUF
  · rw [if_pos hroom,
      if_pos (show c ≠ 0 ∧ inp.unread.length + inp.line.length < INPUT_BUF from ⟨hroom.1, by omega⟩)]
    -- the byte goes after the line; then the line is committed or not
    dsimp only
    rw [show (if c = byte '\r' then byte '\n' else c) = Discipline.mapCr c from rfl]
    set c' := Discipline.mapCr c
    obtain ⟨hok, hun, hline, he⟩ := h.put hroom.2 c'
    have hfull : (inp.put c').e = (inp.put c').r + UInt32.ofNat INPUT_BUF ↔
        inp.unread.length + inp.line.length + 1 = INPUT_BUF := by
      rw [Ring.eq_add_iff (by decide), he, hlen]
    by_cases hcommit : c' = byte '\n' ∨ c' = C 'D' ∨
        inp.unread.length + inp.line.length + 1 = INPUT_BUF
    · have hcommit' : c' = byte '\n' ∨ c' = C 'D' ∨
          (inp.put c').e = (inp.put c').r + UInt32.ofNat INPUT_BUF := by
        rwa [hfull]
      rw [if_pos hcommit', if_pos hcommit]
      obtain ⟨hok', hun', hline'⟩ := hok.commit
      exact ⟨hok', by rw [hun', hun, hline], hline'⟩
    · have hcommit' : ¬(c' = byte '\n' ∨ c' = C 'D' ∨
          (inp.put c').e = (inp.put c').r + UInt32.ofNat INPUT_BUF) := by
        rwa [hfull]
      rw [if_neg hcommit', if_neg hcommit]
      exact ⟨hok, hun.trans (List.append_nil _).symm, hline⟩
  · rw [if_neg hroom, if_neg (fun h' => hroom ⟨h'.1, hlen ▸ h'.2⟩)]
    exact ⟨h, (List.append_nil _).symm, rfl⟩

end Input

end Xv6
