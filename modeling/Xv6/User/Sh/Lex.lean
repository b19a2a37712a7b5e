import Xv6.Fs.Checkpoint

/-!
# The shell's tokens: `gettoken` and `peek`

`sh.c` reads a command line through a pointer into it. `gettoken` skips blanks, takes one token
(a symbol of `<|>&;()`, the two characters `>>`, or a word: the characters up to the next blank
or symbol, or the end) and skips the blanks after it; `peek` skips blanks and looks whether the
next character is one of a set. The line is the list of its bytes before the NUL and a pointer
is an index into it; the NUL is what is read at its end.

`lex` is the list of the tokens `gettoken` takes one after another. `gettoken` takes the head of
`lex` and leaves its tail (`lex_eq_cons_iff`); `peek` at a set of symbols sees the head
(`peek_fst`), and moves the pointer only over blanks, which `lex` does not see (`lex_skipWs`).
The parser is thus a reader of `lex`. Every word `lex` takes is a run of bytes with no blank and
no symbol inside and one right after it, or the end (`word_of_mem_lex`): what `nulterminate`
needs.
-/

namespace Xv6

namespace Sh

/-- `whitespace[]` of `sh.c`: `" \t\r\n\v"`. -/
def whitespace : List UInt8 := [0x20, 0x09, 0x0D, 0x0A, 0x0B]

/-- `symbols[]` of `sh.c`. -/
def symbols : List UInt8 := cstr "<|>&;()"

/-- `strchr(s, c) != 0` of `ulib.c` for a string `s` without NUL: its loop stops at the NUL, so
`c = 0` is never found. -/
def strchr (s : List UInt8) (c : UInt8) : Bool := s.contains c

/-- `while(s < es && strchr(whitespace, *s)) s++;` -/
def skipWs (buf : List UInt8) (s : Nat) : Nat :=
  if s < buf.length ∧ strchr whitespace (buf.getD s 0) then skipWs buf (s + 1) else s
termination_by buf.length - s

/-- The loop of a word in `gettoken`:
`while(s < es && !strchr(whitespace, *s) && !strchr(symbols, *s)) s++;` -/
def skipWord (buf : List UInt8) (s : Nat) : Nat :=
  if s < buf.length ∧ strchr whitespace (buf.getD s 0) = false ∧
      strchr symbols (buf.getD s 0) = false then skipWord buf (s + 1)
  else s
termination_by buf.length - s

/-- The characters `gettoken` returns themselves for, all of `symbols` but `>`. -/
def single : List UInt8 := cstr "|();&<"

/-- `gettoken(ps, es, &q, &eq)`: what it returns, `*q`, `*eq` and the new `*ps`. It returns the
character of a symbol, `'+'` for `>>`, `'a'` for a word and `0` at the end. -/
def gettoken (buf : List UInt8) (ps : Nat) : UInt8 × Nat × Nat × Nat :=
  let s := skipWs buf ps
  let c := buf.getD s 0
  let r : UInt8 × Nat :=
    if c = 0 then (0, s)
    else if c ∈ single then (c, s + 1)
    else if c = '>'.toUInt8 then
      if buf.getD (s + 1) 0 = '>'.toUInt8 then ('+'.toUInt8, s + 2) else (c, s + 1)
    else ('a'.toUInt8, skipWord buf s)
  (r.1, s, r.2, skipWs buf r.2)

/-- `peek(ps, es, toks)`: whether the next character after blanks is one of `toks`, and the new
`*ps`. -/
def peek (buf : List UInt8) (ps : Nat) (toks : List UInt8) : Bool × Nat :=
  let s := skipWs buf ps
  (buf.getD s 0 ≠ 0 && strchr toks (buf.getD s 0), s)

/-- A token of the line: what `gettoken` returns, `*q` and `*eq`. -/
structure Tok where
  kind : UInt8
  q : Nat
  eq : Nat
  deriving DecidableEq, Repr

/-! ## The scanning loops -/

section Scan

variable {buf : List UInt8} {s t : Nat}

theorem le_skipWs (buf : List UInt8) (s : Nat) : s ≤ skipWs buf s := by
  fun_induction skipWs buf s with
  | case1 s _ ih => omega
  | case2 s _ => exact le_rfl

/-- Where the blanks end: the end, or a character that is not a blank. -/
theorem skipWs_stop (buf : List UInt8) (s : Nat) :
    ¬(skipWs buf s < buf.length ∧ strchr whitespace (buf.getD (skipWs buf s) 0) = true) := by
  fun_induction skipWs buf s with
  | case1 s _ ih => exact ih
  | case2 s h => exact h

theorem skipWs_of_stop (h : ¬(s < buf.length ∧ strchr whitespace (buf.getD s 0) = true)) :
    skipWs buf s = s := by
  rw [skipWs, if_neg h]

@[simp] theorem skipWs_skipWs (buf : List UInt8) (s : Nat) :
    skipWs buf (skipWs buf s) = skipWs buf s :=
  skipWs_of_stop (skipWs_stop buf s)

/-- A blank is skipped. -/
theorem lt_skipWs (h : s < buf.length ∧ strchr whitespace (buf.getD s 0) = true) :
    s < skipWs buf s := by
  rw [skipWs, if_pos h]
  exact Nat.lt_of_lt_of_le (Nat.lt_succ_self s) (le_skipWs buf (s + 1))

theorem le_skipWord (buf : List UInt8) (s : Nat) : s ≤ skipWord buf s := by
  fun_induction skipWord buf s with
  | case1 s _ ih => omega
  | case2 s _ => exact le_rfl

theorem skipWord_le_length (hs : s ≤ buf.length) : skipWord buf s ≤ buf.length := by
  fun_induction skipWord buf s with
  | case1 s h ih => exact ih (by omega)
  | case2 s _ => exact hs

/-- The characters of a word are inside the line, and neither blanks nor symbols … -/
theorem skipWord_chars (h1 : s ≤ t) (h2 : t < skipWord buf s) :
    t < buf.length ∧ strchr whitespace (buf.getD t 0) = false ∧
      strchr symbols (buf.getD t 0) = false := by
  fun_induction skipWord buf s with
  | case1 s h ih =>
    by_cases hts : t = s
    · subst hts
      exact h
    · exact ih (by omega) h2
  | case2 s _ => omega

/-- … and the word ends at the end of the line, a blank or a symbol. -/
theorem skipWord_stop (buf : List UInt8) (s : Nat) :
    ¬(skipWord buf s < buf.length ∧ strchr whitespace (buf.getD (skipWord buf s) 0) = false ∧
      strchr symbols (buf.getD (skipWord buf s) 0) = false) := by
  fun_induction skipWord buf s with
  | case1 s _ ih => exact ih
  | case2 s h => exact h

end Scan

/-! ## The tokens of a line -/

section Tokens

variable {buf : List UInt8} {ps s : Nat} {toks : List UInt8}

theorem symbols_eq : symbols = [0x3C, 0x7C, 0x3E, 0x26, 0x3B, 0x28, 0x29] := by decide

theorem single_eq : single = [0x7C, 0x28, 0x29, 0x3B, 0x26, 0x3C] := by decide

/-- The symbols are those `gettoken` returns themselves for, and `>`. -/
theorem strchr_symbols (c : UInt8) :
    strchr symbols c = (strchr single c || c == '>'.toUInt8) := by
  rw [symbols_eq, single_eq, show '>'.toUInt8 = 0x3E from rfl]
  simp only [strchr, List.contains_cons, List.contains_nil, Bool.or_false]
  grind

theorem lt_length_of_getD_ne_zero (h : buf.getD s 0 ≠ 0) : s < buf.length := by
  by_contra hs
  exact h (List.getD_eq_default _ _ (by omega))

theorem skipWs_le_length (hs : s ≤ buf.length) : skipWs buf s ≤ buf.length := by
  fun_induction skipWs buf s with
  | case1 s _ ih => exact ih (by omega)
  | case2 s _ => exact hs

/-- A word's first byte is no blank and no symbol, so the word is not empty. -/
theorem lt_skipWord (h : s < buf.length ∧ strchr whitespace (buf.getD s 0) = false ∧
    strchr symbols (buf.getD s 0) = false) : s < skipWord buf s := by
  rw [skipWord, if_pos h]
  exact Nat.lt_of_lt_of_le (Nat.lt_succ_self s) (le_skipWord buf (s + 1))

/-- `gettoken` leaves `*q` after the blanks. -/
theorem gettoken_q (buf : List UInt8) (ps : Nat) : (gettoken buf ps).2.1 = skipWs buf ps := rfl

/-- `gettoken` leaves `*ps` after the blanks behind the token. -/
theorem gettoken_ps (buf : List UInt8) (ps : Nat) :
    (gettoken buf ps).2.2.2 = skipWs buf (gettoken buf ps).2.2.1 := rfl

/-- The five ways `gettoken` ends, by the byte `c` after the blanks: the end, a symbol it
returns itself for, `>>`, `>`, and a word. -/
theorem gettoken_cases (buf : List UInt8) (ps : Nat) :
    let s := skipWs buf ps
    let c := buf.getD s 0
    (c = 0 ∧ (gettoken buf ps).1 = 0 ∧ (gettoken buf ps).2.2.1 = s) ∨
    (c ≠ 0 ∧ c ∈ single ∧ (gettoken buf ps).1 = c ∧ (gettoken buf ps).2.2.1 = s + 1) ∨
    (c = '>'.toUInt8 ∧ buf.getD (s + 1) 0 = '>'.toUInt8 ∧ (gettoken buf ps).1 = '+'.toUInt8 ∧
      (gettoken buf ps).2.2.1 = s + 2) ∨
    (c = '>'.toUInt8 ∧ buf.getD (s + 1) 0 ≠ '>'.toUInt8 ∧ (gettoken buf ps).1 = c ∧
      (gettoken buf ps).2.2.1 = s + 1) ∨
    (c ≠ 0 ∧ c ∉ single ∧ c ≠ '>'.toUInt8 ∧ (gettoken buf ps).1 = 'a'.toUInt8 ∧
      (gettoken buf ps).2.2.1 = skipWord buf s) := by
  intro s c
  dsimp only [gettoken]
  split_ifs with h0 hsingle hgt hnext
  · exact .inl ⟨h0, rfl, rfl⟩
  · exact .inr (.inl ⟨h0, hsingle, rfl, rfl⟩)
  · exact .inr (.inr (.inl ⟨hgt, hnext, rfl, rfl⟩))
  · exact .inr (.inr (.inr (.inl ⟨hgt, hnext, rfl, rfl⟩)))
  · exact .inr (.inr (.inr (.inr ⟨h0, hsingle, hgt, rfl, rfl⟩)))

/-- `gettoken` returns `0` exactly at the end of the line. -/
theorem gettoken_eq_zero_iff : (gettoken buf ps).1 = 0 ↔ buf.getD (skipWs buf ps) 0 = 0 := by
  rcases gettoken_cases buf ps with ⟨hc, hk, -⟩ | ⟨hc, -, hk, -⟩ | ⟨hc, -, hk, -⟩ | ⟨hc, -, hk, -⟩ |
    ⟨hc, -, -, hk, -⟩
  · exact ⟨fun _ => hc, fun _ => hk⟩
  · rw [hk]
  · rw [hk, hc]
    decide
  · rw [hk]
  · rw [hk]
    exact ⟨fun h => absurd h (by decide), fun h => absurd h hc⟩

/-- At the end of the line the token is empty: it ends where the blanks end. -/
theorem gettoken_eq_of_zero (h : (gettoken buf ps).1 = 0) :
    (gettoken buf ps).2.2.1 = skipWs buf ps := by
  rcases gettoken_cases buf ps with ⟨-, -, he⟩ | ⟨hc, -, hk, -⟩ | ⟨-, -, hk, -⟩ | ⟨hc, -, hk, -⟩ |
    ⟨-, -, -, hk, -⟩
  · exact he
  · exact absurd (hk ▸ h) hc
  · exact absurd (hk ▸ h) (by decide)
  · exact absurd (hk ▸ h) (hc ▸ by decide)
  · exact absurd (hk ▸ h) (by decide)

/-- A byte that is not `0`, not a symbol `gettoken` returns itself for and not `>` is no symbol. -/
theorem strchr_symbols_of_word {c : UInt8} (hs : c ∉ single) (hgt : c ≠ '>'.toUInt8) :
    strchr symbols c = false := by
  rw [strchr_symbols, Bool.or_eq_false_iff]
  exact ⟨by simpa [strchr] using hs, by simpa using hgt⟩

/-- At a word, `gettoken`'s first byte is no blank and no symbol. -/
theorem word_start (hc : buf.getD (skipWs buf ps) 0 ≠ 0) (hs : buf.getD (skipWs buf ps) 0 ∉ single)
    (hgt : buf.getD (skipWs buf ps) 0 ≠ '>'.toUInt8) :
    skipWs buf ps < buf.length ∧ strchr whitespace (buf.getD (skipWs buf ps) 0) = false ∧
      strchr symbols (buf.getD (skipWs buf ps) 0) = false := by
  have hlt := lt_length_of_getD_ne_zero hc
  have hws : ¬strchr whitespace (buf.getD (skipWs buf ps) 0) = true := fun h =>
    skipWs_stop buf ps ⟨hlt, h⟩
  exact ⟨hlt, by simpa using hws, strchr_symbols_of_word hs hgt⟩

/-- A token that is not the end is not empty and lies inside the line. -/
theorem lt_gettoken_eq (h : (gettoken buf ps).1 ≠ 0) :
    skipWs buf ps < (gettoken buf ps).2.2.1 ∧ (gettoken buf ps).2.2.1 ≤ buf.length := by
  rcases gettoken_cases buf ps with ⟨hc, hk, -⟩ | ⟨hc, -, -, he⟩ | ⟨-, hn, -, he⟩ | ⟨hc, -, -, he⟩ |
    ⟨hc, hs, hgt, -, he⟩
  · exact absurd hk h
  · have := lt_length_of_getD_ne_zero hc
    omega
  · have := lt_length_of_getD_ne_zero (hn ▸ by decide : buf.getD (skipWs buf ps + 1) 0 ≠ 0)
    omega
  · have := lt_length_of_getD_ne_zero (hc ▸ by decide : buf.getD (skipWs buf ps) 0 ≠ 0)
    omega
  · have hw := word_start hc hs hgt
    rw [he]
    exact ⟨lt_skipWord hw, skipWord_le_length hw.1.le⟩

theorem le_gettoken_eq (buf : List UInt8) (ps : Nat) : skipWs buf ps ≤ (gettoken buf ps).2.2.1 := by
  by_cases h : (gettoken buf ps).1 = 0
  · exact (gettoken_eq_of_zero h).ge
  · exact (lt_gettoken_eq h).1.le

/-- `gettoken` never moves `*ps` back. -/
theorem le_gettoken (buf : List UInt8) (ps : Nat) : ps ≤ (gettoken buf ps).2.2.2 :=
  (le_skipWs buf ps).trans ((le_gettoken_eq buf ps).trans (le_skipWs buf _))

/-- A token other than the end moves `*ps` on, and not past the end of the line. -/
theorem lt_gettoken (h : (gettoken buf ps).1 ≠ 0) :
    ps < (gettoken buf ps).2.2.2 ∧ (gettoken buf ps).2.2.2 ≤ buf.length := by
  obtain ⟨hlt, hle⟩ := lt_gettoken_eq h
  have h1 := le_skipWs buf ps
  have h2 := le_skipWs buf (gettoken buf ps).2.2.1
  exact ⟨by rw [gettoken_ps]; omega, skipWs_le_length hle⟩

theorem gettoken_le_length (hps : ps ≤ buf.length) : (gettoken buf ps).2.2.2 ≤ buf.length := by
  by_cases h : (gettoken buf ps).1 = 0
  · rw [gettoken_ps, gettoken_eq_of_zero h, skipWs_skipWs]
    exact skipWs_le_length hps
  · exact (lt_gettoken h).2

/-- The bytes `[q, eq)` of the line are a word: not empty, no blank and no symbol inside, and
a blank, a symbol or the end of the line right after. -/
structure Word (buf : List UInt8) (q eq : Nat) : Prop where
  lt : q < eq
  le_length : eq ≤ buf.length
  inside : ∀ j, q ≤ j → j < eq →
    strchr whitespace (buf.getD j 0) = false ∧ strchr symbols (buf.getD j 0) = false
  after : ¬(eq < buf.length ∧ strchr whitespace (buf.getD eq 0) = false ∧
    strchr symbols (buf.getD eq 0) = false)

/-- What `gettoken` returns `a` for is a word. -/
theorem word_of_gettoken (h : (gettoken buf ps).1 = 'a'.toUInt8) :
    Word buf (gettoken buf ps).2.1 (gettoken buf ps).2.2.1 := by
  rcases gettoken_cases buf ps with ⟨-, hk, -⟩ | ⟨-, hs, hk, -⟩ | ⟨-, -, hk, -⟩ | ⟨hc, -, hk, -⟩ |
    ⟨hc, hs, hgt, -, he⟩
  · exact absurd (hk ▸ h) (by decide)
  · rw [hk] at h
    exact absurd (h ▸ hs) (by decide)
  · exact absurd (hk ▸ h) (by decide)
  · exact absurd (h.symm.trans (hk.trans hc)) (by decide)
  · have hw := word_start hc hs hgt
    rw [gettoken_q, he]
    exact ⟨lt_skipWord hw, skipWord_le_length hw.1.le, fun j h1 h2 => (skipWord_chars h1 h2).2,
      skipWord_stop buf _⟩

/-! ## The list of tokens -/

/-- The token `gettoken` takes at `ps`: what it returns, `*q` and `*eq`. -/
def tokenAt (buf : List UInt8) (ps : Nat) : Tok :=
  ⟨(gettoken buf ps).1, (gettoken buf ps).2.1, (gettoken buf ps).2.2.1⟩

/-- The tokens `gettoken` takes from `ps` on, one after another, up to the end of the line. -/
def lex (buf : List UInt8) (ps : Nat) : List Tok :=
  if _ : (gettoken buf ps).1 = 0 then [] else tokenAt buf ps :: lex buf (gettoken buf ps).2.2.2
termination_by buf.length - ps
decreasing_by
  -- `gettoken` moves past the token it takes
  have := lt_gettoken (by assumption)
  omega

theorem lex_of_eq_zero (h : (gettoken buf ps).1 = 0) : lex buf ps = [] := by
  rw [lex, dif_pos h]

theorem lex_of_ne_zero (h : (gettoken buf ps).1 ≠ 0) :
    lex buf ps = tokenAt buf ps :: lex buf (gettoken buf ps).2.2.2 := by
  rw [lex, dif_neg h]

theorem lex_eq_nil_iff : lex buf ps = [] ↔ (gettoken buf ps).1 = 0 := by
  refine ⟨fun h => ?_, lex_of_eq_zero⟩
  by_contra hk
  rw [lex_of_ne_zero hk] at h
  exact List.cons_ne_nil _ _ h

/-- The head of `lex` is what `gettoken` takes, and its tail what `lex` gives after. -/
theorem lex_eq_cons_iff {t : Tok} {rest : List Tok} :
    lex buf ps = t :: rest ↔
      (gettoken buf ps).1 ≠ 0 ∧ tokenAt buf ps = t ∧ lex buf (gettoken buf ps).2.2.2 = rest := by
  by_cases hk : (gettoken buf ps).1 = 0
  · rw [lex_of_eq_zero hk]
    simp [hk]
  · rw [lex_of_ne_zero hk, List.cons.injEq]
    exact ⟨fun h => ⟨hk, h⟩, fun h => h.2⟩

theorem gettoken_skipWs (buf : List UInt8) (ps : Nat) :
    gettoken buf (skipWs buf ps) = gettoken buf ps := by
  simp only [gettoken, skipWs_skipWs]

/-- Blanks are no tokens. -/
@[simp] theorem lex_skipWs (buf : List UInt8) (ps : Nat) : lex buf (skipWs buf ps) = lex buf ps := by
  rw [lex.eq_def buf (skipWs buf ps), gettoken_skipWs, tokenAt, gettoken_skipWs, lex.eq_def buf ps,
    tokenAt]

/-- Past the end of the line there are no more tokens. -/
theorem lex_gettoken_of_eq_zero (h : (gettoken buf ps).1 = 0) :
    lex buf (gettoken buf ps).2.2.2 = [] := by
  rw [gettoken_ps, gettoken_eq_of_zero h, skipWs_skipWs, lex_skipWs, lex_of_eq_zero h]

theorem kind_ne_zero_of_mem_lex {t : Tok} (h : t ∈ lex buf ps) : t.kind ≠ 0 := by
  fun_induction lex buf ps with
  | case1 ps _ => simp at h
  | case2 ps hk ih =>
    rcases List.mem_cons.mp h with rfl | h
    · exact hk
    · exact ih h

/-- Every word `lex` takes is a word of the line. -/
theorem word_of_mem_lex {t : Tok} (h : t ∈ lex buf ps) (hk : t.kind = 'a'.toUInt8) :
    Word buf t.q t.eq := by
  fun_induction lex buf ps with
  | case1 ps _ => simp at h
  | case2 ps _ ih =>
    rcases List.mem_cons.mp h with rfl | h
    · exact word_of_gettoken hk
    · exact ih h

/-- A word ends before the next word starts: a blank or a symbol stands between them. -/
theorem Word.end_ne_start {q eq q' eq' : Nat} (hw : Word buf q eq) (hw' : Word buf q' eq') :
    eq ≠ q' := by
  rintro rfl
  exact hw.after ⟨lt_of_lt_of_le hw'.lt hw'.le_length, hw'.inside eq le_rfl hw'.lt⟩

/-- Every token `lex` takes from `ps` on starts at `ps` or later. -/
theorem le_q_of_mem_lex {t : Tok} (h : t ∈ lex buf ps) : ps ≤ t.q := by
  fun_induction lex buf ps with
  | case1 ps _ => simp at h
  | case2 ps _ ih =>
    rcases List.mem_cons.mp h with rfl | h
    · exact le_skipWs buf ps
    · exact (le_gettoken buf ps).trans (ih h)

/-- Two words of `lex` do not overlap: the end of one is not inside the other. -/
theorem lex_words_apart {t t' : Tok} (ht : t ∈ lex buf ps) (ht' : t' ∈ lex buf ps)
    (hk : t.kind = 'a'.toUInt8) (hk' : t'.kind = 'a'.toUInt8) : t'.eq < t.q ∨ t.eq ≤ t'.eq := by
  fun_induction lex buf ps with
  | case1 ps _ => simp at ht
  | case2 ps _ ih =>
    -- the head ends where the tokens after it start, or before
    have hafter : ∀ {u : Tok}, u ∈ lex buf (gettoken buf ps).2.2.2 → (tokenAt buf ps).eq ≤ u.q :=
      fun hu => (le_skipWs buf _).trans (gettoken_ps buf ps ▸ le_q_of_mem_lex hu)
    rcases List.mem_cons.mp ht with rfl | ht <;> rcases List.mem_cons.mp ht' with rfl | ht'
    · exact .inr le_rfl
    · exact .inr ((hafter ht').trans (word_of_mem_lex ht' hk').lt.le)
    · have h1 := hafter ht
      have h2 := (word_of_gettoken hk').end_ne_start (word_of_mem_lex ht hk)
      exact .inl (lt_of_le_of_ne h1 h2)
    · exact ih ht ht'

/-- The blanks run to the end of the line exactly when no token is left, on a line without
`NUL`. -/
theorem skipWs_eq_length_iff (h0 : 0 ∉ buf) (hps : ps ≤ buf.length) :
    skipWs buf ps = buf.length ↔ lex buf ps = [] := by
  rw [lex_eq_nil_iff, gettoken_eq_zero_iff]
  constructor
  · intro h
    rw [h]
    exact List.getD_eq_default _ _ le_rfl
  · intro h
    have hle := skipWs_le_length hps
    by_contra hne
    have hlt : skipWs buf ps < buf.length := by omega
    rw [List.getD_eq_getElem _ _ hlt] at h
    exact h0 (h ▸ List.getElem_mem hlt)

/-! ## `peek` -/

/-- The byte a token starts with: `>` for `>>`, its kind for every other token. A word's kind
`a`, like its first byte, is no symbol. -/
def lead (k : UInt8) : UInt8 := if k = '+'.toUInt8 then '>'.toUInt8 else k

/-- What `peek` at `toks` sees at the head of a list of tokens. -/
def peeks (toks : List UInt8) : List Tok → Bool
  | [] => false
  | t :: _ => strchr toks (lead t.kind)

@[simp] theorem peeks_nil (toks : List UInt8) : peeks toks [] = false := rfl

@[simp] theorem peeks_cons (toks : List UInt8) (t : Tok) (ts : List Tok) :
    peeks toks (t :: ts) = strchr toks (lead t.kind) := rfl

theorem peek_snd (buf : List UInt8) (ps : Nat) (toks : List UInt8) :
    (peek buf ps toks).2 = skipWs buf ps := rfl

theorem strchr_of_not_symbol (htoks : ∀ c ∈ toks, c ∈ symbols) {c : UInt8}
    (hc : strchr symbols c = false) : strchr toks c = false := by
  rw [Bool.eq_false_iff]
  intro h
  have hmem : c ∈ symbols := htoks c (by simpa [strchr] using h)
  simp [strchr, hmem] at hc

/-- `peek` at symbols sees the head of `lex`. -/
theorem peek_fst (htoks : ∀ c ∈ toks, c ∈ symbols) :
    (peek buf ps toks).1 = peeks toks (lex buf ps) := by
  have hpeek : (peek buf ps toks).1 =
      (buf.getD (skipWs buf ps) 0 ≠ 0 && strchr toks (buf.getD (skipWs buf ps) 0)) := rfl
  have hgt0 : decide ('>'.toUInt8 ≠ 0) = true := by decide
  rcases gettoken_cases buf ps with ⟨hc, hk, -⟩ | ⟨hc, hs, hk, -⟩ | ⟨hc, -, hk, -⟩ |
    ⟨hc, -, hk, -⟩ | ⟨hc, hs, hgt, hk, -⟩
  · rw [hpeek, lex_of_eq_zero hk, hc]
    rfl
  · have hplus : buf.getD (skipWs buf ps) 0 ≠ '+'.toUInt8 := fun h => absurd (h ▸ hs) (by decide)
    rw [hpeek, lex_of_ne_zero (hk ▸ hc), peeks_cons, tokenAt, hk, lead, if_neg hplus,
      decide_eq_true hc, Bool.true_and]
  · rw [hpeek, lex_of_ne_zero (hk ▸ by decide), peeks_cons, tokenAt, hk, hc,
      show lead '+'.toUInt8 = '>'.toUInt8 by decide, hgt0, Bool.true_and]
  · rw [hpeek, lex_of_ne_zero (hk ▸ hc ▸ by decide), peeks_cons, tokenAt, hk, hc,
      show lead '>'.toUInt8 = '>'.toUInt8 by decide, hgt0, Bool.true_and]
  · rw [hpeek, lex_of_ne_zero (hk ▸ by decide), peeks_cons, tokenAt, hk,
      show lead 'a'.toUInt8 = 'a'.toUInt8 by decide,
      strchr_of_not_symbol htoks (show strchr symbols 'a'.toUInt8 = false by decide),
      strchr_of_not_symbol htoks (strchr_symbols_of_word hs hgt), Bool.and_false]

end Tokens

end Sh

end Xv6
