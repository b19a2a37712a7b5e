import Xv6.Lib.Atoms
import Xv6.Fs.Checkpoint

/-!
# `grep`

The matcher of `grep.c`, from Kernighan and Pike: `match(re, text)` tries `matchhere` at every
suffix of `text`, or at `text` alone when `re` starts with `^`; `matchhere` reads the pattern
one character at a time, a character followed by `*` through `matchstar`, and a `$` that ends the
pattern as the end of the text. A string is the list of its bytes before the NUL.

What the matcher decides is the language of the pattern read as starred and plain atoms
(`parse`), with `.` for any character: `match_iff`. The functions are total, their recursion
decreasing the pattern, and for `matchstar` the text.

`grep(pattern, fd)` reads into a buffer of `1024` bytes, writes every line of it that matches,
and keeps the unfinished tail for the next read, unless no line ended in the buffer: then it
drops the buffer. The input comes from a pipe, as the chunks successive reads return
(`pipeRead`); a read of a line split over two chunks drops the first part
(`grep_drops_split_line`).
-/

namespace Xv6

namespace Grep

/-! ## The matcher -/

/-- `matchstar(c, re, text)`: `c*re` matches at the beginning of `text`, where `here` is
`matchhere(re, ·)`. -/
def matchstar (here : List UInt8 → Bool) (c : UInt8) : List UInt8 → Bool
  | [] => here []
  | t :: text => here (t :: text) || if t = c ∨ c = '.'.toUInt8 then matchstar here c text else false

/-- `matchhere(re, text)`: `re` matches at the beginning of `text`. The cases are those of the
source in its order: `re[1] == '*'`, then a final `$`, then one character. -/
def matchhere : List UInt8 → List UInt8 → Bool
  | [], _ => true
  | [c], text =>
    if c = '$'.toUInt8 then text.isEmpty
    else
      match text with
      | [] => false
      | t :: text' => if c = '.'.toUInt8 ∨ c = t then matchhere [] text' else false
  | c :: d :: re, text =>
    if d = '*'.toUInt8 then matchstar (matchhere re) c text
    else
      match text with
      | [] => false
      | t :: text' => if c = '.'.toUInt8 ∨ c = t then matchhere (d :: re) text' else false

/-- The loop of `match` over the suffixes of `text`, the empty one included. -/
def matchLoop (re : List UInt8) : List UInt8 → Bool
  | [] => matchhere re []
  | t :: text => matchhere re (t :: text) || matchLoop re text

/-- `match(re, text)`. -/
def «match» (re text : List UInt8) : Bool :=
  if re.headD 0 = '^'.toUInt8 then matchhere re.tail text else matchLoop re text

/-! ## What a pattern means -/

/-- A pattern character matches a text character: `.` all of them, any other itself. -/
def hits (c t : UInt8) : Bool := c = '.'.toUInt8 ∨ c = t

/-- A pattern, after its leading `^`, read as atoms `c` and `c*`, a `*` binding to the
character before it, and whether a final `$` anchors the match at the end of the text. -/
def parse : List UInt8 → List (Atoms.Atom UInt8) × Bool
  | [] => ([], false)
  | [c] => if c = '$'.toUInt8 then ([], true) else ([⟨hits c, false⟩], false)
  | c :: d :: re =>
    if d = '*'.toUInt8 then (⟨hits c, true⟩ :: (parse re).1, (parse re).2)
    else (⟨hits c, false⟩ :: (parse (d :: re)).1, (parse (d :: re)).2)

/-- The pattern without its leading `^`. -/
def body (re : List UInt8) : List UInt8 := if re.headD 0 = '^'.toUInt8 then re.tail else re

/-- The suffixes of `text` a match may start at: `text` alone after a leading `^`. -/
def starts (re text : List UInt8) : List (List UInt8) :=
  if re.headD 0 = '^'.toUInt8 then [text] else text.tails

/-- `re` accepts `text`: some suffix it may start at has a prefix in the language of `re`, the
whole suffix if `re` ends with `$`. -/
def Accepts (re text : List UInt8) : Prop :=
  ∃ s ∈ starts re text, Atoms.Prefix (parse (body re)).1 (parse (body re)).2 s

/-! ## The matcher decides the language -/

section Spec

open Atoms

variable {c t : UInt8} {re re' text : List UInt8}

/-- A condition on the first letter and the rest of a word that is a `cons`. -/
theorem exists_cons_eq_iff {P : UInt8 → List UInt8 → Prop} :
    (∃ t' w', t :: text = t' :: w' ∧ P t' w') ↔ P t text := by
  constructor
  · rintro ⟨t', w', h, hp⟩
    cases h
    exact hp
  · intro hp
    exact ⟨t, text, rfl, hp⟩

/-- `matchstar` decides a starred atom in front of what `here` decides. -/
theorem matchstar_iff_of {here : List UInt8 → Bool} {as : List (Atom UInt8)} {d : Bool}
    (ih : ∀ text, here text = true ↔ Prefix as d text) :
    ∀ text, matchstar here c text = true ↔ Prefix (⟨hits c, true⟩ :: as) d text := by
  intro text
  induction text with
  | nil =>
    rw [matchstar, prefix_star_iff, ← ih]
    simp
  | cons t text ihtext =>
    -- `matchstar` tests the letter the other way round
    have hhit : hits c t = true ↔ (t = c ∨ c = '.'.toUInt8) := by
      simp only [hits, decide_eq_true_eq]
      constructor
      · rintro (h | rfl)
        · exact .inr h
        · exact .inl rfl
      · rintro (rfl | h)
        · exact .inr rfl
        · exact .inl h
    rw [matchstar, prefix_star_iff, ← ih, exists_cons_eq_iff, hhit, ← ihtext]
    by_cases hc : t = c ∨ c = '.'.toUInt8 <;> simp [hc]

/-- One plain character in front of what `here` decides. -/
theorem one_iff_of {here : List UInt8 → Bool} {as : List (Atom UInt8)} {d : Bool}
    (ih : ∀ text, here text = true ↔ Prefix as d text) :
    (match text with
      | [] => false
      | t :: text' => if c = '.'.toUInt8 ∨ c = t then here text' else false) = true ↔
      Prefix (⟨hits c, false⟩ :: as) d text := by
  rw [prefix_one_iff]
  cases text with
  | nil => simp
  | cons t text' =>
    rw [exists_cons_eq_iff, ← ih text']
    by_cases hc : c = '.'.toUInt8 ∨ c = t <;> simp [hc, hits]

theorem matchhere_iff : ∀ re text : List UInt8,
    matchhere re text = true ↔ Prefix (parse re).1 (parse re).2 text
  | [], text => by
    rw [matchhere, parse, prefix_nil_iff]
    simp
  | [c], text => by
    rw [matchhere.eq_def, parse]
    dsimp only
    by_cases hd : c = '$'.toUInt8
    · -- a final `$`: the end of the text
      rw [if_pos hd, if_pos hd, prefix_nil_iff]
      simp
    · -- one character, then nothing
      rw [if_neg hd, if_neg hd]
      exact one_iff_of (matchhere_iff [])
  | c :: d :: re, text => by
    rw [matchhere.eq_def, parse]
    dsimp only
    by_cases hs : d = '*'.toUInt8
    · -- `c*`: the loop of `matchstar`
      rw [if_pos hs, if_pos hs]
      exact matchstar_iff_of (matchhere_iff re) text
    · -- a plain character
      rw [if_neg hs, if_neg hs]
      exact one_iff_of (matchhere_iff (d :: re))

/-- The loop over the suffixes tries `matchhere` at each of them. -/
theorem matchLoop_iff (re : List UInt8) :
    ∀ text, matchLoop re text = true ↔ ∃ s ∈ text.tails, matchhere re s = true
  | [] => by simp [matchLoop]
  | t :: text => by
    rw [matchLoop, Bool.or_eq_true, matchLoop_iff re text, List.tails_cons]
    simp

/-- `match` decides the language of its pattern, for every pattern and text. -/
theorem match_iff (re text : List UInt8) : «match» re text = true ↔ Accepts re text := by
  unfold «match» Accepts starts body
  by_cases h : re.headD 0 = '^'.toUInt8
  · rw [if_pos h, if_pos h, if_pos h, matchhere_iff]
    simp
  · rw [if_neg h, if_neg h, if_neg h, matchLoop_iff]
    simp only [matchhere_iff]

end Spec

/-! ## The line loop -/

/-- `strchr(s, c)` of `ulib.c`: the index of the first `c` in `s` before its NUL. -/
def strchr (s : List UInt8) (c : UInt8) : Option Nat :=
  match s with
  | [] => none
  | x :: s => if x = 0 then none else if x = c then some 0 else (strchr s c).map (· + 1)

theorem strchr_lt {s : List UInt8} {c : UInt8} {i : Nat} (h : strchr s c = some i) :
    i < s.length := by
  induction s generalizing i with
  | nil => cases h
  | cons x s ih =>
    simp only [strchr] at h
    split_ifs at h with h0 hc
    · cases h
      simp
    · obtain ⟨j, hj, rfl⟩ := Option.map_eq_some_iff.1 h
      have := ih hj
      simp only [List.length_cons]
      omega

/-- The inner loop of `grep` from `p`: the lines it writes, and where `p` stops. A line ends at
the first newline before a NUL; it is matched with the newline made a NUL, and written with
the newline put back. Each round moves `p` past a newline, so `fuel` of `p.length` rounds is
never short. -/
def grepScan (pattern : List UInt8) : Nat → List UInt8 → List UInt8 × List UInt8
  | 0, p => ([], p)
  | fuel + 1, p =>
    match strchr p '\n'.toUInt8 with
    | none => ([], p)
    | some i =>
      let out := if «match» pattern (p.take i) then p.take (i + 1) else []
      let r := grepScan pattern fuel (p.drop (i + 1))
      (out ++ r.1, r.2)

/-- More fuel than the bytes left changes nothing. -/
theorem grepScan_succ {pattern p : List UInt8} {fuel : Nat} (h : p.length ≤ fuel) :
    grepScan pattern (fuel + 1) p = grepScan pattern fuel p := by
  induction fuel generalizing p with
  | zero =>
    rw [List.length_eq_zero_iff.1 (Nat.le_zero.1 h)]
    rfl
  | succ fuel ih =>
    rw [grepScan, grepScan]
    split
    · rfl
    · rename_i i hi
      have hlt := strchr_lt hi
      rw [ih (by simp only [List.length_drop]; omega)]

/-- `read(fd, buf + m, n)` on a pipe: the bytes of the next write, as many as fit, and the writes
left. An empty write gives nothing to read. -/
def pipeRead : List (List UInt8) → Nat → List UInt8 × List (List UInt8)
  | [], _ => ([], [])
  | c :: cs, n =>
    if c = [] then pipeRead cs n
    else if c.length ≤ n then (c, cs) else (c.take n, c.drop n :: cs)

/-- A read takes its bytes off the pipe. -/
theorem pipeRead_sum (cs : List (List UInt8)) (n : Nat) :
    (pipeRead cs n).1.length + ((pipeRead cs n).2.map List.length).sum =
      (cs.map List.length).sum := by
  induction cs with
  | nil => rfl
  | cons c cs ih =>
    simp only [pipeRead]
    split_ifs with h0 hn
    · simp [ih, h0]
    · simp
    · simp only [List.length_take, List.map_cons, List.sum_cons, List.length_drop]
      omega

/-- The outer loop of `grep`: `buf` holds the bytes kept from the last read. Each round reads at
least a byte, so `fuel` of the bytes left in the pipe is never short. -/
def grepLoop (pattern : List UInt8) : Nat → List UInt8 → List (List UInt8) → List UInt8
  | 0, _, _ => []
  | fuel + 1, buf, writes =>
    let (data, rest) := pipeRead writes (1024 - buf.length - 1)
    if data = [] then []
    else
      let buf := buf ++ data
      let r := grepScan pattern buf.length buf
      -- with no line in the buffer it is dropped: `if(p == buf) m = 0`
      let buf := if r.2.length = buf.length then [] else r.2
      r.1 ++ grepLoop pattern fuel buf rest

/-- An empty pipe reads nothing. -/
theorem pipeRead_empty {cs : List (List UInt8)} {n : Nat} (h : (cs.map List.length).sum = 0) :
    (pipeRead cs n).1 = [] := by
  have := pipeRead_sum cs n
  exact List.length_eq_zero_iff.1 (by omega)

/-- More fuel than the bytes left in the pipe changes nothing. -/
theorem grepLoop_succ {pattern buf : List UInt8} {writes : List (List UInt8)} {fuel : Nat}
    (h : (writes.map List.length).sum ≤ fuel) :
    grepLoop pattern (fuel + 1) buf writes = grepLoop pattern fuel buf writes := by
  induction fuel generalizing buf writes with
  | zero =>
    have hnil := pipeRead_empty (n := 1024 - buf.length - 1) (Nat.le_zero.1 h)
    simp only [grepLoop, hnil, if_true]
  | succ fuel ih =>
    have hsum := pipeRead_sum writes (1024 - buf.length - 1)
    rcases hp : pipeRead writes (1024 - buf.length - 1) with ⟨data, rest⟩
    rw [hp] at hsum
    conv_lhs => rw [grepLoop, hp]
    conv_rhs => rw [grepLoop, hp]
    dsimp only
    by_cases hd : data = []
    · rw [if_pos hd, if_pos hd]
    · -- the rest of the pipe holds fewer bytes than the fuel left
      have hpos := List.length_pos_iff.2 hd
      rw [if_neg hd, if_neg hd, ih (by simp only at hsum; omega)]

/-- `grep(pattern, fd)` on a pipe whose writers wrote `writes`: the bytes it writes. -/
def grep (pattern : List UInt8) (writes : List (List UInt8)) : List UInt8 :=
  grepLoop pattern (writes.map List.length).sum [] writes

/-- `ab` and a newline, written at once or in two writes: grep for `a` writes the line in the
first case and nothing in the second. -/
theorem grep_drops_split_line :
    grep (cstr "a") [cstr "ab\n"] = cstr "ab\n" ∧ grep (cstr "a") [cstr "a", cstr "b\n"] = [] := by
  decide +kernel

end Grep

end Xv6
