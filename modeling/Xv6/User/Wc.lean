import Xv6.User.Printf
import Xv6.User.Grep

/-!
# `wc`

`wc(fd, name)` reads the file in chunks of at most `sizeof(buf)` bytes until `read` returns `0`,
and counts across the chunks the bytes, the newlines and the words: a word begins at a byte
that `strchr(" \r\t\n\v", ·)` does not find, when `inword` says that the byte before ended no
word. `inword` carries a word over the end of a chunk.

Whatever chunks `read` returns, the counts are those of the whole contents: their length, their
newlines, and the number of their maximal runs of bytes that are not blanks, as Mathlib's
`List.splitOnP` cuts them (`count_spec`, `countChunks_eq`). Below `2 ^ 31` bytes, where no `int`
wraps, the line `wc` prints holds the decimal numerals of the three and the name
(`wc_counts`).
-/

namespace Xv6

namespace Wc

/-- The blanks of `wc`, `" \r\t\n\v"`. -/
def blanks : List UInt8 := [0x20, 0x0D, 0x09, 0x0A, 0x0B]

/-- `strchr(" \r\t\n\v", b)` is not null: the NUL byte is not a blank, as `strchr` stops at the
string's NUL before comparing it. -/
def isBlank (b : UInt8) : Bool := (Grep.strchr blanks b).isSome

/-- `l`, `w`, `c` and `inword`. -/
structure Counts where
  l : Nat
  w : Nat
  c : Nat
  inword : Bool

/-- One round of the inner loop, on the byte `buf[i]`. -/
def count (st : Counts) (b : UInt8) : Counts :=
  let st := { st with c := st.c + 1 }
  let st := if b = '\n'.toUInt8 then { st with l := st.l + 1 } else st
  if isBlank b then { st with inword := false }
  else if !st.inword then { st with w := st.w + 1, inword := true }
  else st

/-- How the loop of `read`s ends: `0` at the end of the file, or a negative count. -/
inductive ReadEnd where
  | eof
  | error
  deriving DecidableEq, Repr

/-- The outer loop, over the chunks the `read`s return. -/
def countChunks (st : Counts) (chunks : List (List UInt8)) : Counts :=
  chunks.foldl (fun st chunk => chunk.foldl count st) st

/-- The word pushed for an `int` counter. -/
def intArg (n : Nat) : Arg := ⟨(Int32.ofNat n).toUInt32, []⟩

end Wc

open Wc in
/-- `wc(fd, name)`: what it writes to the standard output, with `name` the argument word of the
name and the string there. -/
def wc (chunks : List (List UInt8)) (last : Wc.ReadEnd) (name : Arg) : List UInt8 :=
  let st := countChunks ⟨0, 0, 0, false⟩ chunks
  match last with
  | .error => printf (cstr "wc: read error\n") fun _ => ⟨0, []⟩
  | .eof =>
    printf (cstr "%d %d %d %s\n") fun i =>
      [intArg st.l, intArg st.w, intArg st.c, name].getD i ⟨0, []⟩

namespace Wc

/-! ## The counts -/

/-- The words of `xs`: its maximal runs of bytes that are not blanks. -/
def words (xs : List UInt8) : List (List UInt8) := (xs.splitOnP isBlank).filter (· ≠ [])

/-- `xs` begins with a byte that is not a blank. -/
def startsWord : List UInt8 → Bool
  | b :: _ => !isBlank b
  | [] => false

/-- The first piece `splitOnP` cuts is a word exactly when the bytes begin with one. -/
theorem splitOnP_eq_cons (xs : List UInt8) :
    ∃ p ps, xs.splitOnP isBlank = p :: ps ∧ (p ≠ [] ↔ startsWord xs = true) := by
  cases xs with
  | nil => exact ⟨[], [], List.splitOnP_nil, by simp [startsWord]⟩
  | cons b xs =>
    rw [List.splitOnP_cons_eq_if_modifyHead]
    by_cases hb : isBlank b = true
    · exact ⟨[], _, by rw [if_pos hb], by simp [startsWord, hb]⟩
    · obtain ⟨p, ps, hp⟩ := List.exists_cons_of_ne_nil (List.splitOnP_ne_nil isBlank xs)
      refine ⟨b :: p, ps, by rw [if_neg hb, hp, List.modifyHead_cons], ?_⟩
      simp [startsWord, hb]

theorem words_cons_blank {b : UInt8} (hb : isBlank b = true) (xs : List UInt8) :
    words (b :: xs) = words xs := by
  rw [words, List.splitOnP_cons_eq_if_modifyHead, if_pos hb, List.filter_cons_of_neg (by simp),
    words]

/-- A byte that is not a blank begins a word, or joins the one the bytes after it begin. -/
theorem length_words_cons {b : UInt8} (hb : isBlank b = false) (xs : List UInt8) :
    (words (b :: xs)).length + (if startsWord xs then 1 else 0) = (words xs).length + 1 := by
  obtain ⟨p, ps, hp, hword⟩ := splitOnP_eq_cons xs
  rw [words, words, List.splitOnP_cons_eq_if_modifyHead, if_neg (by simp [hb]), hp,
    List.modifyHead_cons, List.filter_cons_of_pos (by simp)]
  by_cases hs : startsWord xs = true
  · rw [List.filter_cons_of_pos (by simpa using hword.2 hs), if_pos hs]
    simp
  · rw [List.filter_cons_of_neg (by simpa using mt hword.1 hs), if_neg hs]
    simp

@[simp] theorem count_c (st : Counts) (b : UInt8) : (count st b).c = st.c + 1 := by
  unfold count
  dsimp only
  split_ifs <;> rfl

@[simp] theorem count_l (st : Counts) (b : UInt8) :
    (count st b).l = st.l + if b = '\n'.toUInt8 then 1 else 0 := by
  unfold count
  dsimp only
  split_ifs <;> rfl

@[simp] theorem count_w (st : Counts) (b : UInt8) :
    (count st b).w = st.w + if isBlank b = false ∧ st.inword = false then 1 else 0 := by
  unfold count
  dsimp only
  split_ifs <;> simp_all

@[simp] theorem count_inword (st : Counts) (b : UInt8) : (count st b).inword = !isBlank b := by
  unfold count
  dsimp only
  split_ifs <;> simp_all

/-- **The loop counts the bytes, the newlines and the words.** From any counts, the bytes `xs`
add their length and their newlines, and their words but for one that continues the word the
counts were in. -/
theorem count_spec (st : Counts) (xs : List UInt8) :
    (xs.foldl count st).c = st.c + xs.length ∧
      (xs.foldl count st).l = st.l + xs.count '\n'.toUInt8 ∧
      (xs.foldl count st).w + (if st.inword ∧ startsWord xs then 1 else 0) =
        st.w + (words xs).length := by
  induction xs generalizing st with
  | nil => simp [words, startsWord]
  | cons b xs ih =>
    obtain ⟨hc, hl, hw⟩ := ih (count st b)
    rw [List.foldl_cons]
    refine ⟨by rw [hc, count_c, List.length_cons]; omega, ?_, ?_⟩
    · rw [hl, count_l, List.count_cons]
      by_cases hn : b = '\n'.toUInt8 <;> simp [hn]
      omega
    · -- a blank ends the word; a byte that is not one begins a word unless `inword`
      rw [count_w, count_inword] at hw
      cases hb : isBlank b with
      | true =>
        have hstart : startsWord (b :: xs) = false := by simp [startsWord, hb]
        simp only [hb, Bool.not_true, Bool.true_eq_false, Bool.false_eq_true, false_and,
          if_false, add_zero] at hw
        rw [words_cons_blank hb, hstart, ← hw]
        simp
      | false =>
        have hlen := length_words_cons hb xs
        have hstart : startsWord (b :: xs) = true := by simp [startsWord, hb]
        simp only [hb, Bool.not_false, true_and] at hw
        rw [hstart]
        -- whether the bytes after `b` begin a word, and whether `b` continues one
        by_cases hs : startsWord xs = true <;> cases hin : st.inword <;>
          simp only [hs, hin, if_true, if_false, Bool.false_eq_true, Bool.true_eq_false, and_self,
            and_true] at hw hlen ⊢ <;> omega

/-- The chunks count as their concatenation. -/
theorem countChunks_eq (st : Counts) (chunks : List (List UInt8)) :
    countChunks st chunks = chunks.flatten.foldl count st := by
  rw [countChunks, List.foldl_flatten]

/-- Each byte adds at most one word. -/
theorem foldl_count_w_le (st : Counts) (xs : List UInt8) : (xs.foldl count st).w ≤ st.w + xs.length := by
  induction xs generalizing st with
  | nil => simp
  | cons b xs ih =>
    have := ih (count st b)
    rw [count_w] at this
    rw [List.foldl_cons, List.length_cons]
    split at this <;> omega

/-- A counter below `2 ^ 31` prints as its decimal numeral. -/
theorem print_intArg {n : Nat} (hn : n < 2 ^ 31) :
    Printint.print Printf.digits (intArg n).word.toInt32 .ten true = numeral Printf.digits 10 n := by
  rw [intArg, Int32.toInt32_toUInt32, print_ten_signed, signed, Int32.toInt_ofNat_of_lt hn]
  simp

end Wc

open Wc

/-- **`wc` prints the counts of the whole file.** However `read` cuts the file into chunks, a
file of fewer than `2 ^ 31` bytes gets its newlines, its words (the maximal runs of bytes that are
not blanks) and its bytes, in decimal, then the name. -/
theorem wc_counts (chunks : List (List UInt8)) (name : Arg) (hname : name.word ≠ 0)
    (hsize : chunks.flatten.length < 2 ^ 31) :
    wc chunks .eof name =
      numeral Printf.digits 10 (chunks.flatten.count '\n'.toUInt8) ++ ' '.toUInt8 ::
        (numeral Printf.digits 10 (words chunks.flatten).length ++ ' '.toUInt8 ::
          (numeral Printf.digits 10 chunks.flatten.length ++ ' '.toUInt8 ::
            (name.str ++ ['\n'.toUInt8]))) := by
  obtain ⟨hc, hl, hw⟩ := count_spec ⟨0, 0, 0, false⟩ chunks.flatten
  have hwle := foldl_count_w_le ⟨0, 0, 0, false⟩ chunks.flatten
  simp only [Bool.false_eq_true, false_and, if_false, add_zero, zero_add] at hc hl hw hwle
  -- the three counters are below `2 ^ 31`, so none wraps
  have hlle : chunks.flatten.count '\n'.toUInt8 ≤ chunks.flatten.length := List.count_le_length
  have hfmt : cstr "%d %d %d %s\n" = ['%'.toUInt8, 'd'.toUInt8, ' '.toUInt8, '%'.toUInt8,
      'd'.toUInt8, ' '.toUInt8, '%'.toUInt8, 'd'.toUInt8, ' '.toUInt8, '%'.toUInt8, 's'.toUInt8,
      '\n'.toUInt8] := by decide
  have hsp : ' '.toUInt8 ≠ 0 ∧ ' '.toUInt8 ≠ '%'.toUInt8 := by decide
  have hnl : '\n'.toUInt8 ≠ 0 ∧ '\n'.toUInt8 ≠ '%'.toUInt8 := by decide
  rw [wc, countChunks_eq, printf, hfmt]
  simp only [Printf.loop_pct_d, Printf.loop_pct_s, Printf.loop_plain hsp.1 hsp.2,
    Printf.loop_plain hnl.1 hnl.2, Printf.loop.eq_1, List.getD_cons_zero, List.getD_cons_succ]
  rw [hl, hc, ← hw, print_intArg (by omega), print_intArg (by omega), print_intArg (by omega),
    Arg.string, if_neg hname]

/-- Three chunks that cut the words `hello` and `world`: one line, two words, twelve bytes. -/
theorem wc_counts_chunks :
    (⟨1, cstr "f"⟩ : Arg).word ≠ 0 ∧ [cstr "hel", cstr "lo wo", cstr "rld\n"].flatten.length < 2 ^ 31 ∧
      wc [cstr "hel", cstr "lo wo", cstr "rld\n"] .eof ⟨1, cstr "f"⟩ =
        numeral Printf.digits 10 ([cstr "hel", cstr "lo wo", cstr "rld\n"].flatten.count '\n'.toUInt8) ++
          ' '.toUInt8 :: (numeral Printf.digits 10 (words [cstr "hel", cstr "lo wo", cstr "rld\n"].flatten).length ++
            ' '.toUInt8 :: (numeral Printf.digits 10 [cstr "hel", cstr "lo wo", cstr "rld\n"].flatten.length ++
              ' '.toUInt8 :: (cstr "f" ++ ['\n'.toUInt8]))) :=
  ⟨by decide, by decide, wc_counts _ _ (by decide) (by decide)⟩

end Xv6
