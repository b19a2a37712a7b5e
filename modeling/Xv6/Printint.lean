import Mathlib
import Xv6.Fs.Checkpoint

/-!
# `printint`

`printint(xx, base, sign)` of `console.c` prints an `int` through `consputc`, and
`printint(fd, xx, base, sgn)` of `printf.c` prints one through `putc(fd, ·)`: the first with
the digits `0123456789abcdef`, the second with `0123456789ABCDEF`, and otherwise alike. With
`sign` and `xx < 0` the number printed is `-xx`, negated in `int` and read as `uint`, so that
`-2147483648` gives `2147483648`; otherwise it is `xx` read as `uint`. A do-while loop writes
its digits into `buf[16]` from the last, the sign comes after them, and a second loop prints
the buffer backwards.

`numeral` is what should come out: the digits of Mathlib's `Nat.digits`, most significant
first, and one `0` for zero. `%d` is `printint(xx, 10, 1)` and prints the signed decimal
numeral of `xx`; `%x` and `%p` are `printint(xx, 16, 0)` and print the hexadecimal numeral of
`(uint)xx`; in both the buffer holds at most eleven bytes (`printint_numeral`).
-/

namespace Xv6

/-- A base `printint` is called with: the loop `x /= base` ends only for a base of two or more,
and `digits[x % base]` is one of the sixteen digits only for a base of sixteen or less. -/
structure Radix where
  val : Nat
  two_le : 2 ≤ val
  le_sixteen : val ≤ 16

/-- Base ten, of `%d`. -/
def Radix.ten : Radix := ⟨10, by decide, by decide⟩

/-- Base sixteen, of `%x` and `%p`. -/
def Radix.sixteen : Radix := ⟨16, by decide, by decide⟩

namespace Printint

/-- The loop `do{ buf[i++] = digits[x % base]; }while((x /= base) != 0);` from `x`, with `buf`
the bytes `buf[0..i)`. -/
def putDigits (digits : List UInt8) (base : Radix) (x : Nat) (buf : List UInt8) : List UInt8 :=
  let buf := buf ++ [digits.getD (x % base.val) 0]
  if x / base.val ≠ 0 then putDigits digits base (x / base.val) buf else buf
termination_by x
decreasing_by
  rename_i h
  exact Nat.div_lt_self (Nat.pos_of_ne_zero fun h0 => h (by simp [h0])) base.two_le

/-- The loop `while(--i >= 0) putc(buf[i]);` from `i`. -/
def emit (buf : List UInt8) : Nat → List UInt8
  | 0 => []
  | i + 1 => buf.getD i 0 :: emit buf i

/-- `buf[0..i)` once it is filled: the digits, then `'-'` for a negative number printed
signed. -/
def buffer (digits : List UInt8) (xx : Int32) (base : Radix) (sign : Bool) : List UInt8 :=
  let neg := sign && decide (xx < 0)
  -- `x = -xx` in `int`, then read as `uint`
  let x := if neg then (-xx).toUInt32.toNat else xx.toUInt32.toNat
  let buf := putDigits digits base x []
  if neg then buf ++ ['-'.toUInt8] else buf

/-- `printint` with the digits `digits`: the bytes it prints. -/
def print (digits : List UInt8) (xx : Int32) (base : Radix) (sign : Bool) : List UInt8 :=
  let buf := buffer digits xx base sign
  emit buf buf.length

end Printint

/-- `digits[]` of `printint` in `console.c`. -/
def kdigits : List UInt8 := cstr "0123456789abcdef"

/-- `printint(xx, base, sign)` of `console.c`: the bytes it passes to `consputc`. -/
def printint (xx : Int32) (base : Radix) (sign : Bool) : List UInt8 :=
  Printint.print kdigits xx base sign

namespace Printf

/-- `digits[]` of `printint` in `printf.c`. -/
def digits : List UInt8 := cstr "0123456789ABCDEF"

/-- `printint(fd, xx, base, sgn)` of `printf.c`: the bytes it writes to `fd`. -/
def printint (xx : Int32) (base : Radix) (sgn : Bool) : List UInt8 :=
  Printint.print digits xx base sgn

end Printf

/-! ## Numerals -/

/-- The numeral of `n` in base `b` written with `digits`: the digits of `n` most significant
first, none of them a leading zero, and the single digit zero for zero. -/
def numeral (digits : List UInt8) (b n : Nat) : List UInt8 :=
  if n = 0 then [digits.getD 0 0] else ((Nat.digits b n).map (digits.getD · 0)).reverse

/-- The signed decimal numeral of `v`. -/
def signed (digits : List UInt8) (v : Int) : List UInt8 :=
  (if v < 0 then ['-'.toUInt8] else []) ++ numeral digits 10 v.natAbs

theorem length_numeral_le {digits : List UInt8} {b n k : Nat} (hb : 1 < b) (hk : 0 < k)
    (hn : n < b ^ k) : (numeral digits b n).length ≤ k := by
  unfold numeral
  split
  · exact hk
  · rw [List.length_reverse, List.length_map]
    exact (Nat.digits_length_le_iff hb n).mpr hn

namespace Printint

variable {digits : List UInt8} {base : Radix}

/-- The digit loop writes the numeral of `x` backwards after what `buf` holds. -/
theorem putDigits_eq (x : Nat) (buf : List UInt8) :
    putDigits digits base x buf = buf ++ (numeral digits base.val x).reverse := by
  have hb : 1 < base.val := base.two_le
  fun_induction putDigits digits base x buf with
  | case1 x buf buf' hq ih =>
    -- more digits to come: the last digit of `x` is `x % base`, and the others those of
    -- `x / base`
    have hx : x ≠ 0 := fun h0 => hq (by simp [h0])
    rw [ih, List.append_assoc, List.singleton_append]
    congr 1
    simp only [numeral, hx, hq, if_false, List.reverse_reverse,
      Nat.digits_def' hb (Nat.pos_of_ne_zero hx), List.map_cons]
  | case2 x buf buf' hq =>
    simp only [buf']
    congr 1
    by_cases hx : x = 0
    · simp [numeral, hx]
    · have hlt : x < base.val := by
        have := Nat.div_eq_zero_iff.mp (not_not.mp hq)
        omega
      simp [numeral, hx, Nat.digits_of_lt base.val x hx hlt, Nat.mod_eq_of_lt hlt]

/-- The printing loop from `i` prints `buf[0..i)` backwards. -/
theorem emit_eq (buf : List UInt8) {i : Nat} (hi : i ≤ buf.length) :
    emit buf i = (buf.take i).reverse := by
  induction i with
  | zero => rfl
  | succ i ih =>
    have hlt : i < buf.length := hi
    rw [emit, ih (by omega), List.take_add_one, List.getElem?_eq_getElem hlt, Option.toList_some,
      List.reverse_append, List.reverse_singleton, List.singleton_append]
    simp [hlt]

theorem print_eq (xx : Int32) (base : Radix) (sign : Bool) :
    print digits xx base sign = (buffer digits xx base sign).reverse := by
  rw [print, emit_eq _ le_rfl, List.take_length]

/-- `-xx` read as `uint` is the magnitude of a negative `xx`, `2147483648` for `INT_MIN` … -/
theorem toNat_neg_of_neg {xx : Int32} (h : xx < 0) : (-xx).toUInt32.toNat = xx.toInt.natAbs := by
  have hlt := Int32.lt_iff_toInt_lt.mp h
  rw [Int32.toInt_zero, ← Int32.toInt_toBitVec, BitVec.toInt_eq_toNat_cond] at hlt
  rw [Int32.toUInt32_neg, UInt32.toNat_neg, ← UInt32.toNat_toBitVec, Int32.toBitVec_toUInt32,
    ← Int32.toInt_toBitVec, BitVec.toInt_eq_toNat_cond, show UInt32.size = 2 ^ 32 from rfl]
  have hb := xx.toBitVec.isLt
  by_cases hc : 2 * xx.toBitVec.toNat < 2 ^ 32 <;> simp only [hc, if_true, if_false] at hlt ⊢ <;>
    omega

/-- … and `xx` read as `uint` is the magnitude of a non-negative `xx`. -/
theorem toNat_of_not_neg {xx : Int32} (h : ¬xx < 0) : xx.toUInt32.toNat = xx.toInt.natAbs := by
  have hlt : ¬xx.toInt < 0 := fun h' => h (Int32.lt_iff_toInt_lt.mpr (by simpa using h'))
  rw [← Int32.toInt_toBitVec, BitVec.toInt_eq_toNat_cond] at hlt
  rw [← UInt32.toNat_toBitVec, Int32.toBitVec_toUInt32, ← Int32.toInt_toBitVec,
    BitVec.toInt_eq_toNat_cond]
  have hb := xx.toBitVec.isLt
  by_cases hc : 2 * xx.toBitVec.toNat < 2 ^ 32 <;> simp only [hc, if_true, if_false] at hlt ⊢ <;>
    omega

/-- The buffer printed signed: the numeral of the magnitude backwards, and `'-'` after it for
a negative number. -/
theorem buffer_signed (xx : Int32) (base : Radix) :
    buffer digits xx base true =
      (numeral digits base.val xx.toInt.natAbs).reverse ++
        (if xx.toInt < 0 then ['-'.toUInt8] else []) := by
  by_cases hneg : xx < 0
  · have hlt : xx.toInt < 0 := by simpa using Int32.lt_iff_toInt_lt.mp hneg
    have hd : decide (xx < 0) = true := decide_eq_true hneg
    simp only [buffer, hd, Bool.and_self, if_true, toNat_neg_of_neg hneg, putDigits_eq,
      List.nil_append, hlt]
  · have hlt : ¬xx.toInt < 0 := fun h' => hneg (Int32.lt_iff_toInt_lt.mpr (by simpa using h'))
    simp [buffer, hneg, hlt, putDigits_eq, toNat_of_not_neg hneg]

/-- The buffer printed unsigned: the numeral of `(uint)xx` backwards. -/
theorem buffer_unsigned (xx : Int32) (base : Radix) :
    buffer digits xx base false = (numeral digits base.val xx.toUInt32.toNat).reverse := by
  simp [buffer, putDigits_eq]

end Printint

open Printint

/-- `%d` prints the signed decimal numeral, whatever the digits. -/
theorem print_ten_signed (digits : List UInt8) (xx : Int32) :
    print digits xx .ten true = signed digits xx.toInt := by
  rw [print_eq, buffer_signed, signed, List.reverse_append, List.reverse_reverse]
  split <;> rfl

/-- `%x` prints the hexadecimal numeral of `(uint)xx`. -/
theorem print_sixteen (digits : List UInt8) (xx : Int32) :
    print digits xx .sixteen false = numeral digits 16 xx.toUInt32.toNat := by
  rw [print_eq, buffer_unsigned, List.reverse_reverse]
  rfl

/-- The buffer of `%d` holds at most ten digits and a sign: `|xx| ≤ 2 ^ 31 < 10 ^ 10`. -/
theorem length_buffer_ten (digits : List UInt8) (xx : Int32) :
    (buffer digits xx .ten true).length ≤ 11 := by
  have hlo := Int32.le_toInt xx
  have hhi := Int32.toInt_lt xx
  have habs : xx.toInt.natAbs < 10 ^ 10 := by omega
  have hlen : (numeral digits Radix.ten.val xx.toInt.natAbs).length ≤ 10 :=
    length_numeral_le (by decide) (by decide) habs
  rw [buffer_signed, List.length_append, List.length_reverse]
  split <;> simp only [List.length_singleton, List.length_nil] <;> omega

/-- The buffer of `%x` holds at most eight digits: `(uint)xx < 16 ^ 8`. -/
theorem length_buffer_sixteen (digits : List UInt8) (xx : Int32) :
    (buffer digits xx .sixteen false).length ≤ 8 := by
  have hlt : xx.toUInt32.toNat < 16 ^ 8 := xx.toUInt32.toNat_lt
  rw [buffer_unsigned, List.length_reverse]
  exact length_numeral_le (by decide) (by decide) hlt

/-- `printint` of `console.c` and of `printf.c` print exactly: `printint(xx, 10, 1)` the
signed decimal numeral of `xx`, `INT_MIN` included, and `printint(xx, 16, 0)` the hexadecimal
numeral of `(uint)xx`, without leading zeros and within `buf[16]`. -/
theorem printint_numeral (xx : Int32) :
    printint xx .ten true = signed kdigits xx.toInt ∧
      printint xx .sixteen false = numeral kdigits 16 xx.toUInt32.toNat ∧
      Printf.printint xx .ten true = signed Printf.digits xx.toInt ∧
      Printf.printint xx .sixteen false = numeral Printf.digits 16 xx.toUInt32.toNat ∧
      (buffer kdigits xx .ten true).length ≤ 16 ∧ (buffer kdigits xx .sixteen false).length ≤ 16 ∧
      (buffer Printf.digits xx .ten true).length ≤ 16 ∧
      (buffer Printf.digits xx .sixteen false).length ≤ 16 :=
  ⟨print_ten_signed kdigits xx, print_sixteen kdigits xx, print_ten_signed Printf.digits xx,
    print_sixteen Printf.digits xx, (length_buffer_ten kdigits xx).trans (by decide),
    (length_buffer_sixteen kdigits xx).trans (by decide),
    (length_buffer_ten Printf.digits xx).trans (by decide),
    (length_buffer_sixteen Printf.digits xx).trans (by decide)⟩

end Xv6
