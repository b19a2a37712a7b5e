import Xv6.Printint

/-!
# `printf`, `cprintf` and `atoi`

`printf(fd, fmt, ...)` of `printf.c` and `cprintf(fmt, ...)` of `console.c` walk the format and
print each conversion with their `printint`. `printf` remembers the `%` it saw in `state` and
handles the next byte on the next round; `cprintf` reads the byte after the `%` at once. The
arguments are the words after `fmt` on the stack, taken in turn through `ap` or `argp`, and a
`%s` takes its word as the address of a string: `Arg` is such a word together with the bytes
of the string at that address, up to its NUL.

The two loops print the same bytes for every format in which no `%` is directly followed by
`c`, given the same digits (`printf_eq_cprintf`): `printf` prints the low byte of the argument
for `%c`, while `cprintf` has no `%c` and prints the two bytes. `atoi(s)` of `ulib.c` reads back
what `printf("%d", v)` printed: `v` when it is not negative, and `0` when it is, as `atoi` stops
at the `-` (`atoi_printf_d`).
-/

namespace Xv6

/-- An argument word, with the bytes of the string at that address up to its NUL, which a `%s`
prints. -/
structure Arg where
  word : UInt32
  str : List UInt8

/-- What `%s` prints of its argument: `(null)` for the null pointer. -/
def Arg.string (a : Arg) : List UInt8 := if a.word = 0 then cstr "(null)" else a.str

namespace Printf

/-- The loop of `printf(fd, fmt, ...)` from a byte of the format, with `state` whether the byte
before was a `%` and `ap` the index of the next argument word: the bytes it writes to `fd`.
`digits` is the table of `printint`. -/
def loop (digits : List UInt8) (args : Nat → Arg) : List UInt8 → Bool → Nat → List UInt8
  | [], _, _ => []
  | c :: fmt, state, ap =>
    if c = 0 then []
    else if !state then
      if c = '%'.toUInt8 then loop digits args fmt true ap
      else c :: loop digits args fmt false ap
    else if c = 'd'.toUInt8 then
      Printint.print digits (args ap).word.toInt32 .ten true ++ loop digits args fmt false (ap + 1)
    else if c = 'x'.toUInt8 ∨ c = 'p'.toUInt8 then
      Printint.print digits (args ap).word.toInt32 .sixteen false ++
        loop digits args fmt false (ap + 1)
    else if c = 's'.toUInt8 then (args ap).string ++ loop digits args fmt false (ap + 1)
    else if c = 'c'.toUInt8 then (args ap).word.toUInt8 :: loop digits args fmt false (ap + 1)
    else if c = '%'.toUInt8 then c :: loop digits args fmt false ap
    -- an unknown conversion: the `%` and the byte
    else '%'.toUInt8 :: c :: loop digits args fmt false ap

end Printf

/-- `printf(fd, fmt, ...)`: the bytes written to `fd`, with the digits of `printf.c`. -/
def printf (fmt : List UInt8) (args : Nat → Arg) : List UInt8 :=
  Printf.loop Printf.digits args fmt false 0

namespace Cprintf

/-- The loop of `cprintf(fmt, ...)` from a byte of the format, with `argp` the index of the next
argument word: the bytes it passes to `consputc`. A `%` at the end of the format stops it. -/
def loop (digits : List UInt8) (args : Nat → Arg) : List UInt8 → Nat → List UInt8
  | [], _ => []
  | c :: fmt, argp =>
    if c = 0 then []
    else if c ≠ '%'.toUInt8 then c :: loop digits args fmt argp
    else
      match fmt with
      | [] => []
      | c :: fmt =>
        if c = 0 then []
        else if c = 'd'.toUInt8 then
          Printint.print digits (args argp).word.toInt32 .ten true ++
            loop digits args fmt (argp + 1)
        else if c = 'x'.toUInt8 ∨ c = 'p'.toUInt8 then
          Printint.print digits (args argp).word.toInt32 .sixteen false ++
            loop digits args fmt (argp + 1)
        else if c = 's'.toUInt8 then (args argp).string ++ loop digits args fmt (argp + 1)
        else if c = '%'.toUInt8 then '%'.toUInt8 :: loop digits args fmt argp
        else '%'.toUInt8 :: c :: loop digits args fmt argp

end Cprintf

/-- `cprintf(fmt, ...)`: the bytes passed to `consputc`, with the digits of `console.c`. -/
def cprintf (fmt : List UInt8) (args : Nat → Arg) : List UInt8 :=
  Cprintf.loop kdigits args fmt 0

namespace Printf

variable {digits : List UInt8} {args : Nat → Arg} {fmt : List UInt8} {ap : Nat}

/-- A byte that is neither the NUL nor a `%` is printed as it is. -/
theorem loop_plain {c : UInt8} (h0 : c ≠ 0) (hpct : c ≠ '%'.toUInt8) :
    loop digits args (c :: fmt) false ap = c :: loop digits args fmt false ap := by
  simp [loop, h0, hpct]

/-- `%d` prints the next argument word as a signed decimal. -/
theorem loop_pct_d :
    loop digits args ('%'.toUInt8 :: 'd'.toUInt8 :: fmt) false ap =
      Printint.print digits (args ap).word.toInt32 .ten true ++ loop digits args fmt false (ap + 1) := by
  have h0 : '%'.toUInt8 ≠ 0 := by decide
  have hd : 'd'.toUInt8 ≠ 0 := by decide
  simp [loop, h0, hd]

/-- `%s` prints the string at the next argument word. -/
theorem loop_pct_s :
    loop digits args ('%'.toUInt8 :: 's'.toUInt8 :: fmt) false ap =
      (args ap).string ++ loop digits args fmt false (ap + 1) := by
  have h0 : '%'.toUInt8 ≠ 0 := by decide
  have hs : 's'.toUInt8 ≠ 0 := by decide
  have hsd : 's'.toUInt8 ≠ 'd'.toUInt8 := by decide
  have hsx : ¬('s'.toUInt8 = 'x'.toUInt8 ∨ 's'.toUInt8 = 'p'.toUInt8) := by decide
  simp [loop, h0, hs, hsd, hsx]

end Printf

/-! ## `printf` against `cprintf` -/

/-- No `%` of the format is directly followed by `c`. -/
def NoPctC : List UInt8 → Bool
  | a :: b :: l => !(a = '%'.toUInt8 && b = 'c'.toUInt8) && NoPctC (b :: l)
  | _ => true

theorem noPctC_tail {a : UInt8} {l : List UInt8} (h : NoPctC (a :: l) = true) : NoPctC l = true := by
  cases l with
  | nil => rfl
  | cons b l =>
    simp only [NoPctC, Bool.and_eq_true] at h
    exact h.2

/-- The two loops agree on every format with no `%c`, given the same digits: `printf`'s state
machine and `cprintf`'s look-ahead read the format the same way. -/
theorem printf_eq_cprintf (digits : List UInt8) (args : Nat → Arg) (fmt : List UInt8)
    (ap : Nat) (h : NoPctC fmt = true) :
    Printf.loop digits args fmt false ap = Cprintf.loop digits args fmt ap := by
  -- one case per branch of `cprintf`'s loop, whose equations split on its look-ahead;
  -- `printf` takes each in two rounds
  induction fmt, ap using Cprintf.loop.induct with
  | case1 ap => rfl
  | case2 fmt ap =>
    rw [Cprintf.loop.eq_def]
    simp [Printf.loop]
  | case3 c fmt ap hc hpct ih =>
    rw [Cprintf.loop.eq_def]
    simp [Printf.loop, hc, hpct, ih (noPctC_tail h)]
  | case4 c ap _ hpct =>
    rw [Cprintf.loop.eq_def]
    simp [Printf.loop, not_not.1 hpct]
  | case5 c ap _ hpct fmt =>
    rw [Cprintf.loop.eq_def]
    simp [Printf.loop, not_not.1 hpct]
  | case6 c ap _ hpct fmt _ ih =>
    rw [Cprintf.loop.eq_def]
    simp [Printf.loop, not_not.1 hpct, ih (noPctC_tail (noPctC_tail h))]
  | case7 c ap _ hpct d fmt h0 hd hxp ih =>
    rw [Cprintf.loop.eq_def]
    simp [Printf.loop, not_not.1 hpct, h0, hd, hxp, ih (noPctC_tail (noPctC_tail h))]
  | case8 c ap _ hpct fmt _ _ _ ih =>
    rw [Cprintf.loop.eq_def]
    simp [Printf.loop, not_not.1 hpct, ih (noPctC_tail (noPctC_tail h))]
  | case9 c ap _ hpct fmt h0 hd hxp hs ih =>
    have hc' : '%'.toUInt8 ≠ 'c'.toUInt8 := by decide
    rw [Cprintf.loop.eq_def]
    simp [Printf.loop, not_not.1 hpct, h0, hd, hxp, hs, hc', ih (noPctC_tail (noPctC_tail h))]
  | case10 c ap hc hpct d fmt h0 hd hxp hs hp ih =>
    -- an unknown conversion: `printf` has one more, `%c`, which the format does not hold
    obtain rfl : c = '%'.toUInt8 := not_not.1 hpct
    have hdc : d ≠ 'c'.toUInt8 := by
      simp only [NoPctC, Bool.and_eq_true, Bool.not_eq_true', Bool.and_eq_false_iff,
        decide_eq_false_iff_not] at h
      exact h.1.resolve_left (by simp)
    rw [Cprintf.loop.eq_def]
    simp [Printf.loop, hc, h0, hd, hxp, hs, hp, hdc, ih (noPctC_tail (noPctC_tail h))]

/-- The boot message of `mpmain` reads the same through both loops. -/
theorem printf_eq_cprintf_mpmain :
    NoPctC (cstr "cpu%d: starting\n") = true ∧
      Printf.loop kdigits (fun _ => ⟨1, []⟩) (cstr "cpu%d: starting\n") false 0 =
        Cprintf.loop kdigits (fun _ => ⟨1, []⟩) (cstr "cpu%d: starting\n") 0 :=
  ⟨by decide, printf_eq_cprintf _ _ _ _ (by decide)⟩

/-! ## `atoi` -/

/-- The loop of `atoi(s)`: `while('0' <= *s && *s <= '9') n = n*10 + *s++ - '0';`, on the bits
of the `int` `n`. -/
def atoiLoop (n : Nat) : List UInt8 → Nat
  | [] => n
  | c :: s =>
    if '0'.toUInt8 ≤ c ∧ c ≤ '9'.toUInt8 then atoiLoop ((n * 10 + c.toNat - 48) % 2 ^ 32) s
    else n

/-- `atoi(s)`. -/
def atoi (s : List UInt8) : Int32 := Int32.ofNat (atoiLoop 0 s)

/-- The decimal digit `d` in ASCII. -/
def digitByte (d : Nat) : UInt8 := UInt8.ofNat (48 + d)

/-- `n * 10 + d` for each digit `d` in turn, the most significant first. -/
def horner (n : Nat) (ds : List Nat) : Nat := ds.foldl (fun a d => a * 10 + d) n

theorem horner_modEq {x y : Nat} {k : Nat} (ds : List Nat) (h : x ≡ y [MOD k]) :
    horner x ds ≡ horner y ds [MOD k] := by
  induction ds generalizing x y with
  | nil => exact h
  | cons d ds ih => exact ih ((h.mul_right 10).add_right d)

/-- Read most significant first, the digits `L` of Mathlib's little-endian `ofDigits`. -/
theorem horner_reverse (n : Nat) (L : List Nat) :
    horner n L.reverse = n * 10 ^ L.length + Nat.ofDigits 10 L := by
  induction L with
  | nil => simp [horner]
  | cons d L ih =>
    have hstep : horner n (d :: L).reverse = horner n L.reverse * 10 + d := by
      simp [horner, List.foldl_append]
    rw [hstep, ih, Nat.ofDigits_cons, List.length_cons, pow_succ]
    ring

/-- `atoi`'s loop reads the digits, each step keeping the `int` to 32 bits. -/
theorem atoiLoop_digits {n : Nat} (hn : n < 2 ^ 32) {ds : List Nat} (hds : ∀ d ∈ ds, d < 10)
    (rest : List UInt8) :
    atoiLoop n (ds.map digitByte ++ rest) = atoiLoop (horner n ds % 2 ^ 32) rest := by
  induction ds generalizing n with
  | nil => rw [List.map_nil, List.nil_append, horner, List.foldl_nil, Nat.mod_eq_of_lt hn]
  | cons d ds ih =>
    have hd : d < 10 := hds d List.mem_cons_self
    have hbyte : (digitByte d).toNat = 48 + d := by
      rw [digitByte, UInt8.toNat_ofNat', Nat.mod_eq_of_lt (by omega)]
    have hdigit : '0'.toUInt8 ≤ digitByte d ∧ digitByte d ≤ '9'.toUInt8 := by
      have h0 : '0'.toUInt8.toNat = 48 := by decide
      have h9 : '9'.toUInt8.toNat = 57 := by decide
      rw [UInt8.le_iff_toNat_le, UInt8.le_iff_toNat_le, hbyte, h0, h9]
      omega
    rw [List.map_cons, List.cons_append, atoiLoop, if_pos hdigit, hbyte,
      ih (Nat.mod_lt _ (by decide)) fun d hd => hds d (List.mem_cons_of_mem _ hd)]
    congr 1
    -- the wrap of each step is the wrap of the whole
    have hmod : (n * 10 + (48 + d) - 48) % 2 ^ 32 ≡ n * 10 + d [MOD 2 ^ 32] := by
      rw [show n * 10 + (48 + d) - 48 = n * 10 + d by omega]
      exact Nat.mod_modEq _ _
    exact horner_modEq ds hmod

/-- `atoi` stops at a byte that is not a digit. -/
theorem atoiLoop_stop {n : Nat} {rest : List UInt8}
    (h : ∀ c ∈ rest.head?, ¬('0'.toUInt8 ≤ c ∧ c ≤ '9'.toUInt8)) : atoiLoop n rest = n := by
  cases rest with
  | nil => rfl
  | cons c rest => rw [atoiLoop, if_neg (h c rfl)]

/-- The numeral `printf` prints in base ten is the ASCII of the digits. -/
theorem numeral_ten (m : Nat) :
    numeral Printf.digits 10 m =
      (if m = 0 then [0] else (Nat.digits 10 m).reverse).map digitByte := by
  have htable : ∀ d : Fin 10, Printf.digits.getD d 0 = digitByte d := by decide +kernel
  unfold numeral
  split
  · exact congrArg (· :: []) (htable 0)
  · rw [List.map_reverse, List.map_congr_left fun d hd =>
      htable ⟨d, Nat.digits_lt_base (by decide) hd⟩]

/-- **`atoi` reads back `%d`.** Whatever follows the number, if it is not a digit: a value that
is not negative comes back, and a negative one reads as `0`, since `atoi` stops at the `-`. -/
theorem atoi_printf_d (v : Int32) (args : Nat → Arg) (hv : (args 0).word = v.toUInt32)
    (rest : List UInt8) (hrest : ∀ c ∈ rest.head?, ¬('0'.toUInt8 ≤ c ∧ c ≤ '9'.toUInt8)) :
    atoi (printf (cstr "%d") args ++ rest) = if v < 0 then 0 else v := by
  have hp : printf (cstr "%d") args = signed Printf.digits v.toInt := by
    have hfmt : cstr "%d" = ['%'.toUInt8, 'd'.toUInt8] := by decide
    rw [← print_ten_signed, ← Int32.toInt32_toUInt32 v, ← hv, printf, hfmt, Printf.loop_pct_d,
      Printf.loop, List.append_nil]
  have hlt : v < 0 ↔ v.toInt < 0 := by rw [Int32.lt_iff_toInt_lt, Int32.toInt_zero]
  rw [hp, signed]
  by_cases hneg : v < 0
  · rw [if_pos (hlt.1 hneg), if_pos hneg, atoi, List.singleton_append, List.cons_append, atoiLoop,
      if_neg (by decide)]
    rfl
  · rw [if_neg (mt hlt.2 hneg), if_neg hneg, List.nil_append, atoi, numeral_ten]
    -- the digits of `|v| < 2 ^ 31`, and nothing wraps
    have hnn : 0 ≤ v.toInt := by
      have := mt hlt.2 hneg
      omega
    have habs : v.toInt.natAbs < 2 ^ 31 := by
      have := Int32.toInt_lt v
      omega
    have hread : atoiLoop 0 ((if v.toInt.natAbs = 0 then [0]
        else (Nat.digits 10 v.toInt.natAbs).reverse).map digitByte ++ rest) =
        v.toInt.natAbs := by
      split
      · rename_i h0
        rw [atoiLoop_digits (by decide) (by simp) rest, atoiLoop_stop hrest, h0]
        rfl
      · rw [atoiLoop_digits (by decide) (fun d hd =>
          Nat.digits_lt_base (by decide) (List.mem_reverse.1 hd)) rest, atoiLoop_stop hrest,
          horner_reverse, Nat.ofDigits_digits, zero_mul, zero_add, Nat.mod_eq_of_lt (by omega)]
    rw [hread]
    apply Int32.toInt_inj.1
    rw [Int32.toInt_ofNat_of_lt habs]
    omega

/-- `atoi` of the `%d` of `-7`, before a NUL: `0`. -/
theorem atoi_printf_d_neg :
    ((fun _ => (⟨(-7 : Int32).toUInt32, []⟩ : Arg)) 0).word = (-7 : Int32).toUInt32 ∧
      atoi (printf (cstr "%d") (fun _ => ⟨(-7 : Int32).toUInt32, []⟩) ++ [0]) =
        if (-7 : Int32) < 0 then 0 else -7 :=
  ⟨rfl, atoi_printf_d (-7) _ rfl [0] fun c hc => by
    rw [Option.mem_def, List.head?_cons, Option.some.injEq] at hc
    subst hc
    decide⟩

end Xv6
