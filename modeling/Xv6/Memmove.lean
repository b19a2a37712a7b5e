import Xv6.Vm.Mmu

/-!
# `memmove`

`memmove(dst, src, n)` of `string.c` copies `n` bytes from `src` to `dst` in one of two
loops: down from the ends when the source starts below the destination and runs into it
(`s < d && s + n > d`), up from the starts otherwise. The `memmove` of `ulib.c`, which the user
programs link, always copies up.

The loops run here on a `Block`, with the pointers as byte addresses compared as C compares
pointers into one object: `s + n` is the end of the source and lies above every byte of it.
`Block.copy` says what moving means, every byte read before any is written. The kernel's
`memmove` is that copy for every `n`, `src` and `dst` (`memmove_eq_copy`). Each loop reads no
byte it has already written, provided the copy goes away from the overlap: up when the
destination starts below the source, down when above (`moveUp_eq_copy`, `moveDown_eq_copy`).
The user's `memmove` copies up into a destination that the source runs into from below, and
then repeats the first `dst - src` bytes of the source over the whole destination
(`Ulib.moveUp_period`).
-/

namespace Xv6

namespace Block

/-- The loop `while(n-- > 0) *d++ = *s++;` from the starts `d` and `s`. -/
def moveUp (m : Block) (d s : Nat) : Nat → Block
  | 0 => m
  | n + 1 => moveUp (Function.update m d (m s)) (d + 1) (s + 1) n

/-- The loop `while(n-- > 0) *--d = *--s;` from the ends `d` and `s`. -/
def moveDown (m : Block) (d s : Nat) : Nat → Block
  | 0 => m
  | n + 1 => moveDown (Function.update m (d - 1) (m (s - 1))) (d - 1) (s - 1) n

section Copy

variable (m : Block) {d s n j : Nat}

theorem copy_of_mem (h1 : d ≤ j) (h2 : j < d + n) : m.copy d s n j = m (s + (j - d)) := by
  simp [copy, h1, h2]

theorem copy_of_not_mem (h : j < d ∨ d + n ≤ j) : m.copy d s n j = m j := by
  have : ¬(d ≤ j ∧ j < d + n) := by omega
  simp only [copy, this, if_false]

@[simp] theorem copy_zero (d s : Nat) : m.copy d s 0 = m := by
  funext j
  exact copy_of_not_mem m (by omega)

/-- The first round of the copy up: the rest of the copy reads no byte this round wrote,
unless the destination starts inside the rest of the source. -/
theorem copy_succ_update (h : ¬(s < d ∧ d ≤ s + n)) :
    Block.copy (Function.update m d (m s)) (d + 1) (s + 1) n = m.copy d s (n + 1) := by
  funext j
  by_cases hj : d + 1 ≤ j ∧ j < d + 1 + n
  · -- a later byte: its source is not `d`
    have hsrc : s + 1 + (j - (d + 1)) ≠ d := by omega
    rw [copy_of_mem _ hj.1 hj.2, Function.update_of_ne hsrc, copy_of_mem m (by omega) (by omega)]
    congr 1
    omega
  · by_cases hjd : j = d
    · subst hjd
      rw [copy_of_not_mem _ (by omega), Function.update_self, copy_of_mem m le_rfl (by omega)]
      simp
    · rw [copy_of_not_mem _ (by omega), Function.update_of_ne hjd, copy_of_not_mem m (by omega)]

/-- The last round of the copy down: the copy below reads no byte this round wrote, unless
the source starts inside the destination below it. -/
theorem copy_update_last (h : ¬(d < s ∧ s ≤ d + n)) :
    Block.copy (Function.update m (d + n) (m (s + n))) d s n = m.copy d s (n + 1) := by
  funext j
  by_cases hj : d ≤ j ∧ j < d + n
  · have hsrc : s + (j - d) ≠ d + n := by omega
    rw [copy_of_mem _ hj.1 hj.2, Function.update_of_ne hsrc, copy_of_mem m hj.1 (by omega)]
  · by_cases hjd : j = d + n
    · subst hjd
      rw [copy_of_not_mem _ (by omega), Function.update_self, copy_of_mem m (by omega) (by omega)]
      congr 1
      omega
    · rw [copy_of_not_mem _ (by omega), Function.update_of_ne hjd, copy_of_not_mem m (by omega)]

end Copy

/-- The copy up is a move when the destination does not start inside the source above its
start. -/
theorem moveUp_eq_copy (m : Block) {d s n : Nat} (h : ¬(s < d ∧ d < s + n)) :
    m.moveUp d s n = m.copy d s n := by
  induction n generalizing m d s with
  | zero => simp [moveUp]
  | succ n ih =>
    have hrest : ¬(s + 1 < d + 1 ∧ d + 1 < s + 1 + n) := by omega
    rw [moveUp, ih _ hrest, copy_succ_update m (by omega)]

/-- The copy down, from the ends, is a move when the source does not start inside the
destination above its start. -/
theorem moveDown_eq_copy (m : Block) {d s n : Nat} (h : ¬(d < s ∧ s < d + n)) :
    m.moveDown (d + n) (s + n) n = m.copy d s n := by
  induction n generalizing m with
  | zero => simp [moveDown]
  | succ n ih =>
    have hd : d + (n + 1) - 1 = d + n := by omega
    have hs : s + (n + 1) - 1 = s + n := by omega
    have hrest : ¬(d < s ∧ s < d + n) := by omega
    rw [moveDown, hd, hs, ih _ hrest, copy_update_last m (by omega)]

/-- The copy up writes only from `d` on. -/
theorem moveUp_of_lt (m : Block) {d s j : Nat} (n : Nat) (h : j < d) : m.moveUp d s n j = m j := by
  induction n generalizing m d s with
  | zero => rfl
  | succ n ih =>
    rw [moveUp, ih _ (by omega), Function.update_of_ne (by omega)]

end Block

open Block

/-- `memmove(dst, src, n)` of `string.c`. -/
def memmove (m : Block) (dst src n : Nat) : Block :=
  if src < dst ∧ src + n > dst then m.moveDown (dst + n) (src + n) n
  else m.moveUp dst src n

/-- `memcpy(dst, src, n)`: `memmove`. -/
def memcpy (m : Block) (dst src n : Nat) : Block := memmove m dst src n

/-- The kernel's `memmove` moves: whatever the overlap, the destination gets the bytes the
source held before the call. -/
theorem memmove_eq_copy (m : Block) (dst src n : Nat) : memmove m dst src n = m.copy dst src n := by
  unfold memmove
  split
  · -- the source runs into the destination from below: the loop down reads ahead of its writes
    exact moveDown_eq_copy m (by omega)
  · exact moveUp_eq_copy m (by omega)

/-- The bytes of the region at `dst` after `memmove` are those of the region at `src` before,
and no other byte changes. -/
theorem memmove_region (m : Block) (dst src n : Nat) :
    (∀ i < n, memmove m dst src n (dst + i) = m (src + i)) ∧
      ∀ j, (j < dst ∨ dst + n ≤ j) → memmove m dst src n j = m j := by
  rw [memmove_eq_copy]
  refine ⟨fun i hi => ?_, fun j hj => copy_of_not_mem m hj⟩
  rw [copy_of_mem m (by omega) (by omega), Nat.add_sub_cancel_left]

namespace Ulib

/-- `memmove(vdst, vsrc, n)` of `ulib.c`: the copy up, of nothing for `n ≤ 0`. -/
def memmove (m : Block) (vdst vsrc : Nat) (n : Int) : Block := m.moveUp vdst vsrc n.toNat

/-- The user's `memmove` moves when the source does not run into the destination from
below; in particular when the destination starts below the source, as in `grep`. -/
theorem memmove_eq_copy (m : Block) {vdst vsrc : Nat} {n : Int}
    (h : ¬(vsrc < vdst ∧ vdst < vsrc + n.toNat)) :
    memmove m vdst vsrc n = m.copy vdst vsrc n.toNat :=
  moveUp_eq_copy m h

/-- The copy up into a destination that the source runs into from below: once the copy has
passed `d`, it reads bytes it wrote itself, and the destination holds the first `d - s` bytes
of the source over and over. -/
theorem moveUp_period (m : Block) {d s n : Nat} (h : s < d) :
    ∀ k < n, m.moveUp d s n (d + k) = m (s + k % (d - s)) := by
  induction n generalizing m d s with
  | zero => intro k hk; omega
  | succ n ih =>
    intro k hk
    rw [moveUp]
    cases k with
    | zero =>
      -- the first byte is written once, and the later rounds write above it
      simp only [Nat.add_zero, Nat.zero_mod]
      rw [moveUp_of_lt _ n (Nat.lt_succ_self d), Function.update_self]
    | succ k =>
      have hp : d + 1 - (s + 1) = d - s := by omega
      rw [show d + (k + 1) = d + 1 + k by omega, ih _ (by omega) k (by omega), hp]
      -- the round after `k` reads the next byte of the period, or its first after the last
      have hnext : (k + 1) % (d - s) = (k % (d - s) + 1) % (d - s) := by
        conv_lhs => rw [← Nat.mod_add_div k (d - s)]
        rw [Nat.add_right_comm, Nat.add_mul_mod_self_left]
      have hlt : k % (d - s) < d - s := Nat.mod_lt _ (by omega)
      by_cases hwrap : k % (d - s) + 1 = d - s
      · -- the byte read is the one the first round wrote
        rw [show s + 1 + k % (d - s) = d by omega, Function.update_self, hnext, hwrap,
          Nat.mod_self, Nat.add_zero]
      · have hne : s + 1 + k % (d - s) ≠ d := by omega
        have hin : k % (d - s) + 1 < d - s := by omega
        rw [Function.update_of_ne hne, hnext, Nat.mod_eq_of_lt hin]
        congr 1
        omega

/-- Three bytes `0, 1, 2` at addresses `0, 1, 2`. -/
def ramp : Block := fun j => UInt8.ofNat j

/-- Moving the two bytes at `0` one byte up: the user's `memmove` leaves `0, 0` at `1` where
the source held `0, 1`. -/
theorem memmove_overlap_up :
    memmove ramp 1 0 2 2 = 0 ∧ ramp.copy 1 0 2 2 = 1 := by
  refine ⟨?_, ?_⟩
  · rw [memmove, show ((2 : Int).toNat) = 2 from rfl, moveUp_period ramp (by omega) 1 (by omega)]
    rfl
  · rw [copy_of_mem ramp (by omega) (by omega)]
    rfl

end Ulib

end Xv6
