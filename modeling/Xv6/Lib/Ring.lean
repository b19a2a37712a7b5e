import Mathlib

/-!
# Ring buffers over wrapping 32-bit counters

A buffer of `N` cells that a producer and a consumer index with two free-running `UInt32`
counters, `r` (elements taken) and `w` (elements put). Counter `x` names cell `x % N`, and the
elements in the buffer are those in the cells of `r, r + 1, …, w - 1`: there are
`(w - r).toNat` of them, the difference taken modulo `2 ^ 32`.

When `N` divides `2 ^ 32` the cell of `x + j` is `(x + j) % N` computed in `ℕ`, across the wrap
of `x` as well (`cell_add`), so `N` consecutive counters name `N` distinct cells
(`cell_add_inj`). Putting an element into the cell of `w` therefore appends it to the window
(`window_put`), and the window splits at any point (`window_add`), which is what taking from
the front needs.
-/

namespace Ring

variable {α : Type*} {N : ℕ} [NeZero N]

/-- The cell that counter `x` names. -/
def cell (N : ℕ) [NeZero N] (x : UInt32) : Fin N := Fin.ofNat N x.toNat

/-- The `k` elements stored from counter `r` on. -/
def window (data : Fin N → α) (r : UInt32) (k : ℕ) : List α :=
  (List.range k).map fun j => data (cell N (r + UInt32.ofNat j))

/-! ## Counters -/

section Counters

variable {w r : UInt32}

/-- One more put leaves one more element, short of a full wrap. -/
theorem toNat_add_one_sub (h : (w - r).toNat + 1 < 2 ^ 32) :
    (w + 1 - r).toNat = (w - r).toNat + 1 := by
  have hw := w.toNat_lt
  have hr := r.toNat_lt
  simp only [UInt32.toNat_sub, UInt32.toNat_add, UInt32.toNat_one] at h ⊢
  omega

/-- Taking `m` of the elements leaves the others. -/
theorem toNat_sub_add_ofNat {m : ℕ} (hm : m ≤ (w - r).toNat) :
    (w - (r + UInt32.ofNat m)).toNat = (w - r).toNat - m := by
  have hw := w.toNat_lt
  have hr := r.toNat_lt
  simp only [UInt32.toNat_sub, UInt32.toNat_add, UInt32.toNat_ofNat'] at hm ⊢
  omega

/-- A comparison of counters is a comparison of their difference. -/
theorem eq_add_iff {k : ℕ} (hk : k < 2 ^ 32) : w = r + UInt32.ofNat k ↔ (w - r).toNat = k := by
  have hw := w.toNat_lt
  have hr := r.toNat_lt
  rw [← UInt32.toNat_inj, UInt32.toNat_add, UInt32.toNat_ofNat', UInt32.toNat_sub]
  omega

theorem add_ofNat_toNat_sub (w r : UInt32) : r + UInt32.ofNat (w - r).toNat = w := by
  rw [UInt32.ofNat_toNat, UInt32.add_comm, UInt32.sub_add_cancel]

/-- Three counters in order `r, w, e`: the distance from `w` to `e` is the rest. -/
theorem toNat_sub_of_le {e : UInt32} (h : (w - r).toNat ≤ (e - r).toNat) :
    (e - w).toNat = (e - r).toNat - (w - r).toNat := by
  have hw := w.toNat_lt
  have hr := r.toNat_lt
  have he := e.toNat_lt
  simp only [UInt32.toNat_sub] at h ⊢
  omega

/-- Two counters as far from a third are equal. -/
theorem eq_of_toNat_sub_eq {e : UInt32} (h : (w - r).toNat = (e - r).toNat) : w = e := by
  have hw := w.toNat_lt
  have hr := r.toNat_lt
  have he := e.toNat_lt
  rw [← UInt32.toNat_inj]
  simp only [UInt32.toNat_sub] at h
  omega

/-- Distinct counters are a positive distance apart. -/
theorem toNat_sub_pos (h : r ≠ w) : 0 < (w - r).toNat := by
  rcases Nat.eq_zero_or_pos (w - r).toNat with h0 | h0
  · exact absurd (eq_of_toNat_sub_eq (e := r) (by rw [h0, UInt32.sub_self]; rfl)).symm h
  · exact h0

/-- Moving a counter one back brings it one closer. -/
theorem toNat_sub_one_sub (h : 0 < (w - r).toNat) : (w - 1 - r).toNat = (w - r).toNat - 1 := by
  have hw := w.toNat_lt
  have hr := r.toNat_lt
  simp only [UInt32.toNat_sub, UInt32.toNat_one] at h ⊢
  omega

/-- Moving the other counter one on brings it one closer too. -/
theorem toNat_sub_add_one (h : 0 < (w - r).toNat) : (w - (r + 1)).toNat = (w - r).toNat - 1 := by
  have hw := w.toNat_lt
  have hr := r.toNat_lt
  simp only [UInt32.toNat_sub, UInt32.toNat_add, UInt32.toNat_one] at h ⊢
  omega

/-- The counter before `w`, counted from `r`. -/
theorem add_ofNat_pred (h : 0 < (w - r).toNat) : r + UInt32.ofNat ((w - r).toNat - 1) = w - 1 := by
  have hw := w.toNat_lt
  have hr := r.toNat_lt
  rw [← UInt32.toNat_inj]
  simp only [UInt32.toNat_sub, UInt32.toNat_add, UInt32.toNat_ofNat', UInt32.toNat_one] at h ⊢
  omega

theorem add_one_add_ofNat (r : UInt32) (j : ℕ) :
    r + 1 + UInt32.ofNat j = r + UInt32.ofNat (j + 1) := by
  rw [UInt32.ofNat_add, UInt32.add_assoc, UInt32.add_comm 1]
  rfl

end Counters

/-! ## Cells and windows -/

@[simp] theorem length_window (data : Fin N → α) (r : UInt32) (k : ℕ) :
    (window data r k).length = k := by
  simp [window]

@[simp] theorem window_zero (data : Fin N → α) (r : UInt32) : window data r 0 = [] := rfl

theorem window_one (data : Fin N → α) (r : UInt32) : window data r 1 = [data (cell N r)] := by
  simp [window]

/-- The window splits after its first `m` elements. -/
theorem window_add (data : Fin N → α) (r : UInt32) (m k : ℕ) :
    window data r (m + k) = window data r m ++ window data (r + UInt32.ofNat m) k := by
  simp only [window, List.range_add, List.map_append, List.map_map]
  congr 1
  refine List.map_congr_left fun j _ => ?_
  simp only [Function.comp_apply, UInt32.ofNat_add, UInt32.add_assoc]

/-- A window is its first element and the window after it. -/
theorem window_succ (data : Fin N → α) (r : UInt32) (k : ℕ) :
    window data r (k + 1) = data (cell N r) :: window data (r + 1) k := by
  rw [Nat.add_comm, window_add, window_one]
  rfl

/-- Dropping the last element is shortening the window by one. -/
theorem window_dropLast (data : Fin N → α) (r : UInt32) (k : ℕ) :
    (window data r k).dropLast = window data r (k - 1) := by
  cases k with
  | zero => rfl
  | succ k => rw [window_add, window_one, List.dropLast_concat, Nat.add_sub_cancel]

/-- Dropping the first `m` elements is advancing the counter by `m`. -/
theorem window_drop (data : Fin N → α) (r : UInt32) {m k : ℕ} (hm : m ≤ k) :
    (window data r k).drop m = window data (r + UInt32.ofNat m) (k - m) := by
  obtain ⟨d, rfl⟩ := Nat.exists_eq_add_of_le hm
  rw [window_add, List.drop_left' (length_window _ _ _), Nat.add_sub_cancel_left]

section Dvd

variable (hN : N ∣ 2 ^ 32)
include hN

/-- Since `N` divides `2 ^ 32`, the cell of `x + j` does not see the wrap of the sum. -/
theorem cell_add (x : UInt32) (j : ℕ) : (cell N (x + UInt32.ofNat j)).val = (x.toNat + j) % N := by
  have hj : (UInt32.ofNat j).toNat % N = j % N := by
    rw [UInt32.toNat_ofNat', Nat.mod_mod_of_dvd _ hN]
  simp only [cell, Fin.val_ofNat, UInt32.toNat_add, Nat.mod_mod_of_dvd _ hN]
  rw [Nat.add_mod, hj, ← Nat.add_mod]

/-- `N` consecutive counters name `N` distinct cells. -/
theorem cell_add_inj {x : UInt32} {i j : ℕ} (hi : i < N) (hj : j < N)
    (h : cell N (x + UInt32.ofNat i) = cell N (x + UInt32.ofNat j)) : i = j := by
  have hmod : x.toNat + i ≡ x.toNat + j [MOD N] := by
    rw [Nat.ModEq, ← cell_add hN, ← cell_add hN, h]
  exact (Nat.ModEq.add_left_cancel' _ hmod).eq_of_lt_of_lt hi hj

/-- Writing the cell of `r + k` leaves the first `m ≤ k` elements of the window, for `k < N`. -/
theorem window_update_of_le {data : Fin N → α} {r : UInt32} {m k : ℕ} (hmk : m ≤ k) (hk : k < N)
    (b : α) : window (Function.update data (cell N (r + UInt32.ofNat k)) b) r m = window data r m := by
  refine List.map_congr_left fun j hj => ?_
  -- the cells before the written one keep their contents
  have hjm := List.mem_range.1 hj
  have hne : cell N (r + UInt32.ofNat j) ≠ cell N (r + UInt32.ofNat k) := fun h =>
    (Nat.ne_of_lt (lt_of_lt_of_le hjm hmk)) (cell_add_inj hN (by omega) hk h)
  exact Function.update_of_ne hne _ _

/-- Putting into the cell after a window of fewer than `N` elements appends to it. -/
theorem window_put {data : Fin N → α} {r : UInt32} {k : ℕ} (hk : k < N) (b : α) :
    window (Function.update data (cell N (r + UInt32.ofNat k)) b) r (k + 1) =
      window data r k ++ [b] := by
  rw [window_add, window_update_of_le hN le_rfl hk, window_one, Function.update_self]

end Dvd

end Ring
