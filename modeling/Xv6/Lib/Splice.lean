import Mathlib

/-!
# Overwriting a range of cells

A store indexed by `ℕ` whose cells `off, off + 1, …, off + d.length - 1` are overwritten by the
list `d`. A loop that copies `d` in pieces overwrites the pieces one after the other
(`overwrite_append`), and read back as a list of its first cells the result is the splice
`c.take off ++ d ++ c.drop (off + d.length)` (`map_range_overwrite`).
-/

namespace Splice

variable {α : Type*}

/-- `f` with the cells from `off` on overwritten by `d`. -/
def overwrite (f : ℕ → α) (off : ℕ) (d : List α) : ℕ → α := fun o =>
  if off ≤ o then d.getD (o - off) (f o) else f o

variable {f : ℕ → α} {off : ℕ} {d : List α}

@[simp] theorem overwrite_nil : overwrite f off [] = f := by
  funext o
  simp [overwrite]

theorem overwrite_of_lt {o : ℕ} (h : o < off) : overwrite f off d o = f o := by
  simp [overwrite, Nat.not_le.2 h]

theorem overwrite_of_le {o : ℕ} (h : off + d.length ≤ o) : overwrite f off d o = f o := by
  simp only [overwrite, if_pos (show off ≤ o by omega)]
  exact List.getD_eq_default _ _ (by omega)

/-- Outside the overwritten range the cells are those of `f`. -/
theorem overwrite_of_lt' {o : ℕ} (h : ¬ (off ≤ o ∧ o < off + d.length)) :
    overwrite f off d o = f o := by
  rcases Nat.lt_or_ge o off with h' | h'
  · exact overwrite_of_lt h'
  · exact overwrite_of_le (by omega)

theorem overwrite_of_mem {o : ℕ} (h₁ : off ≤ o) (h₂ : o < off + d.length) :
    overwrite f off d o = d[o - off] := by
  simp only [overwrite, if_pos h₁]
  exact List.getD_eq_getElem _ _ (by omega)

/-- Overwriting with `d ++ e` is overwriting with `d`, then with `e` right after it. -/
theorem overwrite_append (e : List α) :
    overwrite f off (d ++ e) = overwrite (overwrite f off d) (off + d.length) e := by
  funext o
  by_cases h₁ : o < off
  · rw [overwrite_of_lt h₁, overwrite_of_lt (by omega), overwrite_of_lt h₁]
  by_cases h₂ : o < off + d.length
  · rw [overwrite_of_mem (by omega) (by simp; omega), overwrite_of_lt h₂,
      overwrite_of_mem (by omega) h₂, List.getElem_append_left]
  by_cases h₃ : o < off + d.length + e.length
  · rw [overwrite_of_mem (by omega) (by simp; omega), overwrite_of_mem (by omega) h₃,
      List.getElem_append_right (by omega)]
    congr 1
    omega
  · rw [overwrite_of_le (by simp; omega), overwrite_of_le (by omega), overwrite_of_le (by omega)]

/-- Read back as the list of its first cells, an overwrite that starts within the first `S`
cells is the splice of `d` into them; the list grows when `d` reaches past them. -/
theorem map_range_overwrite {S : ℕ} (hoff : off ≤ S) :
    (List.range (max S (off + d.length))).map (overwrite f off d) =
      ((List.range S).map f).take off ++ d ++ ((List.range S).map f).drop (off + d.length) := by
  apply List.ext_getElem
  · simp only [List.length_map, List.length_range, List.length_append, List.length_take,
      List.length_drop]
    omega
  intro o h₁ h₂
  simp only [List.length_map, List.length_range] at h₁
  rw [List.getElem_map, List.getElem_range]
  by_cases ho : o < off
  · rw [overwrite_of_lt ho, List.getElem_append_left (by simp; omega),
      List.getElem_append_left (by simp; omega)]
    simp
  by_cases hd : o < off + d.length
  · rw [overwrite_of_mem (by omega) hd, List.getElem_append_left (by simp; omega),
      List.getElem_append_right (by simp; omega)]
    congr 1
    simp
    omega
  · rw [overwrite_of_le (by omega), List.getElem_append_right (by simp; omega)]
    simp only [List.length_append, List.length_take, List.length_map, List.length_range,
      List.getElem_drop, List.getElem_map, List.getElem_range]
    congr 1
    omega

end Splice
