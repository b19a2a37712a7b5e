import Mathlib

/-!
# Scans of a table by index

A table of `n` entries scanned in index order, as `List.finRange n`, stops at the first entry
that matches: `find?_finRange_of_first` names it by the entries before it.
-/

namespace Scan

variable {n : ℕ} {f : Fin n → Bool}

/-- A scan in index order stops at the first matching entry. -/
theorem find?_finRange_of_first {p : Fin n} (hp : f p = true)
    (hlt : ∀ q : Fin n, q < p → f q = false) : (List.finRange n).find? f = some p := by
  rw [List.find?_eq_some_iff_getElem]
  refine ⟨hp, p.val, by simp, by simp, fun j hj => ?_⟩
  have hj' : j < n := lt_trans hj p.isLt
  simp [hlt ⟨j, hj'⟩ (Fin.mk_lt_of_lt_val hj)]

end Scan
