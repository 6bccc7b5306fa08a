import Mathlib.Algebra.Order.BigOperators.Group.List
import Mathlib.Algebra.Order.Ring.Nat
import Mathlib.Tactic.Common

/-! Dividing a total among demands, as evenly as whole units allow. -/
namespace Nefor

/-- A division gives each demand, which comes first, its share: no share exceeds its demand, nothing
is held back that is wanted, and a demand that is not met has no less than others, but for one unit. -/
structure FairDivision (total : Nat) (entries : List (Nat × Nat)) : Prop where
  le : ∀ e ∈ entries, e.2 ≤ e.1
  sum : (entries.map (·.2)).sum = min total (entries.map (·.1)).sum
  fair : ∀ e ∈ entries, e.2 < e.1 → ∀ f ∈ entries, f.2 ≤ e.2 + 1

namespace FairDivision
variable {total : Nat} {entries : List (Nat × Nat)}

theorem sum_le (h : FairDivision total entries) : (entries.map (·.2)).sum ≤ total := by
  rw [h.sum]
  exact min_le_left _ _

/-- A demand that is not met leaves nothing of the total. -/
theorem sum_eq (h : FairDivision total entries) {e : Nat × Nat} (he : e ∈ entries) (hlt : e.2 < e.1) :
    (entries.map (·.2)).sum = total := by
  have hless : (entries.map (·.2)).sum < (entries.map (·.1)).sum :=
    List.sum_lt_sum _ _ (fun f hf => h.le f hf) ⟨e,he,hlt⟩
  have hs := h.sum
  omega

end FairDivision
end Nefor
