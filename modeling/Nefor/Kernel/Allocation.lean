import Nefor.Kernel.ModelContext
import Nefor.FairDivision

/-! The budgets are a fair division. A round satisfies the entries no larger than an equal share of
what remains, so the share never falls. -/
namespace Nefor.Kernel

variable {total level share remaining count : Nat} {satisfied : Bool} {entries : Filling}

/-- The entries without a budget. -/
def pending (entries : Filling) : Nat := entries.countP fun e => e.2.isNone

/-- What the others have. -/
def spent (entries : Filling) : Nat := (entries.map fun e => e.2.getD 0).sum

@[simp] theorem pending_nil : pending [] = 0 := rfl
@[simp] theorem spent_nil : spent [] = 0 := rfl

@[simp] theorem satisfy_nil : satisfy share [] remaining count satisfied = ⟨[],remaining,count,satisfied⟩ := rfl

/-- The sizes, each with its budget. -/
def budgeted (entries : Filling) : List (Nat × Nat) := entries.map fun e => (e.1,e.2.getD 0)

theorem budgeted_sizes : (budgeted entries).map (·.1) = entries.map (·.1) := by
  simp [budgeted,Function.comp_def]

end Nefor.Kernel
