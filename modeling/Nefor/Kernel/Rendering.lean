import Nefor.Kernel.ModelContext
import Mathlib.Algebra.Order.Ring.Nat

/-! A text that is cut is a text, within its budget, and says what it leaves out. -/
namespace Nefor.Kernel

variable {value text : Bytes} {limit start budget rounds retained : Nat} {path : Option Bytes}

/-! Cutting. -/

/-- What is shown of a text when its marker fits. -/
def Honest (value : Bytes) (path : Option Bytes) (text : Bytes) : Prop :=
  ∃ head tail, head <+: value ∧ tail <:+ value ∧ head.length + tail.length ≤ value.length ∧
    text = head ++ marker value.length head.length (value.length - tail.length) path ++ tail

end Nefor.Kernel
