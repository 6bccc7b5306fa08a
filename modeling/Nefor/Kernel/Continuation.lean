import Nefor.Kernel.Allocation
import Nefor.Kernel.Rendering

/-! What a continuation shows is bounded, fair and honest. -/
namespace Nefor.Kernel

variable {ν : Type} (textual : ν → Bytes) {entries : List (Entry ν)} {preserveUnderLimit : Bool}

end Nefor.Kernel
