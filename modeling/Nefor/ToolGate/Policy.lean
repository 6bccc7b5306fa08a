import Mathlib.Tactic.Common

/-! What the gate does with one tool call: the caller's approval policy, the permission mode and
the tool's own assessment of the call. -/
namespace Nefor.ToolGate

/-- The permission mode the user selected for the session. -/
inductive GateMode
  | safe
  | auto
  | yolo
  deriving DecidableEq, Repr

namespace GateMode

def parse (s : String) : Option GateMode :=
  if s = "safe" ∨ s = "normal" then some safe
  else if s = "auto" then some auto
  else if s = "yolo" then some yolo
  else none

def asStr : GateMode → String
  | safe => "safe"
  | auto => "auto"
  | yolo => "yolo"

end GateMode

/-- What the calling agent may do with its tools. -/
inductive ApprovalPolicy
  | readOnly
  | default
  deriving DecidableEq, Repr

namespace ApprovalPolicy

def parse (s : String) : Option ApprovalPolicy :=
  if s = "ReadOnly" then some readOnly
  else if s = "Default" then some default
  else none

def asStr : ApprovalPolicy → String
  | readOnly => "ReadOnly"
  | default => "Default"

theorem parse_asStr (p : ApprovalPolicy) : parse p.asStr = some p := by cases p <;> rfl

end ApprovalPolicy

/-- A tool's account of one call under the caller's approval policy. -/
inductive Assessment
  | safe
  | unsure
  | denied
  deriving DecidableEq, Repr

def Assessment.parse (s : String) : Option Assessment :=
  if s = "safe" then some safe
  else if s = "unsure" then some unsure
  else if s = "denied" then some denied
  else none

inductive Verdict
  | run
  | ask
  | deny
  deriving DecidableEq, Repr

/-- The decision table: policy first, mode second. -/
def verdict (policy : ApprovalPolicy) (mode : GateMode) (assessment : Assessment) : Verdict :=
  match policy, assessment, mode with
  | _, .safe, _ => .run
  | .readOnly, .unsure, _ => .deny
  | .readOnly, .denied, _ => .deny
  | .default, .unsure, .safe => .ask
  | .default, .unsure, .auto => .run
  | .default, .unsure, .yolo => .run
  | .default, .denied, .safe => .deny
  | .default, .denied, .auto => .deny
  | .default, .denied, .yolo => .run

/-- No mode widens a read-only caller, and such a caller is never asked about. -/
theorem verdict_readOnly {mode : GateMode} {a : Assessment} (h : verdict .readOnly mode a ≠ .deny) :
    a = .safe := by
  cases a with
  | safe => rfl
  | unsure => exact absurd rfl h
  | denied => exact absurd rfl h

/-- Why a tool the operator set to `--deny` is denied. -/
def deniedBySetting : String := "the gate is configured to deny this tool"

end Nefor.ToolGate
