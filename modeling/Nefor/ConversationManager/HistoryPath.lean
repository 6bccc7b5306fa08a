import Nefor.Lua.Value

/-! Addresses in the branching conversation history: a path lists the child number taken
at each level, starting from the root `[]`. -/
namespace Nefor.ConversationManager
open Nefor.Lua

/-- The paths the store itself allocates. Paths of an event are still Lua values. -/
abbrev HistoryPath := List Nat

namespace HistoryPath

def maxComponent : Nat := 2147483647

def validComponent : LuaValue → Bool
  | .num n => n.integral && LuaNum.le (.int 1) n && n.le (.int maxComponent)
  | _ => false

/-- `M.valid(path, allow_root)`. -/
def valid (path : LuaValue) (allowRoot : Bool) : Bool :=
  path.isTable && (allowRoot || !path.sequence.isEmpty) && path.sequence.all validComponent

/-- `tostring` of one component inside `table.concat`. -/
def componentText : LuaValue → String
  | .num n => n.text
  | _ => ""

/-- `M.key(path)`; a float component prints with its fraction. -/
def key (path : LuaValue) : Option String :=
  if valid path true then some (".".intercalate (path.sequence.map componentText)) else none

/-- The Lua table of an allocated path. -/
def toLua (path : HistoryPath) : LuaValue := .array (path.map fun n => .num (.int n))

/-- The key of an allocated path. -/
def keyOf (path : HistoryPath) : String := ".".intercalate (path.map toString)

/-- `M.is_prefix(prefix, path)`. -/
def isPrefix (front path : LuaValue) : Bool :=
  valid front true && valid path true &&
    decide (front.sequence.length ≤ path.sequence.length) &&
    (front.sequence.zip path.sequence).all (fun p => p.1.rawEq p.2)

/-- `M.parent(path)`. -/
def parent (path : HistoryPath) : HistoryPath := path.dropLast

/-- The greatest child number handed out below each path. -/
abbrev ChildMax := List (String × Nat)

inductive AllocationError
  | invalidParent
  | exhausted
  deriving DecidableEq, Repr

def AllocationError.code : AllocationError → String
  | .invalidParent => "invalid_history_parent"
  | .exhausted => "history_component_exhausted"

/-- `M.allocate(parent, child_max)`. -/
def allocate (parent : HistoryPath) (childMax : ChildMax) : Except AllocationError HistoryPath :=
  if valid (toLua parent) true then
    let component := (childMax.lookup (keyOf parent)).getD 0 + 1
    if component > maxComponent then .error .exhausted else .ok (parent ++ [component])
  else .error .invalidParent

/-- The child number a path ends with. -/
def lastComponent (path : HistoryPath) : Nat := path.getLast?.getD 0

theorem allocate_ok {p q : HistoryPath} {m : ChildMax} (h : allocate p m = .ok q) :
    q = p ++ [(m.lookup (keyOf p)).getD 0 + 1] := by
  simp only [allocate] at h
  split at h
  · split at h <;> cases h
    rfl
  · cases h

/-- An allocated child number is larger than every number handed out before it. -/
theorem allocate_lastComponent {p q : HistoryPath} {m : ChildMax} (h : allocate p m = .ok q) :
    lastComponent q = (m.lookup (keyOf p)).getD 0 + 1 := by
  rw [allocate_ok h]; simp [lastComponent]

end HistoryPath
end Nefor.ConversationManager
