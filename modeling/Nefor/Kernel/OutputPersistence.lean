import Nefor.Lua.Value

/-! The files of node outputs (`output-persistence`): a write that cannot be made returns the
output as it is. -/
namespace Nefor.Kernel
open Nefor.Lua

/-- What the host answers while one output is written. -/
structure Host where
  sessionsRoot : Option String
  currentSessionId : Option String
  mkdir : Bool
  opened : Bool
  /-- The text reached the file; nothing looks at it. -/
  written : Bool
  deriving DecidableEq, Repr

def segmentChar (c : Char) : Bool := c.isAlphanum || c == '.' || c == '_' || c == '-'

/-- Every run of other characters becomes a dash. -/
def dashed : Bool → List Char → List Char
  | _, [] => []
  | inside, c :: cs =>
    if segmentChar c then c :: dashed false cs
    else if inside then dashed true cs
    else '-' :: dashed true cs

def safeSegment (value fallback : String) : String :=
  let leading := (dashed false value.toList).dropWhile (· == '-')
  let s := (leading.reverse.dropWhile (· == '-')).reverse
  if s.isEmpty then fallback else String.ofList s

structure PersistBody where
  runId : String
  runName : String
  sessionId : Option String
  nodeId : String
  deriving DecidableEq, Repr

def PersistBody.relpath (body : PersistBody) : String :=
  "runs/" ++ safeSegment body.runName (safeSegment body.runId "run") ++ "/" ++ safeSegment body.nodeId "node" ++ ".output"

def PersistBody.session (body : PersistBody) (host : Host) : Option String :=
  match body.sessionId with
  | some id => if id = "" then host.currentSessionId else some id
  | none => host.currentSessionId

/-- The file, once it is open. -/
def openedPath (host : Host) (body : PersistBody) (output : LuaValue) : Option String :=
  if output.isTable && body.runId != "" && body.nodeId != "" then
    match host.sessionsRoot, body.session host with
    | some root, some session =>
      if host.mkdir && host.opened then some (root ++ "/" ++ session ++ "/mag/" ++ body.relpath) else none
    | _, _ => none
  else none

def persist (host : Host) (body : PersistBody) (output : LuaValue) : LuaValue :=
  match openedPath host body output with
  | some path => .table false ((output.fields.set "output_path" (.str path)).set "output_relpath" (.str body.relpath))
  | none => output

/-- The file that holds the output after the write. -/
def landedPath (host : Host) (body : PersistBody) (output : LuaValue) : Option String :=
  if host.written then openedPath host body output else none

/-- `type(output) == "table" and type(output.output_path) == "string"`, with the path. -/
def pathOf (output : LuaValue) : Option String :=
  match output.get "output_path" with
  | .str path => some path
  | _ => none

/-- The path that a write leaves in the output: that of the file it opened, or else the one that the
output carried. -/
theorem pathOf_persist (host : Host) (body : PersistBody) (output : LuaValue) :
    pathOf (persist host body output) = (openedPath host body output).or (pathOf output) := by
  unfold persist
  cases openedPath host body output with
  | none => rfl
  | some path =>
    have hne : "output_path" ≠ "output_relpath" := by decide
    have hget : LuaValue.get (.table false ((output.fields.set "output_path" (.str path)).set "output_relpath"
        (.str body.relpath))) "output_path" = .str path := by
      unfold LuaValue.get LuaValue.fields
      rw [Fields.get_set_of_ne _ _ hne,Fields.get_set_self]
    simp only [pathOf,hget,Option.some_or]

end Nefor.Kernel
