import Mathlib.Data.List.Sort
import Nefor.Lua.Value
import Nefor.Tool.Pattern

/-! The schemas of tool arguments: their check when a tool is defined and the validation of a
call's arguments (`schema.lua`). -/
namespace Nefor.Tool.Schema
open Nefor.Lua

/-! Tables. -/

def keyText : LuaKey → String
  | .str s => s
  | .int i => toString i

def sortedKeys (t : Fields) : List LuaKey := (t.map (·.1)).insertionSort fun a b => keyText a ≤ keyText b

def isArray : LuaValue → Bool
  | .table marked _ => marked
  | _ => false

/-- The number of entries, when they are numbered from one on. -/
def denseCount (t : Fields) : Option Nat :=
  if (t.all fun e => match e.1 with
      | .int i => decide (1 ≤ i)
      | .str _ => false) &&
    (List.range t.length).all fun i => !(t.index (.int (i + 1))).isNil
  then some t.length else none

def isList : LuaValue → Bool
  | .table marked t => marked || match denseCount t with
    | some count => decide (0 < count)
    | none => false
  | _ => false

def isMap : LuaValue → Bool
  | .table marked t => !marked && t.all fun e => match e.1 with
    | .str _ => true
    | .int _ => false
  | _ => false

/-- `type(value)` is one of some names. -/
def hasTypeName (names : List String) (value : LuaValue) : Bool := names.contains value.typeName

def nonnegativeInteger : LuaValue → Bool
  | .num (.int i) => decide (0 ≤ i)
  | _ => false

def finiteNumber : LuaValue → Bool
  | .num n => n.finite
  | _ => false

/-! The check. -/

def keywords : List String :=
  ["type","properties","required","additionalProperties","enum","oneOf","items","minItems","minLength","minimum",
    "maximum","pattern","description","default"]

def types : List String := ["array","boolean","integer","number","object","string"]

def keywordTypes : List (String × List String) :=
  [("properties",["object"]),("required",["object"]),("additionalProperties",["object"]),("items",["array"]),
    ("minItems",["array"]),("minLength",["string"]),("pattern",["string"]),("minimum",["integer","number"]),
    ("maximum",["integer","number"])]

/-- An error that `check` returns, or the end of the model's rounds. The error of a pattern is
`place.pattern is not supported: ` and the bytes of the reason. -/
inductive Rejected
  | message (text : String)
  | pattern (place : String) (reason : Bytes)
  | fuel
  deriving DecidableEq, Repr

def require (condition : Bool) (text : String) : Except Rejected Unit :=
  if condition then .ok () else .error (.message text)

/-- All values of a list pass. -/
def each {α : Type} (f : α → Except Rejected Unit) : List α → Except Rejected Unit
  | [] => .ok ()
  | x :: xs => do
    f x
    each f xs

def isOneOf (names : List String) : LuaValue → Bool
  | .str s => names.contains s
  | _ => false

def checkType (schema : LuaValue) (place : String) : Except Rejected Unit :=
  if !(schema.get "type").isNil then
    require (isOneOf types (schema.get "type"))
      (place ++ ".type must be one of array, boolean, integer, number, object, string")
  else
    require (!(schema.get "oneOf").isNil || !(schema.get "enum").isNil) (place ++ " must declare type, enum, or oneOf")

def checkApplicable (schema : LuaValue) (place : String) (keyword : String × List String) : Except Rejected Unit :=
  require ((schema.get keyword.1).isNil || isOneOf keyword.2 (schema.get "type"))
    (place ++ "." ++ keyword.1 ++ " requires type " ++ " or ".intercalate keyword.2)

def checkProperties (checkNode : LuaValue → String → Except Rejected Unit) (schema : LuaValue) (place : String) :
    Except Rejected Unit := do
  let properties := schema.get "properties"
  if properties.isNil then .ok ()
  else
    require (isMap properties) (place ++ ".properties must be an object keyed by argument name")
    each (fun key => do
      require (keyText key != "") (place ++ ".properties has an empty argument name")
      checkNode (properties.fields.index key) (place ++ ".properties." ++ keyText key)) (sortedKeys properties.fields)

/-- The loop over the required names, with the names that have been seen. -/
def checkNames (properties : LuaValue) (place : String) : List String → List LuaValue → Except Rejected Unit
  | _, [] => .ok ()
  | seen, .str name :: names => do
    require (!seen.contains name) (place ++ ".required lists `" ++ name ++ "` twice")
    require (!(properties.get name).isNil) (place ++ ".required names undeclared argument `" ++ name ++ "`")
    checkNames properties place (name :: seen) names
  | _, _ :: _ => .error (.message (place ++ ".required must contain only strings"))

def checkRequired (schema : LuaValue) (place : String) : Except Rejected Unit := do
  let required := schema.get "required"
  if required.isNil then .ok ()
  else
    require (required.isTable && (isList required || required.fields.isEmpty))
      (place ++ ".required must be an array of argument names")
    checkNames (schema.get "properties") place [] required.sequence

def checkEnum (schema : LuaValue) (place : String) : Except Rejected Unit := do
  let enum := schema.get "enum"
  if enum.isNil then .ok ()
  else
    require (isList enum) (place ++ ".enum must be a non-empty array")
    each (fun value => require (hasTypeName ["string","number","boolean"] value)
      (place ++ ".enum may contain only strings, numbers, and booleans")) enum.sequence

/-- The loop over alternatives, with the index of the first of them. -/
def checkAlternatives (checkNode : LuaValue → String → Except Rejected Unit) (place : String) :
    Nat → List LuaValue → Except Rejected Unit
  | _, [] => .ok ()
  | index, alternative :: alternatives => do
    checkNode alternative (place ++ ".oneOf[" ++ toString index ++ "]")
    checkAlternatives checkNode place (index + 1) alternatives

def checkOneOf (checkNode : LuaValue → String → Except Rejected Unit) (schema : LuaValue) (place : String) :
    Except Rejected Unit := do
  let oneOf := schema.get "oneOf"
  if oneOf.isNil then .ok ()
  else
    require (isList oneOf) (place ++ ".oneOf must be a non-empty array")
    checkAlternatives checkNode place 0 oneOf.sequence

def checkItems (checkNode : LuaValue → String → Except Rejected Unit) (schema : LuaValue) (place : String) :
    Except Rejected Unit :=
  if (schema.get "items").isNil then .ok () else checkNode (schema.get "items") (place ++ ".items")

/-- `minimum > maximum`, for numbers. -/
def exceeds : LuaValue → LuaValue → Bool
  | .num a, .num b => b.lt a
  | _, _ => false

def checkNumbers (schema : LuaValue) (place : String) : Except Rejected Unit := do
  each (fun keyword => require ((schema.get keyword).isNil || nonnegativeInteger (schema.get keyword))
    (place ++ "." ++ keyword ++ " must be a non-negative integer")) ["minItems","minLength"]
  each (fun keyword => require ((schema.get keyword).isNil || finiteNumber (schema.get keyword))
    (place ++ "." ++ keyword ++ " must be a finite number")) ["minimum","maximum"]
  require (!exceeds (schema.get "minimum") (schema.get "maximum")) (place ++ ".minimum exceeds maximum")

/-- `pattern.compile` of any value. -/
def compilePattern : LuaValue → Except Failure Node
  | .str s => compile (ascii s)
  | _ => .error (.pattern (ascii "pattern must be a string"))

def checkPattern (schema : LuaValue) (place : String) : Except Rejected Unit :=
  if (schema.get "pattern").isNil then .ok ()
  else match compilePattern (schema.get "pattern") with
    | .ok _ => .ok ()
    | .error (.pattern reason) => .error (.pattern place reason)
    | .error .fuel => .error .fuel

def checkNode : Nat → LuaValue → String → Except Rejected Unit
  | 0, _, _ => .error .fuel
  | fuel + 1, schema, place => do
    require (isMap schema) (place ++ " must be a schema object")
    each (fun key => require (keywords.contains (keyText key))
      (place ++ " uses unsupported keyword `" ++ keyText key ++ "`")) (sortedKeys schema.fields)
    checkType schema place
    each (checkApplicable schema place) keywordTypes
    require (hasTypeName ["nil","string"] (schema.get "description")) (place ++ ".description must be a string")
    checkProperties (checkNode fuel) schema place
    checkRequired schema place
    require ((schema.get "additionalProperties").rawEq (.bool false) || (schema.get "additionalProperties").isNil)
      (place ++ ".additionalProperties may only be false; every tool schema is closed")
    checkEnum schema place
    checkOneOf (checkNode fuel) schema place
    checkItems (checkNode fuel) schema place
    checkNumbers schema place
    checkPattern schema place

mutual

/-- How deep tables are nested. -/
def depth : LuaValue → Nat
  | .table _ t => depthEntries t + 1
  | _ => 0

def depthEntries : List (LuaKey × LuaValue) → Nat
  | [] => 0
  | (_,v) :: rest => max (depth v) (depthEntries rest)

end

def check (parameters : LuaValue) : Except Rejected Unit := do
  require (isMap parameters) "parameters must be a schema object"
  require ((parameters.get "type").rawEq (.str "object")) "parameters.type must be \"object\""
  checkNode (depth parameters + 1) parameters "parameters"

/-! The validation. -/

/-- What Lua raises, or the end of the model's rounds. -/
inductive Raised
  | index
  | iterate
  | compare
  | concatenate
  | assertion
  | fuel
  deriving DecidableEq, Repr

/-- `nil` or a message. -/
abbrev Verdict := Except Raised (Option String)

/-- `value.name`; no field of a string has the name of a keyword. -/
def field (value : LuaValue) (name : String) : Except Raised LuaValue :=
  match value with
  | .table _ _ => .ok (value.get name)
  | .str _ => .ok .nil
  | _ => .error .index

def ipairs (value : LuaValue) : Except Raised (List LuaValue) :=
  match value with
  | .table _ _ => .ok value.sequence
  | .str _ => .ok []
  | _ => .error .iterate

/-- `a < b`. -/
def less : LuaValue → LuaValue → Except Raised Bool
  | .num a, .num b => .ok (a.lt b)
  | .str a, .str b => .ok (decide (a < b))
  | _, _ => .error .compare

def valueKind (value : LuaValue) : String :=
  match value with
  | .num (.int _) => "integer"
  | .num n => if n.integral then "integer" else "number"
  | .userdata _ => "null"
  | .table marked t =>
    if marked then "array"
    else if t.isEmpty then "empty"
    else if (denseCount t).isSome then "array"
    else if isMap value then "object"
    else "table"
  | value => value.typeName

def matchesType (expected : LuaValue) (value : LuaValue) : Bool :=
  let kind := valueKind value
  expected.rawEq (.str kind) || expected.rawEq (.str "number") && kind == "integer" ||
    kind == "empty" && (expected.rawEq (.str "object") || expected.rawEq (.str "array"))

def withArticle (typeName : String) : String :=
  (if typeName = "array" ∨ typeName = "integer" ∨ typeName = "object" then "an" else "a") ++ " " ++ typeName

/-- A character as `%q` writes it. -/
def quoteChar (next : Option Char) (c : Char) : String :=
  if c = '"' ∨ c = '\\' ∨ c = '\n' then "\\" ++ c.toString
  else if c.toNat < 32 ∨ c.toNat = 127 then
    if (next.map Char.isDigit).getD false then
      "\\" ++ "".pushn '0' (3 - (toString c.toNat).length) ++ toString c.toNat
    else "\\" ++ toString c.toNat
  else c.toString

def quoteChars : List Char → String
  | [] => ""
  | c :: cs => quoteChar cs.head? c ++ quoteChars cs

/-- `%q`. -/
def quote (s : String) : String := "\"" ++ quoteChars s.toList ++ "\""

section
variable (tostring : LuaValue → String)

def render : LuaValue → String
  | .str s => quote s
  | value => tostring value

def shownKind (value : LuaValue) : String := if valueKind value = "empty" then "object" else valueKind value

/-- An operand of `..`. -/
def operand : LuaValue → Except Raised String
  | .str s => .ok s
  | .num n => .ok (tostring (.num n))
  | _ => .error .concatenate

def describeEnum (enum : LuaValue) : Except Raised String := do
  let values ← ipairs enum
  .ok ("one of " ++ ", ".intercalate (values.map (render tostring)))

def describeEach (describe : LuaValue → Except Raised String) : List LuaValue → Except Raised (List String)
  | [] => .ok []
  | alternative :: alternatives => do
    let part ← describe alternative
    let parts ← describeEach describe alternatives
    .ok (part :: parts)

def describe : Nat → LuaValue → Except Raised String
  | 0, _ => .error .fuel
  | fuel + 1, schema => do
    let enum ← field schema "enum"
    let oneOf ← field schema "oneOf"
    let type ← field schema "type"
    let items ← field schema "items"
    if !enum.isNil then describeEnum tostring enum
    else if !oneOf.isNil then do
      let parts ← describeEach (describe fuel) (← ipairs oneOf)
      .ok (" or ".intercalate parts)
    else if type.rawEq (.str "array") && !items.isNil then do
      let inner ← describe fuel items
      .ok ("array of " ++ inner)
    else operand tostring (type.orElse (.str "value"))

def child (path : Option String) (name : String) : String :=
  match path with
  | none => name
  | some path => path ++ "." ++ name

def subject (path : Option String) : String :=
  match path with
  | none => "arguments"
  | some path => "argument `" ++ path ++ "`"

/-- A string or a number in a message. -/
def plain : LuaValue → String
  | .str s => s
  | value => tostring value

/-- A name as the key of a table. -/
def asKey : LuaValue → Except Raised LuaKey
  | .str s => .ok (.str s)
  | .num (.int i) => .ok (.int i)
  | _ => .error .index

def asKeys : List LuaValue → Except Raised (List LuaKey)
  | [] => .ok []
  | name :: names => do
    let key ← asKey name
    let keys ← asKeys names
    .ok (key :: keys)

/-- The required names of a schema. -/
def requiredNames (schema : LuaValue) : Except Raised (List LuaKey) := do
  asKeys (← ipairs ((← field schema "required").orElse (.table false [])))

def acceptedNames (schema : LuaValue) : Except Raised (List LuaKey) := do
  let names ← requiredNames schema
  let properties ← field schema "properties"
  .ok (names ++ (sortedKeys properties.fields).filter fun key => !names.contains key)

/-- A message, or else what comes next. -/
def andThen (first second : Verdict) : Verdict :=
  match first with
  | .ok none => second
  | _ => first

/-- The first message of a loop. -/
def firstOf {α : Type} (f : α → Verdict) : List α → Verdict
  | [] => .ok none
  | x :: xs => andThen (f x) (firstOf f xs)

def unknownArgument (schema : LuaValue) (path : Option String) (key : LuaKey) : Verdict := do
  let accepted ← acceptedNames schema
  let unknown := "unknown argument `" ++ child path (keyText key) ++ "`; "
  if accepted.isEmpty then
    .ok (some (unknown ++ (match path with
      | none => "this tool"
      | some path => "`" ++ path ++ "`") ++ " accepts no arguments"))
  else
    .ok (some (unknown ++ (match path with
      | none => "accepted arguments: "
      | some path => "accepted in `" ++ path ++ "`: ") ++ ", ".intercalate (accepted.map keyText)))

def validateObject (validateNode : LuaValue → LuaValue → Option String → Verdict) (schema value : LuaValue)
    (path : Option String) : Verdict := do
  let properties ← field schema "properties"
  andThen
    (firstOf (fun key => if (properties.fields.index key).isNil then unknownArgument schema path key else .ok none)
      (sortedKeys value.fields))
    (do
      let required ← requiredNames schema
      andThen
        (firstOf (fun key => if (value.fields.index key).isNil then
            .ok (some ("missing required argument `" ++ child path (keyText key) ++ "`"))
          else .ok none) required)
        (do
          let accepted ← acceptedNames schema
          firstOf (fun key => if (value.fields.index key).isNil then .ok none
            else validateNode (properties.fields.index key) (value.fields.index key) (some (child path (keyText key))))
            accepted))

/-- The loop over items, with the index of the first of them. -/
def validateItems (validateNode : LuaValue → LuaValue → Option String → Verdict) (items : LuaValue)
    (path : Option String) : Nat → List LuaValue → Verdict
  | _, [] => .ok none
  | index, value :: values =>
    match path with
    | none => .error .concatenate
    | some place => andThen (validateNode items value (some (place ++ "[" ++ toString index ++ "]")))
        (validateItems validateNode items path (index + 1) values)

/-- A bound that is there and is not met. -/
def bounded (bound : LuaValue) (fails : Except Raised Bool) (message : String) : Verdict :=
  if bound.isNil then .ok none
  else do
    if ← fails then .ok (some message) else .ok none

def validateArray (validateNode : LuaValue → LuaValue → Option String → Verdict) (schema value : LuaValue)
    (path : Option String) : Verdict := do
  let count := value.sequence.length
  let minItems ← field schema "minItems"
  let items ← field schema "items"
  andThen
    (bounded minItems (less (.num (.int count)) minItems) (subject path ++ " must contain at least " ++
      plain tostring minItems ++ (if minItems.rawEq (.num (.int 1)) then " item" else " items") ++ ", got " ++ toString count))
    (if items.isNil then .ok none else validateItems validateNode items path 0 value.sequence)

/-- `utf8.len`; strings are sequences of characters here. -/
def characters : LuaValue → Nat
  | .str s => s.length
  | _ => 0

def matchPattern (pattern value : LuaValue) : Except Raised Bool :=
  match compilePattern pattern, value with
  | .ok node, .str s =>
    match matcher node (ascii s) with
    | some found => .ok (!found)
    | none => .error .fuel
  | .ok _, _ => .error .index
  | .error _, _ => .error .assertion

def validateString (schema value : LuaValue) (path : Option String) : Verdict := do
  let minLength ← field schema "minLength"
  let pattern ← field schema "pattern"
  andThen
    (bounded minLength (less (.num (.int (characters value))) minLength) (subject path ++ " must be at least " ++
      plain tostring minLength ++ (if minLength.rawEq (.num (.int 1)) then " character" else " characters") ++ " long"))
    (bounded pattern (matchPattern pattern value)
      (subject path ++ " must match pattern `" ++ plain tostring pattern ++ "`"))

def validateNumber (schema value : LuaValue) (path : Option String) : Verdict := do
  let minimum ← field schema "minimum"
  let maximum ← field schema "maximum"
  andThen
    (bounded minimum (less value minimum) (subject path ++ " must be at least " ++ render tostring minimum ++
      ", got " ++ render tostring value))
    (bounded maximum (less maximum value) (subject path ++ " must be at most " ++ render tostring maximum ++
      ", got " ++ render tostring value))

/-- The number of alternatives that have no message. -/
def countMatched (validateNode : LuaValue → Verdict) : List LuaValue → Except Raised Nat
  | [] => .ok 0
  | alternative :: alternatives => do
    let problem ← validateNode alternative
    let matched ← countMatched validateNode alternatives
    .ok (if problem.isNone then matched + 1 else matched)

def validateOneOf (validateNode : LuaValue → Verdict) (describe : LuaValue → Except Raised String)
    (schema value : LuaValue) (path : Option String) : Verdict := do
  let oneOf ← field schema "oneOf"
  if oneOf.isNil then .ok none
  else do
    let matched ← countMatched validateNode (← ipairs oneOf)
    if matched = 1 then .ok none
    else do
      let expected ← describe schema
      .ok (some (subject path ++ " must be exactly one of: " ++ expected ++ ", got " ++ shownKind value))

def validateType (schema value : LuaValue) (path : Option String) : Verdict := do
  let type ← field schema "type"
  if type.isNil || matchesType type value then .ok none
  else match path with
    | none => .ok (some ("arguments must be an object, got " ++ shownKind value))
    | some _ => do
      let name ← operand tostring type
      .ok (some (subject path ++ " must be " ++ withArticle name ++ ", got " ++ shownKind value))

def validateEnum (schema value : LuaValue) (path : Option String) : Verdict := do
  let enum ← field schema "enum"
  if enum.isNil then .ok none
  else do
    let values ← ipairs enum
    if values.any fun allowed => allowed.rawEq value then .ok none
    else do
      let expected ← describeEnum tostring enum
      .ok (some (subject path ++ " must be " ++ expected ++ ", got " ++ render tostring value))

/-- What is validated for a type. -/
def validateKind (validateNode : LuaValue → LuaValue → Option String → Verdict) (schema value : LuaValue)
    (path : Option String) : Verdict := do
  let type ← field schema "type"
  if type.rawEq (.str "object") then validateObject validateNode schema value path
  else if type.rawEq (.str "array") then validateArray tostring validateNode schema value path
  else if type.rawEq (.str "string") then validateString tostring schema value path
  else if type.rawEq (.str "integer") || type.rawEq (.str "number") then validateNumber tostring schema value path
  else .ok none

def validateNode : Nat → LuaValue → LuaValue → Option String → Verdict
  | 0, _, _, _ => .error .fuel
  | fuel + 1, schema, value, path =>
    andThen (validateOneOf (fun alternative => validateNode fuel alternative value path)
      (describe tostring (fuel + 1)) schema value path)
      (andThen (validateType tostring schema value path)
        (andThen (validateEnum tostring schema value path)
          (validateKind tostring (validateNode fuel) schema value path)))

def validate (parameters args : LuaValue) : Verdict :=
  validateNode tostring (depth parameters + 1) parameters args none

end
end Nefor.Tool.Schema
