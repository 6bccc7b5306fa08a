import Nefor.Json.Schema

/-! Type schemas and the validation of documents against them (`schema.rs`). A schema is the
data-only description of a type that crosses the boundary to hosts and providers. -/
namespace Nefor.Mag

inductive MagError
  | syntaxError (message : String)
  | lex (message : String)
  | parse (message : String)
  | eval (message : String)
  | budget (message : String)
  | type (message : String)
  | unresolved (name : String)
  | arity (expected got : Nat)
  deriving DecidableEq, Repr

inductive SchemaType
  | jsonValue
  | unit
  | bool
  | int
  | float
  | string
  | list (item : SchemaType)
  | set (item : SchemaType)
  | map (key value : SchemaType)
  | fields (fields : List (String × SchemaType))
  | union (variants : List (String × SchemaType))
  | adt (name ownerId : String) (constructors : List (String × SchemaType))
  | product (components : List SchemaType)
  | named (name : String) (body : SchemaType)
  deriving Repr, Inhabited

/-- Induction over schemas, with every part at hand. -/
@[induction_eliminator]
theorem SchemaType.ind {P : SchemaType → Prop} (jsonValue : P .jsonValue) (unit : P .unit)
    (bool : P .bool) (int : P .int) (float : P .float) (string : P .string)
    (list : ∀ item, P item → P (.list item)) (set : ∀ item, P item → P (.set item))
    (map : ∀ key value, P key → P value → P (.map key value))
    (fields : ∀ fs : List (String × SchemaType), (∀ f ∈ fs, P f.2) → P (.fields fs))
    (union : ∀ vs : List (String × SchemaType), (∀ v ∈ vs, P v.2) → P (.union vs))
    (adt : ∀ name owner (cs : List (String × SchemaType)), (∀ c ∈ cs, P c.2) →
      P (.adt name owner cs))
    (product : ∀ cs, (∀ c ∈ cs, P c) → P (.product cs))
    (named : ∀ name body, P body → P (.named name body)) (s : SchemaType) : P s :=
  SchemaType.rec (motive_1 := P) (motive_2 := fun fs => ∀ f ∈ fs, P f.2)
    (motive_3 := fun cs => ∀ c ∈ cs, P c) (motive_4 := fun f => P f.2)
    jsonValue unit bool int float string list set map fields union adt product named
    (by simp) (by intro f rest hf hr x hx; rcases List.mem_cons.mp hx with rfl | hx; exacts [hf,hr x hx])
    (by simp) (by intro c rest hc hr x hx; rcases List.mem_cons.mp hx with rfl | hx; exacts [hc,hr x hx])
    (fun _ _ h => h) s

structure Violation where
  path : String
  code : String
  expected : String
  actual : String
  message : String
  deriving DecidableEq, Repr

structure JsonValidationError where
  kind : String
  message : String
  deriving DecidableEq, Repr

structure JsonValidation where
  ok : Bool
  value : Option Json := none
  error : Option JsonValidationError := none
  violations : List Violation := []
  deriving Repr

/-- `json_kind`. -/
def jsonKind : Json → String
  | .null => "null"
  | .bool _ => "bool"
  | .number (.float _) => "float"
  | .number _ => "int"
  | .string _ => "string"
  | .array _ => "array"
  | .object _ => "object"

/-- The escape of one character inside a JSON string. -/
def escapeChar (c : Char) : String :=
  if c = '"' then "\\\"" else if c = '\\' then "\\\\"
  else if c = '\n' then "\\n" else if c = '\r' then "\\r" else if c = '\t' then "\\t"
  else if c.toNat = 8 then "\\b" else if c.toNat = 12 then "\\f"
  else if c.toNat < 32 then
    "\\u00" ++ toString (c.toNat / 16) ++ String.singleton (Nat.digitChar (c.toNat % 16))
  else String.singleton c

/-- `serde_json::to_string` of a string. -/
def quote (s : String) : String := "\"" ++ String.join (s.toList.map escapeChar) ++ "\""

/-- `field_path`. -/
def fieldPath (parent field : String) : String :=
  if field.toList.all fun c => c.isAlphanum || c == '_' then parent ++ "." ++ field
  else parent ++ "[" ++ quote field ++ "]"

def itemPath (path : String) (index : Nat) : String := path ++ "[" ++ toString index ++ "]"

mutual
/-- `describe`. -/
def describe : SchemaType → String
  | .jsonValue => "JsonValue"
  | .unit => "Unit"
  | .bool => "Bool"
  | .int => "Int"
  | .float => "Float"
  | .string => "String"
  | .list item => "List<" ++ describe item ++ ">"
  | .set item => "Set<" ++ describe item ++ ">"
  | .map key value => "Map<" ++ describe key ++ ", " ++ describe value ++ ">"
  | .fields _ => "record"
  | .union variants => " | ".intercalate (variants.map (·.1))
  | .adt name _ _ => name
  | .product components => "(" ++ ", ".intercalate (describeAll components) ++ ")"
  | .named name _ => name
def describeAll : List SchemaType → List String
  | [] => []
  | c :: rest => describe c :: describeAll rest
end

/-- `expect`. -/
def expect (valid : Bool) (path expected : String) (value : Json) : List Violation :=
  if valid then [] else [{
    path := path
    code := "wrong_type"
    expected := expected
    actual := jsonKind value
    message := "expected " ++ expected ++ ", got " ++ jsonKind value }]

/-- The words of the label, joined by underscores. -/
def duplicateCode (label : String) : String :=
  "duplicate_" ++ label.map fun c => if c = ' ' then '_' else c

/-- `duplicate_violation`. -/
def duplicateViolation (path label : String) : Violation where
  path := path
  code := duplicateCode label
  expected := "unique " ++ label
  actual := "duplicate " ++ label
  message := label ++ " appears more than once"

def missingField (path expected field : String) : Violation where
  path := path
  code := "missing_field"
  expected := expected
  actual := "missing"
  message := "required field '" ++ field ++ "' is missing"

def extraField (path key : String) (extra : Json) : Violation where
  path := fieldPath path key
  code := "extra_field"
  expected := "no additional field"
  actual := jsonKind extra
  message := "field '" ++ key ++ "' is not declared"

mutual
/-- `eval::json_equal`: doubles are equal when their bits are. -/
def jsonEqual : Json → Json → Bool
  | .null, .null => true
  | .bool a, .bool b => a == b
  | .number (.float a), .number (.float b) => decide (a = b)
  | .number a, .number b => a.eq b
  | .string a, .string b => a == b
  | .array xs, .array ys => xs.length == ys.length && jsonEqualItems xs ys
  | .object xs, .object ys => xs.length == ys.length && jsonEqualFields xs ys
  | _, _ => false
def jsonEqualItems : List Json → List Json → Bool
  | x :: xs, y :: ys => jsonEqual x y && jsonEqualItems xs ys
  | _, _ => true
def jsonEqualFields : List (String × Json) → Json.Object → Bool
  | [], _ => true
  | (k,x) :: xs, ys => (match Json.Object.get ys k with
    | some y => jsonEqual x y
    | none => false) && jsonEqualFields xs ys
end

/-- The wire form of a tagged sum: the key that holds the tag, and the words of its errors. -/
structure SumWire where
  tagKey : String
  tagLabel : String
  unknownCode : String
  noun : String
  envelope : String

def unionWire : SumWire :=
  ⟨"type","constructor tag","unknown_union_tag","sum","tagged sum envelope"⟩
def adtWire : SumWire :=
  ⟨"constructor","constructor name","unknown_adt_constructor","ADT","ADT object"⟩

/-- Maps with `String` keys are written as objects; a named string type does not count. -/
def isStringKey : SchemaType → Bool
  | .string => true
  | _ => false

/-- `a.zip(b).is_some_and(f)`. -/
def bothAnd {α : Type} (a b : Option α) (f : α → α → Bool) : Bool :=
  match a, b with
  | some x, some y => f x y
  | _, _ => false

mutual
/-- Equality of documents of one schema, which does not see the order of sets and maps. -/
def semanticJsonEqual : SchemaType → Json → Json → Bool
  | .named _ body, left, right => semanticJsonEqual body left right
  | .float, left, right => bothAnd left.asF64 right.asF64 fun a b => decide (a = b)
  | .list item, left, right => bothAnd left.asArray right.asArray fun a b =>
    a.length == b.length && (a.zip b).all fun p => semanticJsonEqual item p.1 p.2
  | .product components, left, right => bothAnd left.asArray right.asArray fun a b =>
    a.length == components.length && a.length == b.length && semanticPositions components a b
  | .fields fs, left, right => semanticFields fs left right
  | .set item, left, right =>
    bothAnd ((left.get "items").bind Json.asArray) ((right.get "items").bind Json.asArray)
      fun a b => a.length == b.length && a.all fun x => b.any fun y => semanticJsonEqual item x y
  | .map key value, left, right =>
    if isStringKey key then bothAnd left.asObject right.asObject fun a b =>
      a.length == b.length && a.all fun e => match Json.Object.get b e.1 with
        | some y => semanticJsonEqual value e.2 y
        | none => false
    else
      bothAnd ((left.get "entries").bind Json.asArray) ((right.get "entries").bind Json.asArray)
        fun a b => a.length == b.length && a.all fun x => b.any fun y => match x, y with
          | .array [k,v], .array [l,w] => semanticJsonEqual key k l && semanticJsonEqual value v w
          | _, _ => false
  | .union variants, left, right => semanticSum variants unionWire.tagKey left right
  | .adt _ _ constructors, left, right => semanticSum constructors adtWire.tagKey left right
  | .jsonValue, left, right => jsonEqual left right
  | .unit, left, right => jsonEqual left right
  | .bool, left, right => jsonEqual left right
  | .int, left, right => jsonEqual left right
  | .string, left, right => jsonEqual left right
def semanticPositions : List SchemaType → List Json → List Json → Bool
  | s :: ss, a :: as, b :: bs => semanticJsonEqual s a b && semanticPositions ss as bs
  | _, _, _ => true
def semanticFields : List (String × SchemaType) → Json → Json → Bool
  | [], _, _ => true
  | (name,s) :: rest, left, right =>
    (bothAnd (left.get name) (right.get name) fun a b => semanticJsonEqual s a b) &&
      semanticFields rest left right
/-- The tags are equal strings, and the payloads are equal at the first member of that tag. -/
def semanticSum : List (String × SchemaType) → String → Json → Json → Bool
  | [], _, _, _ => false
  | (tag,s) :: rest, tagKey, left, right =>
    bothAnd ((left.get tagKey).bind Json.asStr) ((right.get tagKey).bind Json.asStr) fun a b =>
      a == b && if tag = a
        then bothAnd (left.get "value") (right.get "value") fun x y => semanticJsonEqual s x y
        else semanticSum rest tagKey left right
end

/-- `exact_wire_array`: the array of an envelope, or what is wrong with it. -/
def exactWireArray (value : Json) (tag field path : String) :
    Except (List Violation) (List Json) :=
  match value with
  | .object fields =>
    if fields.length ≠ 2 ∨ (Json.Object.get fields "$mag").bind Json.asStr ≠ some tag ∨
        Json.Object.get fields field = none then
      .error (expect false path ("exact " ++ tag ++ " envelope") value)
    else match Json.Object.get fields field with
      | some (.array items) => .ok items
      | some other => .error (expect false (fieldPath path field) "array" other)
      | none => .error []
  | _ => .error (expect false path (tag ++ " envelope") value)

/-- `validate_set`, over the validation and the equality of its items. -/
def validateSet (validate : Json → String → List Violation) (same : Json → Json → Bool)
    (value : Json) (path : String) : List Violation :=
  match exactWireArray value "set" "items" path with
  | .error violations => violations
  | .ok items => (items.mapIdx fun index item =>
      let itemPath := path ++ ".items[" ++ toString index ++ "]"
      validate item itemPath ++ if (items.take index).any (same · item)
        then [duplicateViolation itemPath "set item"] else []).flatten

/-- The keys of the entries that are pairs. -/
def pairKeys (entries : List Json) : List Json :=
  entries.filterMap fun entry => match entry with
    | .array [k,_] => some k
    | _ => none

/-- `validate_map`, over the validation of its keys and values and the equality of keys. -/
def validateMap (validateKey validateValue : Json → String → List Violation)
    (same : Json → Json → Bool) (value : Json) (path : String) : List Violation :=
  match exactWireArray value "map" "entries" path with
  | .error violations => violations
  | .ok entries => (entries.mapIdx fun index entry =>
      let entryPath := path ++ ".entries[" ++ toString index ++ "]"
      match entry with
      | .array [k,v] =>
        validateKey k (entryPath ++ "[0]") ++ validateValue v (entryPath ++ "[1]") ++
          if (pairKeys (entries.take index)).any (same · k)
          then [duplicateViolation (entryPath ++ "[0]") "map key"] else []
      | _ => expect false entryPath "[key, value]" entry).flatten

mutual
/-- `validate_at`, as the violations it adds. -/
def validateAt : SchemaType → Json → String → List Violation
  | .named name body, value, path =>
    (validateAt body value path).map fun v =>
      if v.path = path ∧ v.code = "wrong_type"
      then { v with expected := name, message := "expected " ++ name ++ ", got " ++ v.actual }
      else v
  | .jsonValue, _, _ => []
  | .unit, value, path => expect (match value with | .null => true | _ => false) path "Unit" value
  | .bool, value, path =>
    expect (match value with | .bool _ => true | _ => false) path "Bool" value
  | .int, value, path => expect value.asI64.isSome path "Int" value
  | .float, value, path => expect value.asF64.isSome path "Float" value
  | .string, value, path => expect value.asStr.isSome path "String" value
  | .list item, value, path => match value with
    | .array items => (items.mapIdx fun index x => validateAt item x (itemPath path index)).flatten
    | _ => expect false path "List" value
  | .set item, value, path =>
    validateSet (fun v p => validateAt item v p) (semanticJsonEqual item) value path
  | .map key item, value, path =>
    if isStringKey key then match value with
      | .object entries => (entries.map fun e => validateAt item e.2 (fieldPath path e.1)).flatten
      | _ => expect false path "Map String" value
    else validateMap (fun v p => validateAt key v p) (fun v p => validateAt item v p)
      (semanticJsonEqual key) value path
  | .fields fs, value, path => match value with
    | .object entries => validateFields fs entries path ++
        (entries.filter fun e => !(fs.any fun f => f.1 == e.1)).map fun e =>
          extraField path e.1 e.2
    | _ => expect false path "record" value
  | .union variants, value, path => validateSum variants unionWire value path
  | .adt _ _ constructors, value, path => validateSum constructors adtWire value path
  | .product components, value, path => match value with
    | .array values =>
      let text := fun n : Nat => toString n ++ " tuple positions"
      (if values.length = components.length then [] else [{
        path := path
        code := "wrong_arity"
        expected := text components.length
        actual := text values.length
        message := "expected " ++ toString components.length ++ " tuple positions, got " ++
          toString values.length }]) ++ validatePositions components values path 0
    | _ => expect false path "array" value
def validatePositions : List SchemaType → List Json → String → Nat → List Violation
  | c :: cs, v :: vs, path, index =>
    validateAt c v (itemPath path index) ++ validatePositions cs vs path (index+1)
  | _, _, _, _ => []
def validateFields : List (String × SchemaType) → Json.Object → String → List Violation
  | [], _, _ => []
  | (name,s) :: rest, entries, path =>
    let childPath := fieldPath path name
    (match entries.get name with
      | some value => validateAt s value childPath
      | none => [missingField childPath (describe s) name]) ++ validateFields rest entries path
def validateSum (members : List (String × SchemaType)) (wire : SumWire) (value : Json)
    (path : String) : List Violation :=
  match value with
  | .object entries =>
    (entries.filter fun e => e.1 != wire.tagKey && e.1 != "value").map (fun e =>
        extraField path e.1 e.2) ++
      match Json.Object.get entries wire.tagKey with
      | none => [missingField (fieldPath path wire.tagKey) wire.tagLabel wire.tagKey]
      | some (.string tag) =>
        (validateMember members tag entries path).getD [{
          path := fieldPath path wire.tagKey
          code := wire.unknownCode
          expected := " | ".intercalate (members.map (·.1))
          actual := tag
          message := "constructor '" ++ tag ++ "' is not a member of this " ++ wire.noun }]
      | some other => expect false (fieldPath path wire.tagKey) wire.tagLabel other
  | _ => expect false path wire.envelope value
/-- The payload at the first member of that tag, none when there is no such member. -/
def validateMember : List (String × SchemaType) → String → Json.Object → String →
    Option (List Violation)
  | [], _, _, _ => none
  | (name,s) :: rest, tag, entries, path =>
    if name = tag then some (match entries.get "value" with
      | some payload => validateAt s payload (fieldPath path "value")
      | none => [missingField (fieldPath path "value") (describe s) "value"])
    else validateMember rest tag entries path
end

/-- `SCHEMA_VERSION`. -/
def schemaVersion : Nat := 2

structure TypeSchema where
  version : Nat
  root : SchemaType
  deriving Repr

def validationError (kind message : String) : JsonValidation where
  ok := false
  error := some ⟨kind,message⟩

/-- `TypeSchema::validate_value`. -/
def TypeSchema.validateValue (schema : TypeSchema) (value : Json) : JsonValidation :=
  if schema.version ≠ schemaVersion then
    validationError "unsupported_schema_version" ("schema version " ++ toString schema.version ++
      " is unsupported; expected " ++ toString schemaVersion)
  else
    let violations := validateAt schema.root value "$"
    { ok := violations.isEmpty
      value := if violations.isEmpty then some value else none
      violations := violations }

/-- `json_number_to_i64`: an integer, or a double that is one. -/
def jsonNumberToI64 (number : JsonNumber) : Option Int64 :=
  number.asI64.or
    (let value := number.asF64.toRat
    if value.den = 1 ∧ -9223372036854775808 ≤ value ∧ value < 9223372036854775808
    then some (Int64.ofInt value.num) else none)

end Nefor.Mag
