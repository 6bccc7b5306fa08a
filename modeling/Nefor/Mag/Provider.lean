import Nefor.Mag.Schema

/-! Lowering a schema to the strict structured-output subset of a provider, and decoding the
answers. Sets, maps, products and sums have a wire form of their own. -/
namespace Nefor.Mag
open Nefor.Json (record exactly arrayOf)

mutual
/-- `provider_schema_at_path`. -/
def providerSchemaAtPath : SchemaType → String → Except MagError Json
  | .jsonValue, path => .error (.type ("JsonValue at " ++ path ++
      " has no faithful OpenAI strict structured-output representation"))
  | .unit, _ => .ok (record [("type",.string "null")])
  | .bool, _ => .ok (record [("type",.string "boolean")])
  | .int, _ => .ok (record [("type",.string "integer"),
      ("minimum",.number (.ofI64 Int64.minValue)),("maximum",.number (.ofI64 Int64.maxValue))])
  | .float, _ => .ok (record [("type",.string "number"),
      ("minimum",.number (.float F64.min)),("maximum",.number (.float F64.max))])
  | .string, _ => .ok (record [("type",.string "string")])
  | .list item, path => do
    let items ← providerSchemaAtPath item (path ++ "[]")
    .ok (arrayOf items)
  | .set item, path => do
    let items ← providerSchemaAtPath item (path ++ "[]")
    .ok (arrayOf items)
  | .map key value, path => do
    let keySchema ← providerSchemaAtPath key (path ++ ".key")
    let valueSchema ← providerSchemaAtPath value (path ++ ".value")
    .ok (arrayOf (exactly [("key",keySchema),("value",valueSchema)]))
  | .fields fs, path => do
    let properties ← providerProperties fs path
    .ok (exactly properties)
  | .union variants, path => do
    let options ← providerOptions variants unionWire.tagKey path
    .ok (record [("anyOf",.array options)])
  | .adt name _ constructors, path => do
    let options ← providerOptions constructors adtWire.tagKey path
    .ok (record [("title",.string name),("anyOf",.array options)])
  | .product components, path => do
    let properties ← providerPositions components path 0
    .ok (exactly properties)
  | .named name body, path => do
    let value ← providerSchemaAtPath body (path ++ "(" ++ name ++ ")")
    .ok (match value with
      | .object keywords => .object (Json.Object.insert keywords "title" (.string name))
      | other => other)
def providerProperties : List (String × SchemaType) → String →
    Except MagError (List (String × Json))
  | [], _ => .ok []
  | (name,s) :: rest, path => do
    let value ← providerSchemaAtPath s (fieldPath path name)
    let others ← providerProperties rest path
    .ok ((name,value) :: others)
def providerPositions : List SchemaType → String → Nat → Except MagError (List (String × Json))
  | [], _, _ => .ok []
  | s :: rest, path, index => do
    let value ← providerSchemaAtPath s (itemPath path index)
    let others ← providerPositions rest path (index+1)
    .ok ((toString index,value) :: others)
/-- One object schema for each member, told apart by an `enum` of one tag. -/
def providerOptions : List (String × SchemaType) → String → String →
    Except MagError (List Json)
  | [], _, _ => .ok []
  | (tag,s) :: rest, tagKey, path => do
    let value ← providerSchemaAtPath s (path ++ "<" ++ tag ++ ">")
    let others ← providerOptions rest tagKey path
    .ok (exactly [(tagKey,record [("type",.string "string"),("enum",.array [.string tag])]),
      ("value",value)] :: others)
end

/-- `provider_decode_violation`. -/
def providerDecodeViolation (path expected : String) (actual : Json) : Violation where
  path := path
  code := "invalid_provider_encoding"
  expected := expected
  actual := jsonKind actual
  message := "provider response did not use the required " ++ expected ++ " encoding"

/-- Decode the items of an array from position `index` on. -/
def decodeItems (decode : Json → String → Except Violation Json) (path : String) :
    List Json → Nat → Except Violation (List Json)
  | [], _ => .ok []
  | x :: rest, index => do
    let value ← decode x (itemPath path index)
    let others ← decodeItems decode path rest (index+1)
    .ok (value :: others)

/-- Decode one map entry, an object of exactly a key and a value. -/
def decodeEntry (decodeKey decodeValue : Json → String → Except Violation Json) (entry : Json)
    (entryPath : String) : Except Violation (Json × Json) :=
  match entry with
  | .object fields =>
    if fields.length ≠ 2 ∨ Json.Object.get fields "key" = none ∨
        Json.Object.get fields "value" = none then
      .error (providerDecodeViolation entryPath "object containing only key and value" entry)
    else do
      let key ← decodeKey ((Json.Object.get fields "key").getD .null) (entryPath ++ ".key")
      let value ← decodeValue ((Json.Object.get fields "value").getD .null) (entryPath ++ ".value")
      .ok (key,value)
  | _ => .error (providerDecodeViolation entryPath "map entry object" entry)

/-- The entries of a map with string keys, inserted into `object` one by one. -/
def decodeStringEntries (decodeKey decodeValue : Json → String → Except Violation Json)
    (path : String) : List Json → Nat → Json.Object → Except Violation Json.Object
  | [], _, object => .ok object
  | entry :: rest, index, object => do
    let (key,value) ← decodeEntry decodeKey decodeValue entry (itemPath path index)
    match key with
    | .string name =>
      if (Json.Object.get object name).isSome
      then .error (duplicateViolation (itemPath path index ++ ".key") "map key")
      else
        let object := Json.Object.insert object name value
        decodeStringEntries decodeKey decodeValue path rest (index+1) object
    | other => .error (providerDecodeViolation (itemPath path index ++ ".key") "string" other)

/-- The entries of any other map, as pairs. -/
def decodeEntries (decodeKey decodeValue : Json → String → Except Violation Json)
    (path : String) : List Json → Nat → Except Violation (List Json)
  | [], _ => .ok []
  | entry :: rest, index => do
    let (key,value) ← decodeEntry decodeKey decodeValue entry (itemPath path index)
    let others ← decodeEntries decodeKey decodeValue path rest (index+1)
    .ok (.array [key,value] :: others)

mutual
/-- `decode_provider_value`. -/
def decodeProviderValue : SchemaType → Json → String → Except Violation Json
  | .named _ body, value, path => decodeProviderValue body value path
  | .set item, value, path => match value with
    | .array items => do
      let decoded ← decodeItems (fun v p => decodeProviderValue item v p) path items 0
      .ok (record [("$mag",.string "set"),("items",.array decoded)])
    | _ => .error (providerDecodeViolation path "array of set items" value)
  | .map key item, value, path => match value with
    | .array entries =>
      if isStringKey key then do
        let object ← decodeStringEntries (fun v p => decodeProviderValue key v p)
          (fun v p => decodeProviderValue item v p) path entries 0 []
        .ok (.object object)
      else do
        let decoded ← decodeEntries (fun v p => decodeProviderValue key v p)
          (fun v p => decodeProviderValue item v p) path entries 0
        .ok (record [("$mag",.string "map"),("entries",.array decoded)])
    | _ => .error (providerDecodeViolation path "array of map entries" value)
  | .product components, value, path => match value with
    | .object fields => do
      let (decoded,others) ← decodePositions components fields path 0
      if others.isEmpty then .ok (.array decoded)
      else .error (providerDecodeViolation path "exact positional object" (.object others))
    | _ => .error (providerDecodeViolation path "positional object" value)
  | .fields fs, value, path => match value with
    | .object values => do
      let decoded ← decodeFields fs values path
      .ok (.object decoded)
    | _ => .error (providerDecodeViolation path "object" value)
  | .list item, value, path => match value with
    | .array items => do
      let decoded ← decodeItems (fun v p => decodeProviderValue item v p) path items 0
      .ok (.array decoded)
    | _ => .error (providerDecodeViolation path "array" value)
  | .int, value, path => match value with
    | .number n =>
      if n.asI64.isSome then .ok (.number n)
      else match jsonNumberToI64 n with
        | some i => .ok (.number (.ofI64 i))
        | none => .error (providerDecodeViolation path "Int" value)
    | _ => .error (providerDecodeViolation path "Int" value)
  | .union variants, value, path => decodeSum variants unionWire.tagKey "tagged sum object" value path
  | .adt _ _ constructors, value, path =>
    decodeSum constructors adtWire.tagKey "ADT object" value path
  | .jsonValue, value, _ => .ok value
  | .unit, value, _ => .ok value
  | .bool, value, _ => .ok value
  | .float, value, _ => .ok value
  | .string, value, _ => .ok value
/-- Decode the positions from `index` on, and what is left of the object. -/
def decodePositions : List SchemaType → Json.Object → String → Nat →
    Except Violation (List Json × Json.Object)
  | [], fields, _, _ => .ok ([],fields)
  | s :: rest, fields, path, index => match Json.Object.get fields (toString index) with
    | none => .error (providerDecodeViolation path "complete positional object" (.object fields))
    | some position => do
      let value ← decodeProviderValue s position (path ++ "." ++ toString index)
      let (others,left) ←
        decodePositions rest (Json.Object.erase fields (toString index)) path (index+1)
      .ok (value :: others,left)
def decodeFields : List (String × SchemaType) → Json.Object → String →
    Except Violation Json.Object
  | [], values, _ => .ok values
  | (name,s) :: rest, values, path => match Json.Object.get values name with
    | none => decodeFields rest values path
    | some field => do
      let value ← decodeProviderValue s field (fieldPath path name)
      decodeFields rest (Json.Object.insert values name value) path
def decodeSum (members : List (String × SchemaType)) (tagKey label : String) (value : Json)
    (path : String) : Except Violation Json :=
  match value with
  | .object fields => match (Json.Object.get fields tagKey).bind Json.asStr with
    | none => .error (providerDecodeViolation path label value)
    | some tag => decodeMember members tag fields path
  | _ => .error (providerDecodeViolation path label value)
/-- Decode the payload as the first member of that tag. -/
def decodeMember : List (String × SchemaType) → String → Json.Object → String →
    Except Violation Json
  | [], _, fields, _ => .ok (.object fields)
  | (name,s) :: rest, tag, fields, path =>
    if name = tag then match Json.Object.get fields "value" with
      | none => .ok (.object fields)
      | some payload => do
        let value ← decodeProviderValue s payload (fieldPath path "value")
        .ok (.object (Json.Object.insert fields "value" value))
    else decodeMember rest tag fields path
end

/-- `TypeSchema::to_provider_schema`. -/
def TypeSchema.toProviderSchema (schema : TypeSchema) : Except MagError Json := do
  let value ← providerSchemaAtPath schema.root "$"
  .ok (exactly [("value",value)])

def MagError.text : MagError → String
  | .syntaxError message => message
  | .lex message => "lexer: " ++ message
  | .parse message => "parse: " ++ message
  | .eval message => "eval: " ++ message
  | .budget message => "evaluation budget exceeded: " ++ message
  | .type message => "type error: " ++ message
  | .unresolved name => "unresolved symbol: " ++ name
  | .arity expected got =>
    "arity: expected " ++ toString expected ++ ", got " ++ toString got

def failedWith (violation : Violation) : JsonValidation where
  ok := false
  violations := [violation]

/-- `TypeSchema::validate_provider_json`, over the JSON parser of the library. -/
def TypeSchema.validateProviderJson (parse : String → Except String Json.Document)
    (schema : TypeSchema) (source : String) : JsonValidation :=
  match parse source with
  | .error message => validationError "malformed_json" message
  | .ok value => match schema.toProviderSchema with
    | .error e => validationError "unsupported_provider_schema" e.text
    | .ok _ => match value.1 with
      | .object [("value",encoded)] => match decodeProviderValue schema.root encoded "$" with
        | .ok decoded => schema.validateValue decoded
        | .error violation => failedWith violation
      | other => failedWith {
          path := "$"
          code := "invalid_provider_envelope"
          expected := "object containing only required field 'value'"
          actual := jsonKind other
          message := "provider response did not match the structured-output root envelope" }

end Nefor.Mag
