import Nefor.Mag.Value

/-! Decoding documents at a type (`json.rs`). Unlike a schema, the decoder unfolds declarations
as it meets them. -/
namespace Nefor.Mag
open Run (outOfFuel fail ofOption)

inductive RecordDecode
  | exact
  | projection
  deriving DecidableEq

/-- `exact_envelope`. -/
def exactEnvelope (value : Json) (tag payload : String) (ty : MagType) :
    Run MagError Json.Object :=
  match value with
  | .object object =>
    if object.length ≠ 2 ∨ (Json.Object.get object "$mag").bind Json.asStr ≠ some tag ∨
        Json.Object.get object payload = none then
      fail (.type ("expected exact " ++ tag ++ " envelope \x7b$mag, " ++ payload ++ "\x7d for " ++
        ty.text))
    else .ok object
  | _ => fail (.type ("expected " ++ tag ++ " envelope for " ++ ty.text))

/-- `reject_duplicate_values`, with the values before `values` at hand. -/
def rejectDuplicateValues (env : Env) (n : Nat) (label : String) :
    List Value → List Value → Run MagError Unit
  | _, [] => .ok ()
  | previous, value :: values => do
    if ← previous.anyM fun p => equal env n p value then
      fail (.type ("duplicate " ++ label ++ " at position " ++ toString previous.length))
    else rejectDuplicateValues env n label (previous ++ [value]) values

/-- `reject_duplicate_map_keys`. -/
def rejectDuplicateMapKeys (env : Env) (n : Nat) (entries : List (Value × Value)) :
    Run MagError Unit :=
  rejectDuplicateValues env n "map key" [] (entries.map (·.1))

def expected {α : Type} (ty : MagType) : Run MagError α := fail (.type ("expected " ++ ty.text))

/-- `decode_field_values`, over the decoding of one field. -/
def decodeFieldValues (decode : Json → MagType → Run MagError Value) (value : Json)
    (fields : List (String × MagType)) (mode : RecordDecode) (owner : MagType) :
    Run MagError Value :=
  match value with
  | .object object =>
    if mode = .exact ∧ object.length ≠ fields.length then
      fail (.type ("expected exact named fields for " ++ owner.text))
    else do
      let decoded ← fields.mapM fun f => do
        let field ← ofOption (Json.Object.get object f.1)
          (.type ("missing field " ++ f.1 ++ " for " ++ owner.text))
        let v ← decode field f.2
        .ok (f.1,v)
      .ok (.fields decoded)
  | _ => expected owner

/-- The decoding of a constructor and its payload. -/
def decodeAdt (decode : Json → MagType → Run MagError Value) (value : Json)
    (constructors : List ConstructorDecl) (subst : List (String × MagType)) (ty : MagType) :
    Run MagError Value :=
  match value with
  | .object object =>
    if object.length ≠ 2 ∨ Json.Object.get object "constructor" = none ∨
        Json.Object.get object "value" = none then
      fail (.type ("expected exact ADT envelope \x7bconstructor, value\x7d for " ++ ty.text))
    else do
      let name ← ofOption ((Json.Object.get object "constructor").bind Json.asStr)
        (.type "ADT constructor must be a string")
      let constructor ← ofOption (constructors.find? fun c => c.id.name == name)
        (.type ("constructor " ++ name ++ " is not a member of " ++ ty.text))
      let payload ← ofOption (Json.Object.get object "value") (.type "ADT envelope needs value")
      let decoded ← decode payload (constructor.payload.substitute subst)
      .ok (.adt ty constructor.id decoded)
  | _ => fail (.type ("expected ADT envelope for " ++ ty.text))

/-- The decoding of one `[key, value]` entry. -/
def decodeMapEntry (decode : Json → MagType → Run MagError Value) (key item ty : MagType) :
    Json → Run MagError (Value × Value)
  | .array [k,v] => do
    let k ← decode k key
    let v ← decode v item
    .ok (k,v)
  | _ => fail (.type ("map entry must be [key, value] for " ++ ty.text))

/-- The decoding of a nominal type through its declaration. -/
def decodeNamed (decode : Json → MagType → Run MagError Value) (mode : RecordDecode)
    (value : Json) (decl : TypeDecl) (name : String) (args : List MagType) :
    Run MagError Value :=
  let ty := MagType.named name args
  let subst := substitutions decl.params args
  match decl.body with
  | .fields fs => do
    let fields ← decodeFieldValues decode value
      (fs.types.map fun f => (f.1,f.2.substitute subst)) mode ty
    .ok (.typed fields ty)
  | .transparentAlias body => do
    let inner ← decode value (body.substitute subst)
    .ok (.typed inner ty)
  | .nominalAlias body => do
    let inner ← decode value (body.substitute subst)
    .ok (.typed inner ty)
  | .adt constructors => decodeAdt decode value constructors subst ty
  | .native => fail (.type ("native type " ++ name ++ " cannot be decoded as a nominal value"))

/-- `decode_typed_value`. -/
def decodeTypedValue (env : Env) (mode : RecordDecode) : Nat → Json → MagType →
    Run MagError Value
  | 0, _, _ => outOfFuel
  | n+1, value, ty => match ty with
    | .named name args => do
      let decl ← ofOption (env.typeDecl name) (.type ("unknown nominal type " ++ name))
      decodeNamed (decodeTypedValue env mode n) mode value decl name args
    | .list item => do
      let items ← ofOption value.asArray (.type ("expected " ++ ty.text))
      let decoded ← items.mapM fun entry => decodeTypedValue env mode n entry item
      .ok (.list decoded)
    | .set item => do
      let object ← exactEnvelope value "set" "items" ty
      let values ← ofOption ((Json.Object.get object "items").bind Json.asArray)
        (.type ("set items must be an array for " ++ ty.text))
      let decoded ← values.mapM fun entry => decodeTypedValue env mode n entry item
      rejectDuplicateValues env n "set item" [] decoded
      .ok (.typed (.set decoded) ty)
    | .map .string item => do
      let object ← ofOption value.asObject (.type ("expected " ++ ty.text))
      let decoded ← object.mapM fun e => do
        let v ← decodeTypedValue env mode n e.2 item
        .ok (Value.str e.1,v)
      .ok (.typed (.map decoded) ty)
    | .map key item => do
      let object ← exactEnvelope value "map" "entries" ty
      let entries ← ofOption ((Json.Object.get object "entries").bind Json.asArray)
        (.type ("map entries must be an array for " ++ ty.text))
      let decoded ← entries.mapM (decodeMapEntry (decodeTypedValue env mode n) key item ty)
      rejectDuplicateMapKeys env n decoded
      .ok (.typed (.map decoded) ty)
    | .product components => do
      let values ← ofOption value.asArray (.type ("expected ordered tuple " ++ ty.text))
      if values.length ≠ components.length then
        fail (.type ("expected " ++ toString components.length ++ " tuple positions for " ++
          ty.text ++ ", got " ++ toString values.length))
      else do
        let decoded ← (values.zip components).mapM fun p => decodeTypedValue env mode n p.1 p.2
        .ok (.product decoded)
    | .jsonValue => .ok (.jsonValue value)
    | .float => do
      let f ← ofOption value.asF64 (.type ("expected " ++ ty.text))
      .ok (.float (.finite f))
    | .int => match value with
      | .number number => do
        let i ← ofOption (jsonNumberToI64 number) (.type ("expected " ++ ty.text))
        .ok (.int i)
      | _ => expected ty
    | .unit => match value with
      | .null => .ok .unit
      | _ => expected ty
    | .bool => match value with
      | .bool b => .ok (.bool b)
      | _ => expected ty
    | .string => do
      let s ← ofOption value.asStr (.type ("expected " ++ ty.text))
      .ok (.str s)
    | unsupported =>
      fail (.type (unsupported.text ++ " is not representable as typed runtime JSON"))

/-- `json_to_typed_value`. -/
def jsonToTypedValue (env : Env) (n : Nat) (value : Json) (ty : MagType) : Run MagError Value :=
  decodeTypedValue env .exact n value ty

/-- Only the type `String` itself makes the keys of an object. -/
theorem decodeTypedValue_map {env : Env} {mode : RecordDecode} {n : Nat} {key : MagType}
    (hk : key ≠ .string) (value : Json) (item : MagType) :
    decodeTypedValue env mode (n+1) value (.map key item) = (do
      let ty := MagType.map key item
      let object ← exactEnvelope value "map" "entries" ty
      let entries ← ofOption ((Json.Object.get object "entries").bind Json.asArray)
        (.type ("map entries must be an array for " ++ ty.text))
      let decoded ← entries.mapM (decodeMapEntry (decodeTypedValue env mode n) key item ty)
      rejectDuplicateMapKeys env n decoded
      .ok (.typed (.map decoded) ty)) := by
  cases key with
  | string => exact absurd rfl hk
  | _ => rfl

section Fuel
variable {env : Env} {mode : RecordDecode}

theorem rejectDuplicateValues_le {n m : Nat} (h : n ≤ m) (label : String)
    (previous values : List Value) :
    Run.Le (rejectDuplicateValues env n label previous values)
      (rejectDuplicateValues env m label previous values) := by
  induction values generalizing previous with
  | nil => exact Run.Le.refl _
  | cons v rest ih =>
    refine (Run.Le.anyM previous fun p _ => equal_le h p v).bind fun found => ?_
    split
    · exact Run.Le.refl _
    · exact ih _

theorem decodeNamed_le {f g : Json → MagType → Run MagError Value}
    (h : ∀ v t, Run.Le (f v t) (g v t)) (value : Json) (decl : TypeDecl) (name : String)
    (args : List MagType) :
    Run.Le (decodeNamed f mode value decl name args) (decodeNamed g mode value decl name args) := by
  obtain ⟨dname,params,body⟩ := decl
  cases body with
  | fields fs =>
    refine Run.Le.bind ?_ fun _ => Run.Le.refl _
    unfold decodeFieldValues
    cases value with
    | object object =>
      dsimp only
      split
      · exact Run.Le.refl _
      · refine (Run.Le.mapM _ fun f _ => ?_).bind fun _ => Run.Le.refl _
        exact (Run.Le.refl _).bind fun field => (h _ _).bind fun _ => Run.Le.refl _
    | _ => exact Run.Le.refl _
  | transparentAlias body => exact (h _ _).bind fun _ => Run.Le.refl _
  | nominalAlias body => exact (h _ _).bind fun _ => Run.Le.refl _
  | adt constructors =>
    simp only [decodeNamed,decodeAdt]
    cases value with
    | object object =>
      dsimp only
      split
      · exact Run.Le.refl _
      · refine (Run.Le.refl _).bind fun _ => (Run.Le.refl _).bind fun _ => ?_
        exact (Run.Le.refl _).bind fun _ => (h _ _).bind fun _ => Run.Le.refl _
    | _ => exact Run.Le.refl _
  | native => exact Run.Le.refl _

theorem decodeMapEntry_le {f g : Json → MagType → Run MagError Value}
    (h : ∀ v t, Run.Le (f v t) (g v t)) (key item ty : MagType) (e : Json) :
    Run.Le (decodeMapEntry f key item ty e) (decodeMapEntry g key item ty e) := by
  unfold decodeMapEntry
  split
  · exact (h _ _).bind fun _ => (h _ _).bind fun _ => Run.Le.refl _
  · exact Run.Le.refl _

/-- More fuel takes a decoding up. -/
theorem decodeTypedValue_le_succ (n : Nat) (value : Json) (ty : MagType) :
    Run.Le (decodeTypedValue env mode n value ty) (decodeTypedValue env mode (n+1) value ty) := by
  induction n generalizing value ty with
  | zero => exact Run.outOfFuel_le _
  | succ n ih =>
    have hitems : ∀ (item : MagType) (values : List Json),
        Run.Le (values.mapM fun entry => decodeTypedValue env mode n entry item)
          (values.mapM fun entry => decodeTypedValue env mode (n+1) entry item) :=
      fun item values => Run.Le.mapM values fun v _ => ih v item
    cases ty with
    | named name args =>
      exact (Run.Le.refl _).bind fun decl => decodeNamed_le ih value decl name args
    | list item =>
      exact (Run.Le.refl _).bind fun items => (hitems item items).bind fun _ => Run.Le.refl _
    | set item =>
      refine (Run.Le.refl _).bind fun object => (Run.Le.refl _).bind fun values => ?_
      refine (hitems item values).bind fun decoded => ?_
      exact (rejectDuplicateValues_le n.le_succ _ _ _).bind fun _ => Run.Le.refl _
    | map key item =>
      by_cases hk : key = .string
      · subst hk
        refine (Run.Le.refl _).bind fun object => ?_
        refine (Run.Le.mapM object fun e _ => ?_).bind fun _ => Run.Le.refl _
        exact (ih e.2 item).bind fun _ => Run.Le.refl _
      · rw [decodeTypedValue_map hk,decodeTypedValue_map hk]
        refine (Run.Le.refl _).bind fun object => (Run.Le.refl _).bind fun entries => ?_
        refine (Run.Le.mapM entries fun e _ => decodeMapEntry_le ih key item _ e).bind ?_
        intro decoded
        exact (rejectDuplicateValues_le n.le_succ _ _ _).bind fun _ => Run.Le.refl _
    | product components =>
      refine (Run.Le.refl _).bind fun values => ?_
      split
      · exact Run.Le.refl _
      · refine (Run.Le.mapM _ fun p _ => ?_).bind fun _ => Run.Le.refl _
        exact ih p.1 p.2
    | _ => exact Run.Le.refl _

theorem decodeTypedValue_le {n m : Nat} (h : n ≤ m) (value : Json) (ty : MagType) :
    Run.Le (decodeTypedValue env mode n value ty) (decodeTypedValue env mode m value ty) := by
  induction h with
  | refl => exact Run.Le.refl _
  | step _ ih => exact ih.trans (decodeTypedValue_le_succ _ value ty)

end Fuel

end Nefor.Mag
