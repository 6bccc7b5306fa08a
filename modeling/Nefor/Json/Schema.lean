import Nefor.Json.Value

/-! JSON Schema over documents: the keywords `type`, `properties`, `required`,
`additionalProperties`, `items`, `anyOf`, `enum`, `minimum` and `maximum`. Every keyword of a
schema has to hold; annotations such as `title` always do. -/
namespace Nefor.Json

mutual
/-- Equality of JSON Schema, where numbers are equal when their values are. -/
def equivalent : Json → Json → Bool
  | .null, .null => true
  | .bool a, .bool b => a == b
  | .number a, .number b => decide (a.toRat = b.toRat)
  | .string a, .string b => a == b
  | .array xs, .array ys => equivalentItems xs ys
  | .object xs, .object ys => equivalentFields xs ys
  | _, _ => false
def equivalentItems : List Json → List Json → Bool
  | [], [] => true
  | x :: xs, y :: ys => equivalent x y && equivalentItems xs ys
  | _, _ => false
def equivalentFields : List (String × Json) → List (String × Json) → Bool
  | [], [] => true
  | (k,x) :: xs, (l,y) :: ys => k == l && equivalent x y && equivalentFields xs ys
  | _, _ => false
end

/-- The instances of a `type`; an integer is a number without a fraction. -/
def hasType (kind : String) : Json → Bool
  | .null => kind == "null"
  | .bool _ => kind == "boolean"
  | .number n => kind == "number" || kind == "integer" && decide (n.toRat.den = 1)
  | .string _ => kind == "string"
  | .array _ => kind == "array"
  | .object _ => kind == "object"

/-- The property is named by `properties`. -/
def declares (schema : Object) (key : String) : Bool :=
  match Object.get schema "properties" with
  | some (.object properties) => (Object.get properties key).isSome
  | _ => false

mutual
/-- The document is valid for the schema. -/
def satisfies : Json → Json → Bool
  | .bool b, _ => b
  | .object keywords, doc => keywordsHold keywords keywords doc
  | _, _ => false
def keywordsHold (schema : Object) : List (String × Json) → Json → Bool
  | [], _ => true
  | (name,v) :: rest, doc => keywordHolds schema name v doc && keywordsHold schema rest doc
/-- One keyword of `schema` holds; `additionalProperties` looks at its `properties`. -/
def keywordHolds (schema : Object) (name : String) : Json → Json → Bool
  | .string kind, doc => if name = "type" then hasType kind doc else true
  | .bool b, doc =>
    if name = "additionalProperties" then match doc with
      | .object fields => b || fields.all fun e => declares schema e.1
      | _ => true
    else if name = "items" then b || match doc with
      | .array items => items.isEmpty
      | _ => true
    else true
  | .number bound, doc => match doc with
    | .number n =>
      if name = "minimum" then decide (bound.toRat ≤ n.toRat)
      else if name = "maximum" then decide (n.toRat ≤ bound.toRat)
      else true
    | _ => true
  | .array items, doc =>
    if name = "required" then match doc with
      | .object fields => items.all fun key => match key with
        | .string key => (Object.get fields key).isSome
        | _ => false
      | _ => true
    else if name = "enum" then items.any (equivalent · doc)
    else if name = "anyOf" then anyHolds items doc
    else true
  | .object keywords, doc =>
    if name = "properties" then match doc with
      | .object fields => propertiesHold keywords fields
      | _ => true
    else if name = "items" then match doc with
      | .array items => items.all (keywordsHold keywords keywords)
      | _ => true
    else if name = "additionalProperties" then match doc with
      | .object fields => fields.all fun e =>
        declares schema e.1 || keywordsHold keywords keywords e.2
      | _ => true
    else true
  | .null, _ => true
def propertiesHold : List (String × Json) → Object → Bool
  | [], _ => true
  | (key,v) :: rest, fields => (match Object.get fields key with
    | some doc => satisfies v doc
    | none => true) && propertiesHold rest fields
def anyHolds : List Json → Json → Bool
  | [], _ => false
  | v :: rest, doc => satisfies v doc || anyHolds rest doc
end

attribute [local simp] keywordHolds

theorem keywordsHold_iff (schema : Object) (keywords : List (String × Json)) (doc : Json) :
    keywordsHold schema keywords doc ↔ ∀ e ∈ keywords, keywordHolds schema e.1 e.2 doc := by
  induction keywords with
  | nil => simp [keywordsHold]
  | cons e rest ih =>
    rw [keywordsHold,Bool.and_eq_true,ih,List.forall_mem_cons]

theorem propertiesHold_iff (properties : List (String × Json)) (fields : Object) :
    propertiesHold properties fields ↔
      ∀ e ∈ properties, ∀ doc, Object.get fields e.1 = some doc → satisfies e.2 doc := by
  induction properties with
  | nil => simp [propertiesHold]
  | cons e rest ih =>
    rw [propertiesHold,Bool.and_eq_true,ih,List.forall_mem_cons]
    cases Object.get fields e.1 <;> simp

theorem anyHolds_iff (options : List Json) (doc : Json) :
    anyHolds options doc ↔ ∃ v ∈ options, satisfies v doc := by
  induction options with
  | nil => simp [anyHolds]
  | cons v rest ih => simp [anyHolds,ih]

/-- A schema holds when each of its keywords does. -/
theorem satisfies_object {keywords : Object} (h : keywords.Sorted) (doc : Json) :
    satisfies (.object keywords) doc ↔
      ∀ name v, Object.get keywords name = some v → keywordHolds keywords name v doc := by
  rw [satisfies,keywordsHold_iff]
  constructor
  · intro ha name v hv
    exact ha (name,v) (Object.mem_of_get hv)
  · intro ha e he
    exact ha e.1 e.2 (h.get he)

/-- Keywords look at no other keyword than `properties`. -/
theorem keywordHolds_congr {a b : Object}
    (h : Object.get a "properties" = Object.get b "properties") (name : String) (v doc : Json) :
    keywordHolds a name v doc = keywordHolds b name v doc := by
  have hd : declares a = declares b := by
    funext key
    rw [declares,declares,h]
  cases v <;> cases doc <;> simp [hd]

theorem keywordHolds_title (schema : Object) (v doc : Json) :
    keywordHolds schema "title" v doc := by
  cases v <;> cases doc <;> simp

/-- A title constrains nothing. -/
theorem satisfies_title {keywords : Object} (h : keywords.Sorted) (title doc : Json) :
    satisfies (.object (Object.insert keywords "title" title)) doc ↔
      satisfies (.object keywords) doc := by
  have hp : Object.get (Object.insert keywords "title" title) "properties" =
      Object.get keywords "properties" := by rw [Object.get_insert]; simp
  rw [satisfies_object (h.insert _ _),satisfies_object h]
  constructor
  · intro ha name v hv
    by_cases ht : name = "title"
    · rw [ht]; exact keywordHolds_title _ _ _
    · rw [← keywordHolds_congr hp]
      exact ha name v (by rw [Object.get_insert,if_neg ht,hv])
  · intro ha name v hv
    by_cases ht : name = "title"
    · rw [ht]; exact keywordHolds_title _ _ _
    · rw [Object.get_insert,if_neg ht] at hv
      rw [keywordHolds_congr hp]
      exact ha name v hv

/-- An object written with the given entries. -/
def record (entries : List (String × Json)) : Json := .object (Object.ofList entries)

theorem satisfies_record {entries : List (String × Json)} (h : (entries.map (·.1)).Nodup)
    (doc : Json) : satisfies (record entries) doc ↔
      ∀ e ∈ entries, keywordHolds (Object.ofList entries) e.1 e.2 doc := by
  rw [record,satisfies_object (Object.ofList_sorted entries)]
  simp only [Object.get_ofList h,lookup_eq_some h]
  exact ⟨fun ha e he => ha e.1 e.2 he,fun ha name v he => ha (name,v) he⟩

/-- The array schema `{"type":"array","items":item}`. -/
def arrayOf (item : Json) : Json := record [("type",.string "array"),("items",item)]

theorem satisfies_arrayOf (keywords : Object) (doc : Json) :
    satisfies (arrayOf (.object keywords)) doc ↔
      ∃ items, doc = .array items ∧ ∀ x ∈ items, satisfies (.object keywords) x := by
  rw [arrayOf,satisfies_record (by simp)]
  cases doc <;> simp [hasType,satisfies]

/-- A schema for objects with exactly the given properties. -/
def exactly (properties : List (String × Json)) : Json := record [
  ("type",.string "object"),
  ("properties",.object (Object.ofList properties)),
  ("required",.array (properties.map fun e => .string e.1)),
  ("additionalProperties",.bool false)]

theorem exactly_declares (properties : List (String × Json))
    (h : (properties.map (·.1)).Nodup) (key : String) :
    declares (Object.ofList [("type",.string "object"),
      ("properties",.object (Object.ofList properties)),
      ("required",.array (properties.map fun e => .string e.1)),
      ("additionalProperties",.bool false)]) key = decide (key ∈ properties.map (·.1)) := by
  rw [declares,Object.get_ofList (by simp)]
  have hp : List.lookup "properties" [("type",Json.string "object"),
      ("properties",.object (Object.ofList properties)),
      ("required",.array (properties.map fun e => .string e.1)),
      ("additionalProperties",.bool false)] = some (.object (Object.ofList properties)) := rfl
  rw [hp]
  apply Bool.eq_iff_iff.mpr
  simp [Object.get_isSome,Object.mem_ofList h]

theorem satisfies_exactly {properties : List (String × Json)}
    (h : (properties.map (·.1)).Nodup) (doc : Json) :
    satisfies (exactly properties) doc ↔ ∃ fields, doc = .object fields ∧
      (∀ key, (Object.get fields key).isSome ↔ key ∈ properties.map (·.1)) ∧
      ∀ e ∈ properties, ∀ v, Object.get fields e.1 = some v → satisfies e.2 v := by
  rw [exactly,satisfies_record (by simp)]
  cases doc with
  | object fields =>
    simp [hasType,exactly_declares properties h,propertiesHold_iff,
      Object.get_isSome,Object.mem_ofList h]
    constructor
    · rintro ⟨hp,hr,ha⟩
      exact ⟨fun key => ⟨fun ⟨v,hv⟩ => ha key v hv,fun ⟨v,hv⟩ => hr key v hv⟩,hp⟩
    · rintro ⟨hk,hp⟩
      exact ⟨hp,fun key v hv => (hk key).mpr ⟨v,hv⟩,fun key v hv => (hk key).mp ⟨v,hv⟩⟩
  | _ => simp [hasType]

end Nefor.Json
