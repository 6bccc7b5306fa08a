import Nefor.Except
import Nefor.Json.Equality
import Nefor.Mag.Descriptor

/-! Reading the document of a descriptor (`json.rs`): exactly the documents that are written for
descriptors are accepted, where the body of a named one may be left out for the unit body. -/
namespace Nefor.Mag

/-! The bodies that may be left out. -/

mutual
/-- `fill_missing_named_bodies`. -/
def fillMissingNamedBodies : Json → Json
  | .array values => .array (fillAll values)
  | .object fields =>
    let object := fillFields fields
    if (Json.Object.get object "kind").bind Json.asStr = some "named" ∧
        (Json.Object.get object "body").isNone then
      .object (Json.Object.insert object "body"
        (jsonObject [("kind",.string "primitive"),("name",.string "Unit")]))
    else .object object
  | scalar => scalar
def fillAll : List Json → List Json
  | [] => []
  | value :: rest => fillMissingNamedBodies value :: fillAll rest
def fillFields : List (String × Json) → List (String × Json)
  | [] => []
  | (key,value) :: rest => (key,fillMissingNamedBodies value) :: fillFields rest
end

/-- The body that is filled in. -/
def unitBody : Json := jsonObject [("kind",.string "primitive"),("name",.string "Unit")]

/-- A named descriptor without a body. -/
def LacksBody (fields : Json.Object) : Prop :=
  (Json.Object.get fields "kind").bind Json.asStr = some "named" ∧ Json.Object.get fields "body" = none

instance : DecidablePred LacksBody := fun fields => by unfold LacksBody; infer_instance

theorem fillAll_eq (values : List Json) : fillAll values = values.map fillMissingNamedBodies := by
  induction values with
  | nil => rfl
  | cons value rest ih => rw [fillAll,ih,List.map_cons]

theorem get_fillFields (fields : Json.Object) (key : String) :
    Json.Object.get (fillFields fields) key = (Json.Object.get fields key).map fillMissingNamedBodies := by
  induction fields with
  | nil => rfl
  | cons e rest ih =>
    obtain ⟨k,v⟩ := e
    rw [fillFields,Json.Object.get_cons,Json.Object.get_cons,ih]
    by_cases h : key = k
    · rw [if_pos h,if_pos h]
      rfl
    · rw [if_neg h,if_neg h]

theorem asStr_fill (value : Json) : (fillMissingNamedBodies value).asStr = value.asStr := by
  cases value with
  | object fields =>
    rw [fillMissingNamedBodies]
    split <;> rfl
  | _ => rfl

/-- A body is filled in where one is lacking, and nothing else is changed. -/
theorem get_fillMissingNamedBodies (fields : Json.Object) (key : String) :
    (fillMissingNamedBodies (.object fields)).get key =
      if LacksBody fields ∧ key = "body" then some unitBody
      else (Json.Object.get fields key).map fillMissingNamedBodies := by
  have hlacks : ((Json.Object.get (fillFields fields) "kind").bind Json.asStr = some "named" ∧
      (Json.Object.get (fillFields fields) "body").isNone) ↔ LacksBody fields := by
    rw [get_fillFields,get_fillFields]
    unfold LacksBody
    cases hk : Json.Object.get fields "kind" <;> cases hb : Json.Object.get fields "body" <;>
      simp [asStr_fill]
  rw [fillMissingNamedBodies]
  by_cases h : LacksBody fields
  · simp only [if_pos (hlacks.mpr h)]
    change Json.Object.get (Json.Object.insert _ _ _) key = _
    rw [Json.Object.get_insert,get_fillFields]
    by_cases hkey : key = "body" <;> simp [h,hkey,unitBody]
  · simp only [if_neg (mt hlacks.mp h)]
    change Json.Object.get (fillFields fields) key = _
    rw [get_fillFields]
    simp [h]

theorem fillFields_eq (fields : Json.Object) :
    fillFields fields = fields.map fun e => (e.1,fillMissingNamedBodies e.2) := by
  induction fields with
  | nil => rfl
  | cons e rest ih => rw [fillFields,ih,List.map_cons]

theorem insert_map (f : Json → Json) (fields : Json.Object) (key : String) (value : Json) :
    (Json.Object.insert fields key value).map (fun e => (e.1,f e.2)) =
      Json.Object.insert (fields.map fun e => (e.1,f e.2)) key (f value) := by
  induction fields with
  | nil => rfl
  | cons e rest ih =>
    obtain ⟨k,v⟩ := e
    unfold Json.Object.insert
    by_cases hlt : key < k
    · simp [hlt]
    · by_cases heq : key = k
      · simp [heq]
      · simp [hlt,heq,ih]

theorem ofList_map (f : Json → Json) (entries : List (String × Json)) :
    (Json.Object.ofList entries).map (fun e => (e.1,f e.2)) =
      Json.Object.ofList (entries.map fun e => (e.1,f e.2)) := by
  have hfold : ∀ fields : Json.Object,
      (entries.foldl (fun fields e => Json.Object.insert fields e.1 e.2) fields).map (fun e => (e.1,f e.2)) =
      (entries.map fun e => (e.1,f e.2)).foldl (fun fields e => Json.Object.insert fields e.1 e.2)
        (fields.map fun e => (e.1,f e.2)) := by
    induction entries with
    | nil => exact fun _ => rfl
    | cons e rest ih =>
      intro fields
      rw [List.foldl_cons,ih,insert_map]
      rfl
  exact hfold []

/-- An object that lacks no body itself is filled part by part. -/
theorem fill_jsonObject {entries : List (String × Json)} (hn : (entries.map (·.1)).Nodup)
    (h : entries.lookup "kind" = some (.string "named") → entries.lookup "body" ≠ none) :
    fillMissingNamedBodies (jsonObject entries) =
      jsonObject (entries.map fun e => (e.1,fillMissingNamedBodies e.2)) := by
  have hlacks : ¬((Json.Object.get (fillFields (Json.Object.ofList entries)) "kind").bind Json.asStr =
      some "named" ∧ (Json.Object.get (fillFields (Json.Object.ofList entries)) "body").isNone) := by
    rw [get_fillFields,get_fillFields,Json.Object.get_ofList hn,Json.Object.get_ofList hn]
    rintro ⟨hkind,hbody⟩
    rw [Option.isNone_iff_eq_none,Option.map_eq_none_iff] at hbody
    obtain ⟨value,hvalue,hstr⟩ := Option.bind_eq_some_iff.mp hkind
    obtain ⟨kind,hget,rfl⟩ := Option.map_eq_some_iff.mp hvalue
    rw [asStr_fill,Json.asStr_eq_some] at hstr
    exact h (hstr ▸ hget) hbody
  unfold jsonObject
  rw [fillMissingNamedBodies]
  simp only [if_neg hlacks]
  rw [fillFields_eq,ofList_map]

theorem object_of_fill {value : Json} {object : Json.Object}
    (h : fillMissingNamedBodies value = .object object) : ∃ fields, value = .object fields := by
  cases value with
  | object fields => exact ⟨fields,rfl⟩
  | _ => cases h

theorem array_of_fill {value : Json} {values : List Json} (h : fillMissingNamedBodies value = .array values) :
    ∃ items, value = .array items ∧ items.map fillMissingNamedBodies = values := by
  cases value with
  | array items =>
    rw [fillMissingNamedBodies,fillAll_eq] at h
    exact ⟨items,rfl,Json.array.inj h⟩
  | object fields =>
    rw [fillMissingNamedBodies] at h
    split at h <;> cases h
  | _ => cases h

theorem string_of_fill {value : Json} {s : String} (h : fillMissingNamedBodies value = .string s) :
    value = .string s := by
  have hstr := congrArg Json.asStr h
  rw [asStr_fill] at hstr
  exact Json.asStr_eq_some.mp hstr

/-! The decoder. -/

theorem sizeOf_lt_of_get {object : Json.Object} {key : String} {value : Json}
    (h : object.get key = some value) : sizeOf value < sizeOf object := by
  have hmem := List.sizeOf_lt_of_mem (Json.Object.mem_of_get h)
  have hpair : sizeOf (key,value) = 1 + sizeOf key + sizeOf value := rfl
  omega

/-- A part of an object, which is smaller. -/
def part (object : Json.Object) (key : String) : Option {value : Json // sizeOf value < sizeOf object} :=
  match h : object.get key with
  | some value => some ⟨value,sizeOf_lt_of_get h⟩
  | none => none

/-- A list in an object. -/
def listPart (object : Json.Object) (key : String) :
    Option {values : List Json // sizeOf values < sizeOf object} :=
  match part object key with
  | some ⟨.array values,h⟩ => some ⟨values,by simp at h; omega⟩
  | _ => none

def require {α : Type} (value : Option α) (message : String) : Except MagError α :=
  match value with
  | some value => .ok value
  | none => .error (.type message)

def stringField (object : Json.Object) (field : String) : Except MagError String :=
  require ((object.get field).bind Json.asStr) ("semantic descriptor needs string " ++ field)

section Decode
-- how a name is written in a message, the `:?` of a format string
variable (debug : String → String)

mutual
/-- `concrete_type_from_json`. -/
def concreteTypeFromJson (value : Json) : Except MagError ConcreteType :=
  match value with
  | .object object => do
    let kind ← stringField object "kind"
    let descriptor ← descriptorOfKind object kind
    if concreteTypeToJson descriptor ≠ fillMissingNamedBodies (.object object) then
      .error (.type "semantic descriptor is not in canonical compiler form")
    else .ok descriptor
  | _ => .error (.type "semantic descriptor must be an object")
termination_by (sizeOf value,0)

/-- The descriptor before it is compared with the document. -/
def descriptorOfKind (object : Json.Object) (kind : String) : Except MagError ConcreteType :=
  match kind with
  | "primitive" => do
    let name ← stringField object "name"
    match name with
    | "JsonValue" => .ok .jsonValue
    | "Unit" => .ok .unit
    | "Bool" => .ok .bool
    | "Int" => .ok .int
    | "Float" => .ok .float
    | "String" => .ok .string
    | name => .error (.type ("unknown semantic primitive " ++ debug name))
  | "named" => do
    let name ← stringField object "name"
    let ⟨arguments,_⟩ ← require (listPart object "arguments") "semantic descriptor needs list arguments"
    let arguments ← descriptorList arguments
    match part object "body" with
    | some ⟨body,_⟩ => concreteNamedBodyFromJson name arguments body
    | none => .ok (.namedAlias name arguments .unit)
  | "adt" => do
    let ⟨constructors,_⟩ ← require (listPart object "constructors")
      "ADT semantic descriptor needs constructors"
    let constructors ← constructorsFromJson constructors none
    if constructors = [] then .error (.type "ADT descriptor needs constructors")
    else do
      let name ← stringField object "name"
      let ⟨arguments,_⟩ ← require (listPart object "arguments") "semantic descriptor needs list arguments"
      let arguments ← descriptorList arguments
      .ok (.adt name arguments constructors)
  | "list" => do
    let ⟨item,_⟩ ← require (part object "item") "list semantic descriptor needs item"
    let item ← concreteTypeFromJson item
    .ok (.list item)
  | "set" => do
    let ⟨item,_⟩ ← require (part object "item") "set semantic descriptor needs item"
    let item ← concreteTypeFromJson item
    .ok (.set item)
  | "map" => do
    let ⟨key,_⟩ ← require (part object "key") "map semantic descriptor needs key"
    let key ← concreteTypeFromJson key
    let ⟨value,_⟩ ← require (part object "value") "map semantic descriptor needs value"
    let value ← concreteTypeFromJson value
    .ok (.map key value)
  | "record" => .error (.type "standalone record semantic descriptors are unsupported")
  | "union" => .error (.type "structural union semantic descriptors are unsupported; declare an ADT")
  | "product" => do
    let ⟨items,_⟩ ← require (listPart object "items") "semantic descriptor needs list items"
    let items ← descriptorList items
    .ok (.product items)
  | other => .error (.type ("unknown semantic descriptor kind " ++ debug other))
termination_by (sizeOf object,2)

/-- `concrete_named_body_from_json`, put into the named descriptor. -/
def concreteNamedBodyFromJson (name : String) (arguments : List ConcreteType) (value : Json) :
    Except MagError ConcreteType :=
  match value with
  | .object object =>
    if (Json.Object.get object "kind").bind Json.asStr ≠ some "record" then do
      let ty ← concreteTypeFromJson (.object object)
      .ok (.namedAlias name arguments ty)
    else do
      let ⟨entries,_⟩ ← require (listPart object "fields") "named record body needs fields"
      let fields ← fieldsFromJson entries none []
      .ok (.namedFields name arguments fields)
  | value => do
    let ty ← concreteTypeFromJson value
    .ok (.namedAlias name arguments ty)
termination_by (sizeOf value,1)

/-- `descriptor_list`, from the list on. -/
def descriptorList (values : List Json) : Except MagError (List ConcreteType) :=
  match values with
  | [] => .ok []
  | value :: rest => do
    let ty ← concreteTypeFromJson value
    let rest ← descriptorList rest
    .ok (ty :: rest)
termination_by (sizeOf values,0)

/-- The fields of a record, after the field `previous`. -/
def fieldsFromJson (entries : List Json) (previous : Option String) (fields : List (String × ConcreteType)) :
    Except MagError (List (String × ConcreteType)) :=
  match entries with
  | [] => .ok fields
  | .object field :: rest => do
    let name ← stringField field "name"
    if previous.any (fun previous => decide (name ≤ previous)) then
      .error (.type "named descriptor fields must be uniquely sorted")
    else do
      let ⟨value,_⟩ ← require (part field "type") "named descriptor field needs type"
      let ty ← concreteTypeFromJson value
      fieldsFromJson rest (some name) (BTreeMap.insert fields name ty)
  | _ => .error (.type "named field descriptor must be an object")
termination_by (sizeOf entries,0)

/-- The constructors of a sum, after the constructor `previous`. -/
def constructorsFromJson (entries : List Json) (previous : Option String) :
    Except MagError (List (String × ConcreteType)) :=
  match entries with
  | [] => .ok []
  | .object constructor :: rest => do
    let name ← stringField constructor "name"
    if previous.any (fun previous => decide (name ≤ previous)) then
      .error (.type "ADT constructors must be uniquely sorted by name")
    else do
      let ⟨value,_⟩ ← require (part constructor "payload") "ADT constructor descriptor needs payload"
      let payload ← concreteTypeFromJson value
      let rest ← constructorsFromJson rest (some name)
      .ok ((name,payload) :: rest)
  | _ => .error (.type "ADT constructor descriptor must be an object")
termination_by (sizeOf entries,0)
end

end Decode

/-! Reading parts. -/

theorem part_of_get {object : Json.Object} {key : String} {value : Json} (h : object.get key = some value) :
    part object key = some ⟨value,sizeOf_lt_of_get h⟩ := by
  unfold part
  split
  · next other hother =>
    rw [h] at hother
    cases hother
    rfl
  · next hnone =>
    rw [h] at hnone
    cases hnone

theorem part_of_get_none {object : Json.Object} {key : String} (h : object.get key = none) :
    part object key = none := by
  unfold part
  split
  · next other hother =>
    rw [h] at hother
    cases hother
  · rfl

theorem get_of_part {object : Json.Object} {key : String} {value : {value : Json // sizeOf value < sizeOf object}}
    (h : part object key = some value) : object.get key = some value.val := by
  cases hget : object.get key with
  | none =>
    rw [part_of_get_none hget] at h
    cases h
  | some other =>
    rw [part_of_get hget] at h
    cases h
    rfl

theorem listPart_of_get {object : Json.Object} {key : String} {values : List Json}
    (h : object.get key = some (.array values)) : ∃ hlt, listPart object key = some ⟨values,hlt⟩ := by
  unfold listPart
  rw [part_of_get h]
  exact ⟨_,rfl⟩

theorem require_eq_ok {α : Type} {value : Option α} {message : String} {a : α} :
    require value message = .ok a ↔ value = some a := by
  cases value <;> simp [require]

/-! What is written for a descriptor is read as that descriptor. -/

/-- The constructors of a sum are there and in order. -/
def ConcreteType.ConstructorsSorted : ConcreteType → Prop
  | .adt _ _ constructors => constructors ≠ [] ∧ constructors.Pairwise fun a b => a.1 < b.1
  | _ => True

/-- A descriptor that can be read. -/
def Canonical (ty : ConcreteType) : Prop := ∀ p ∈ ty.parts, p.FieldsSorted ∧ p.ConstructorsSorted

instance : DecidablePred ConcreteType.ConstructorsSorted
  | .adt _ _ constructors =>
    decidable_of_iff (constructors.isEmpty = false ∧ constructors.Pairwise fun a b => a.1 < b.1)
      (and_congr_left' List.isEmpty_eq_false_iff)
  | .jsonValue | .unit | .bool | .int | .float | .string => isTrue trivial
  | .namedFields .. | .namedAlias .. | .list _ | .set _ | .map .. | .product _ => isTrue trivial

instance : DecidablePred Canonical := fun ty => by unfold Canonical; infer_instance

theorem canonical_iff {ty : ConcreteType} : Canonical ty ↔
    (ty.FieldsSorted ∧ ty.ConstructorsSorted) ∧ ∀ c ∈ ty.children, Canonical c := ConcreteType.forall_parts

section Filled
variable {json : Json} {object : Json.Object}

theorem get_of_fill (h : json = fillMissingNamedBodies (.object object)) {key : String} (hk : key ≠ "body") :
    json.get key = (Json.Object.get object key).map fillMissingNamedBodies := by
  rw [h,get_fillMissingNamedBodies,if_neg fun hb => hk hb.2]

theorem stringField_of_fill (h : json = fillMissingNamedBodies (.object object)) (key : String)
    (hk : key ≠ "body") (s : String) (hs : json.get key = some (.string s)) :
    stringField object key = .ok s := by
  rw [get_of_fill h hk] at hs
  obtain ⟨value,hvalue,hfill⟩ := Option.map_eq_some_iff.mp hs
  rw [stringField,hvalue,string_of_fill hfill]
  rfl

theorem part_of_fill (h : json = fillMissingNamedBodies (.object object)) (key : String) (hk : key ≠ "body")
    (value : Json) (hv : json.get key = some value) : ∃ part' hlt,
    part object key = some ⟨part',hlt⟩ ∧ value = fillMissingNamedBodies part' := by
  rw [get_of_fill h hk] at hv
  obtain ⟨part',hget,hfill⟩ := Option.map_eq_some_iff.mp hv
  exact ⟨part',_,part_of_get hget,hfill.symm⟩

theorem listPart_of_fill (h : json = fillMissingNamedBodies (.object object)) (key : String)
    (hk : key ≠ "body") (values : List Json) (hv : json.get key = some (.array values)) : ∃ items hlt,
    listPart object key = some ⟨items,hlt⟩ ∧ items.map fillMissingNamedBodies = values := by
  rw [get_of_fill h hk] at hv
  obtain ⟨item,hget,hfill⟩ := Option.map_eq_some_iff.mp hv
  obtain ⟨items,rfl,hitems⟩ := array_of_fill hfill
  obtain ⟨hlt,hpart⟩ := listPart_of_get hget
  exact ⟨items,hlt,hpart,hitems⟩

end Filled

section Decode
variable {debug : String → String}

/-- A descriptor is read off each document that is its own when the bodies are filled in. -/
def Reads (debug : String → String) (ty : ConcreteType) : Prop :=
  ∀ json, concreteTypeToJson ty = fillMissingNamedBodies json → concreteTypeFromJson debug json = .ok ty

/-- The document of a descriptor is an object with its kind. -/
theorem object_of_descriptor {ty : ConcreteType} {json : Json}
    (h : concreteTypeToJson ty = fillMissingNamedBodies json) : ∃ object, json = .object object ∧
    stringField object "kind" = .ok (descriptorKind ty) := by
  obtain ⟨fields,hfields⟩ : ∃ fields, concreteTypeToJson ty = .object fields := by
    cases ty <;> exact ⟨_,rfl⟩
  obtain ⟨object,rfl⟩ := object_of_fill (h.symm.trans hfields)
  exact ⟨object,rfl,stringField_of_fill h "kind" (by decide) _ (kind_concreteTypeToJson ty)⟩

/-- It is enough that the descriptor is read off the members of its document. -/
theorem reads_of_kind {ty : ConcreteType} (h : ∀ object, concreteTypeToJson ty = fillMissingNamedBodies (.object object) →
    descriptorOfKind debug object (descriptorKind ty) = .ok ty) : Reads debug ty := by
  intro json hjson
  obtain ⟨object,rfl,hkind⟩ := object_of_descriptor hjson
  rw [concreteTypeFromJson,hkind]
  simp only [ok_bind,h object hjson]
  rw [if_neg (not_not.mpr hjson)]

theorem descriptorList_ok {tys : List ConcreteType} (h : ∀ ty ∈ tys, Reads debug ty) {values : List Json}
    (hv : values.map fillMissingNamedBodies = tys.map concreteTypeToJson) :
    descriptorList debug values = .ok tys := by
  induction tys generalizing values with
  | nil =>
    rw [List.map_nil,List.map_eq_nil_iff] at hv
    rw [hv,descriptorList]
  | cons ty rest ih =>
    obtain ⟨hty,hrest⟩ := List.forall_mem_cons.mp h
    cases values with
    | nil => cases hv
    | cons value values =>
      rw [List.map_cons,List.map_cons,List.cons.injEq] at hv
      rw [descriptorList,hty value hv.1.symm,ok_bind,ih hrest hv.2]
      rfl

/-- A member of a record or of a sum is read. -/
theorem member_of_fill {label : String} (hlabel : label ≠ "name") (hbody : label ≠ "body")
    {member : String × ConcreteType} {json : Json}
    (h : memberToJson label member = fillMissingNamedBodies json) : ∃ object, json = .object object ∧
    stringField object "name" = .ok member.1 ∧ ∃ value hlt, part object label = some ⟨value,hlt⟩ ∧
      concreteTypeToJson member.2 = fillMissingNamedBodies value := by
  obtain ⟨object,rfl⟩ := object_of_fill h.symm
  refine ⟨object,rfl,stringField_of_fill h "name" (by decide) _ ?_,part_of_fill h label hbody _ ?_⟩
  · simp [memberToJson,get_jsonObject,hlabel.symm]
  · simp [memberToJson,get_jsonObject,hlabel.symm,BTreeMap.lookup_cons,hlabel]

theorem fieldsFromJson_ok {members : List (String × ConcreteType)} (h : ∀ m ∈ members, Reads debug m.2)
    (before : List (String × ConcreteType)) (hs : (before ++ members).Pairwise fun a b => a.1 < b.1)
    {entries : List Json} (he : entries.map fillMissingNamedBodies = members.map (memberToJson "type")) :
    fieldsFromJson debug entries (before.getLast?.map (·.1)) before = .ok (before ++ members) := by
  induction members generalizing before entries with
  | nil =>
    rw [List.map_nil,List.map_eq_nil_iff] at he
    rw [he,fieldsFromJson,List.append_nil]
  | cons m rest ih =>
    obtain ⟨hm,hrest⟩ := List.forall_mem_cons.mp h
    cases entries with
    | nil => cases he
    | cons entry entries =>
      rw [List.map_cons,List.map_cons,List.cons.injEq] at he
      obtain ⟨object,rfl,hname,value,hlt,hpart,hvalue⟩ :=
        member_of_fill (by decide) (by decide) he.1.symm
      have hbefore : ∀ b ∈ before, b.1 < m.1 := fun b hb =>
        (List.pairwise_append.mp hs).2.2 b hb m List.mem_cons_self
      have hprevious : (before.getLast?.map (·.1)).any (fun previous => decide (m.1 ≤ previous)) = false := by
        cases hlast : before.getLast? with
        | none => rfl
        | some last => simpa using hbefore last (List.mem_of_getLast? hlast)
      have hins := BTreeMap.insert_of_lt hbefore m.2
      have hih := ih hrest (before ++ [m]) (by simpa using hs) he.2
      rw [fieldsFromJson,hname,ok_bind,hprevious]
      simp only [hpart,require,ok_bind,hm value hvalue,hins,Bool.false_eq_true,if_false]
      simpa using hih

theorem constructorsFromJson_ok {members : List (String × ConcreteType)} (h : ∀ m ∈ members, Reads debug m.2)
    (previous : Option String) (hp : ∀ p ∈ previous, ∀ m ∈ members, p < m.1)
    (hs : members.Pairwise fun a b => a.1 < b.1) {entries : List Json}
    (he : entries.map fillMissingNamedBodies = members.map (memberToJson "payload")) :
    constructorsFromJson debug entries previous = .ok members := by
  induction members generalizing previous entries with
  | nil =>
    rw [List.map_nil,List.map_eq_nil_iff] at he
    rw [he,constructorsFromJson]
  | cons m rest ih =>
    obtain ⟨hm,hrest⟩ := List.forall_mem_cons.mp h
    obtain ⟨hlt,hs⟩ := List.pairwise_cons.mp hs
    cases entries with
    | nil => cases he
    | cons entry entries =>
      rw [List.map_cons,List.map_cons,List.cons.injEq] at he
      obtain ⟨object,rfl,hname,value,_,hpart,hvalue⟩ :=
        member_of_fill (by decide) (by decide) he.1.symm
      have hprevious : previous.any (fun previous => decide (m.1 ≤ previous)) = false := by
        cases previous with
        | none => rfl
        | some p => simpa using hp p rfl m List.mem_cons_self
      have hih := ih hrest (some m.1) (by simpa using hlt) hs he.2
      rw [constructorsFromJson,hname,ok_bind,hprevious]
      simp only [hpart,require,ok_bind,hm value hvalue,hih,Bool.false_eq_true,if_false]

section Kinds
attribute [local simp] descriptorOfKind descriptorKind require

theorem reads_primitive {ty : ConcreteType} (h : descriptorKind ty = "primitive") : Reads debug ty := by
  refine reads_of_kind fun object hjson => ?_
  cases ty <;> simp only [descriptorKind,String.reduceEq] at h
  all_goals
    have hname := stringField_of_fill hjson "name" (by decide) _
      (by simp [concreteTypeToJson,primitiveToJson,get_jsonObject,BTreeMap.lookup_cons]; rfl)
    simp [hname]

theorem reads_list {item : ConcreteType} (h : Reads debug item) : Reads debug (.list item) := by
  refine reads_of_kind fun object hjson => ?_
  obtain ⟨part',_,hpart,hfill⟩ := part_of_fill hjson "item" (by decide)
    (concreteTypeToJson item) (by simp [concreteTypeToJson,get_jsonObject,BTreeMap.lookup_cons])
  simp [hpart,h part' hfill]

theorem reads_set {item : ConcreteType} (h : Reads debug item) : Reads debug (.set item) := by
  refine reads_of_kind fun object hjson => ?_
  obtain ⟨part',_,hpart,hfill⟩ := part_of_fill hjson "item" (by decide)
    (concreteTypeToJson item) (by simp [concreteTypeToJson,get_jsonObject,BTreeMap.lookup_cons])
  simp [hpart,h part' hfill]

theorem reads_map {key value : ConcreteType} (hk : Reads debug key) (hv : Reads debug value) :
    Reads debug (.map key value) := by
  refine reads_of_kind fun object hjson => ?_
  obtain ⟨keyPart,_,hkeyPart,hkeyFill⟩ := part_of_fill hjson "key" (by decide)
    (concreteTypeToJson key) (by simp [concreteTypeToJson,get_jsonObject,BTreeMap.lookup_cons])
  obtain ⟨valuePart,_,hvaluePart,hvalueFill⟩ := part_of_fill hjson "value" (by decide)
    (concreteTypeToJson value) (by simp [concreteTypeToJson,get_jsonObject,BTreeMap.lookup_cons])
  simp [hkeyPart,hvaluePart,hk keyPart hkeyFill,hv valuePart hvalueFill]

theorem reads_product {items : List ConcreteType} (h : ∀ item ∈ items, Reads debug item) :
    Reads debug (.product items) := by
  refine reads_of_kind fun object hjson => ?_
  obtain ⟨values,_,hpart,hfill⟩ := listPart_of_fill hjson "items" (by decide)
    (items.map concreteTypeToJson)
    (by simp [concreteTypeToJson,get_jsonObject,BTreeMap.lookup_cons,typesToJson_eq])
  simp [hpart,descriptorList_ok h hfill]

theorem reads_adt {name : String} {arguments : List ConcreteType}
    {constructors : List (String × ConcreteType)} (ha : ∀ a ∈ arguments, Reads debug a)
    (hc : ∀ c ∈ constructors, Reads debug c.2) (hne : constructors ≠ [])
    (hs : constructors.Pairwise fun a b => a.1 < b.1) : Reads debug (.adt name arguments constructors) := by
  refine reads_of_kind fun object hjson => ?_
  have hname := stringField_of_fill hjson "name" (by decide) name
    (by simp [concreteTypeToJson,get_jsonObject,BTreeMap.lookup_cons])
  obtain ⟨values,_,hvalues,hfill⟩ := listPart_of_fill hjson "arguments" (by decide)
    (arguments.map concreteTypeToJson)
    (by simp [concreteTypeToJson,get_jsonObject,BTreeMap.lookup_cons,typesToJson_eq])
  obtain ⟨entries,_,hentries,hfill'⟩ := listPart_of_fill hjson "constructors" (by decide)
    (constructors.map (memberToJson "payload"))
    (by simp [concreteTypeToJson,get_jsonObject,BTreeMap.lookup_cons,membersToJson_eq])
  have hconstructors := constructorsFromJson_ok hc none (by simp) hs hfill'
  simp [hvalues,hentries,hname,descriptorList_ok ha hfill,hconstructors,hne]

theorem reads_namedAlias {name : String} {arguments : List ConcreteType} {ty : ConcreteType}
    (ha : ∀ a ∈ arguments, Reads debug a) (h : Reads debug ty) :
    Reads debug (.namedAlias name arguments ty) := by
  refine reads_of_kind fun object hjson => ?_
  have hname := stringField_of_fill hjson "name" (by decide) name
    (by simp [concreteTypeToJson,get_jsonObject,BTreeMap.lookup_cons])
  obtain ⟨values,_,hvalues,hfill⟩ := listPart_of_fill hjson "arguments" (by decide)
    (arguments.map concreteTypeToJson)
    (by simp [concreteTypeToJson,get_jsonObject,BTreeMap.lookup_cons,typesToJson_eq])
  have hbody := get_inj hjson "body"
  rw [get_fillMissingNamedBodies] at hbody
  simp [concreteTypeToJson,get_jsonObject,BTreeMap.lookup_cons] at hbody
  simp only [descriptorOfKind,descriptorKind,ok_bind,hvalues,hname,require,descriptorList_ok ha hfill]
  by_cases hlacks : LacksBody object
  · rw [if_pos hlacks] at hbody
    obtain rfl := concreteTypeToJson_inj ty .unit (Option.some.inj hbody)
    simp only [part_of_get_none hlacks.2]
  · rw [if_neg hlacks] at hbody
    obtain ⟨body,hget,hfill⟩ := Option.map_eq_some_iff.mp hbody.symm
    obtain ⟨inner,rfl,hinner⟩ := object_of_descriptor hfill.symm
    have hrecord : (Json.Object.get inner "kind").bind Json.asStr ≠ some "record" := by
      rw [stringField,require_eq_ok] at hinner
      rw [hinner]
      cases ty <;> simp [descriptorKind]
    simp only [part_of_get hget,concreteNamedBodyFromJson,hrecord,ne_eq,not_false_eq_true,if_true,
      h _ hfill.symm,ok_bind]

theorem reads_namedFields {name : String} {arguments : List ConcreteType}
    {fields : List (String × ConcreteType)} (ha : ∀ a ∈ arguments, Reads debug a)
    (hf : ∀ f ∈ fields, Reads debug f.2) (hs : fields.Pairwise fun a b => a.1 < b.1) :
    Reads debug (.namedFields name arguments fields) := by
  refine reads_of_kind fun object hjson => ?_
  have hname := stringField_of_fill hjson "name" (by decide) name
    (by simp [concreteTypeToJson,get_jsonObject,BTreeMap.lookup_cons])
  obtain ⟨values,_,hvalues,hfill⟩ := listPart_of_fill hjson "arguments" (by decide)
    (arguments.map concreteTypeToJson)
    (by simp [concreteTypeToJson,get_jsonObject,BTreeMap.lookup_cons,typesToJson_eq])
  have hbody := get_inj hjson "body"
  rw [get_fillMissingNamedBodies] at hbody
  simp [concreteTypeToJson,get_jsonObject,BTreeMap.lookup_cons] at hbody
  by_cases hlacks : LacksBody object
  · rw [if_pos hlacks] at hbody
    exact absurd (Option.some.inj hbody).symm (concreteTypeToJson_ne_record .unit _)
  · rw [if_neg hlacks] at hbody
    obtain ⟨body,hget,hfillBody⟩ := Option.map_eq_some_iff.mp hbody.symm
    obtain ⟨inner,rfl⟩ := object_of_fill hfillBody
    have hrecord := stringField_of_fill hfillBody.symm "kind" (by decide) "record"
      (by simp [get_jsonObject])
    rw [stringField,require_eq_ok] at hrecord
    obtain ⟨entries,_,hentries,hfillEntries⟩ := listPart_of_fill hfillBody.symm "fields" (by decide)
      (fields.map (memberToJson "type"))
      (by simp [get_jsonObject,BTreeMap.lookup_cons,membersToJson_eq])
    have hfields := fieldsFromJson_ok hf [] hs hfillEntries
    simp only [descriptorOfKind,descriptorKind,ok_bind,hvalues,hname,require,descriptorList_ok ha hfill,part_of_get hget,
      concreteNamedBodyFromJson,hrecord,ne_eq,not_true,if_false,hentries]
    rw [show fieldsFromJson debug entries none [] = .ok fields from hfields]
    simp only [ok_bind]

end Kinds

/-- By induction on the descriptor, kind by kind. -/
theorem reads_of_canonical {ty : ConcreteType} (h : Canonical ty) : Reads debug ty := by
  induction ty with
  | namedFields name arguments fields iha ihf =>
    obtain ⟨⟨hs,-⟩,hc⟩ := canonical_iff.mp h
    exact reads_namedFields (fun a ha => iha a ha (hc a (List.mem_append_left _ ha)))
      (fun f hf => ihf f hf (hc f.2 (List.mem_append_right _ (List.mem_map_of_mem hf)))) hs
  | namedAlias name arguments ty iha ih =>
    obtain ⟨-,hc⟩ := canonical_iff.mp h
    exact reads_namedAlias (fun a ha => iha a ha (hc a (List.mem_append_left _ ha)))
      (ih (hc ty (List.mem_append_right _ List.mem_cons_self)))
  | adt name arguments constructors iha ihc =>
    obtain ⟨⟨-,hne,hs⟩,hc⟩ := canonical_iff.mp h
    exact reads_adt (fun a ha => iha a ha (hc a (List.mem_append_left _ ha)))
      (fun c hmem => ihc c hmem (hc c.2 (List.mem_append_right _ (List.mem_map_of_mem hmem)))) hne hs
  | list item ih => exact reads_list (ih ((canonical_iff.mp h).2 item List.mem_cons_self))
  | set item ih => exact reads_set (ih ((canonical_iff.mp h).2 item List.mem_cons_self))
  | map key value ihk ihv =>
    have hc := (canonical_iff.mp h).2
    exact reads_map (ihk (hc key (by simp [ConcreteType.children])))
      (ihv (hc value (by simp [ConcreteType.children])))
  | product items ih => exact reads_product fun item hi => ih item hi ((canonical_iff.mp h).2 item hi)
  | _ => exact reads_primitive rfl

/-! What is read can be written. -/

/-- A descriptor that is read off a document of less than a size. -/
def ReadBelow (debug : String → String) (n : Nat) (ty : ConcreteType) : Prop :=
  ∃ json : Json, sizeOf json < n ∧ concreteTypeFromJson debug json = .ok ty

theorem ReadBelow.mono {m n : Nat} {ty : ConcreteType} (h : ReadBelow debug m ty) (hmn : m ≤ n) :
    ReadBelow debug n ty := by
  obtain ⟨json,hlt,hread⟩ := h
  exact ⟨json,hlt.trans_le hmn,hread⟩

theorem descriptorList_read {values : List Json} {tys : List ConcreteType}
    (h : descriptorList debug values = .ok tys) : ∀ ty ∈ tys, ReadBelow debug (sizeOf values) ty := by
  induction values generalizing tys with
  | nil =>
    rw [descriptorList] at h
    cases h
    exact List.forall_mem_nil _
  | cons value rest ih =>
    rw [descriptorList] at h
    obtain ⟨ty,hty,h⟩ := bind_eq_ok.mp h
    obtain ⟨tys,htys,h⟩ := bind_eq_ok.mp h
    cases h
    have hsize : sizeOf (value :: rest) = 1 + sizeOf value + sizeOf rest := rfl
    rw [List.forall_mem_cons]
    exact ⟨⟨value,by omega,hty⟩,fun other hother => (ih htys other hother).mono (by omega)⟩

/-- A part that is asked for is there. -/
theorem require_part {object : Json.Object} {key message : String} {α : Type}
    {f : {value : Json // sizeOf value < sizeOf object} → Except MagError α} {a : α}
    (h : (require (part object key) message >>= f) = .ok a) :
    ∃ value, sizeOf value.val < sizeOf object ∧ f value = .ok a := by
  obtain ⟨value,-,h⟩ := bind_eq_ok.mp h
  exact ⟨value,value.property,h⟩

theorem lt_of_previous {previous : Option String} {name p : String}
    (h : ¬ previous.any (fun previous => decide (name ≤ previous))) (hp : previous = some p) : p < name := by
  subst hp
  simpa using h

theorem fieldsFromJson_read {entries : List Json} {previous : Option String}
    {before fields : List (String × ConcreteType)} (hs : before.Pairwise fun a b => a.1 < b.1)
    (hp : ∀ b ∈ before, ∃ p, previous = some p ∧ b.1 ≤ p)
    (h : fieldsFromJson debug entries previous before = .ok fields) :
    (fields.Pairwise fun a b => a.1 < b.1) ∧
    ∀ f ∈ fields, f ∈ before ∨ ReadBelow debug (sizeOf entries) f.2 := by
  induction entries generalizing previous before with
  | nil =>
    rw [fieldsFromJson] at h
    cases h
    exact ⟨hs,fun f => .inl⟩
  | cons entry rest ih =>
    cases entry with
    | object object =>
      rw [fieldsFromJson] at h
      obtain ⟨name,-,h⟩ := bind_eq_ok.mp h
      split at h
      · cases h
      · next hprevious =>
        obtain ⟨⟨value,hlt⟩,-,h⟩ := bind_eq_ok.mp h
        obtain ⟨ty,hty,h⟩ := bind_eq_ok.mp h
        have hbefore : ∀ b ∈ before, b.1 < name := by
          intro b hb
          obtain ⟨p,hprev,hle⟩ := hp b hb
          exact hle.trans_lt (lt_of_previous hprevious hprev)
        rw [BTreeMap.insert_of_lt hbefore] at h
        have hsize : sizeOf (Json.object object :: rest) = 1 + (1 + sizeOf object) + sizeOf rest := by simp
        obtain ⟨hsorted,hfields⟩ := ih (List.pairwise_append.mpr ⟨hs,List.pairwise_singleton _ _,
          fun b hb c hc => by rw [List.mem_singleton.mp hc]; exact hbefore b hb⟩) (by
            intro b hb
            refine ⟨name,rfl,?_⟩
            obtain hb | hb := List.mem_append.mp hb
            · exact (hbefore b hb).le
            · rw [List.mem_singleton.mp hb]) h
        refine ⟨hsorted,fun f hf => ?_⟩
        obtain hb | hread := hfields f hf
        · obtain hb | hb := List.mem_append.mp hb
          · exact .inl hb
          · rw [List.mem_singleton.mp hb]
            exact .inr ⟨value,by omega,hty⟩
        · exact .inr (hread.mono (by omega))
    | _ =>
      rw [fieldsFromJson.eq_def] at h
      cases h

theorem constructorsFromJson_read {entries : List Json} {previous : Option String}
    {constructors : List (String × ConcreteType)}
    (h : constructorsFromJson debug entries previous = .ok constructors) :
    (∀ p ∈ previous, ∀ c ∈ constructors, p < c.1) ∧ (constructors.Pairwise fun a b => a.1 < b.1) ∧
    ∀ c ∈ constructors, ReadBelow debug (sizeOf entries) c.2 := by
  induction entries generalizing previous constructors with
  | nil =>
    rw [constructorsFromJson] at h
    cases h
    exact ⟨fun _ _ => List.forall_mem_nil _,.nil,List.forall_mem_nil _⟩
  | cons entry rest ih =>
    cases entry with
    | object object =>
      rw [constructorsFromJson] at h
      obtain ⟨name,-,h⟩ := bind_eq_ok.mp h
      split at h
      · cases h
      · next hprevious =>
        obtain ⟨⟨value,hlt⟩,-,h⟩ := bind_eq_ok.mp h
        obtain ⟨payload,hpayload,h⟩ := bind_eq_ok.mp h
        obtain ⟨more,hmore,h⟩ := bind_eq_ok.mp h
        cases h
        obtain ⟨hname,hsorted,hread⟩ := ih hmore
        have hsize : sizeOf (Json.object object :: rest) = 1 + (1 + sizeOf object) + sizeOf rest := by simp
        refine ⟨fun p hprev => ?_,List.pairwise_cons.mpr ⟨hname name rfl,hsorted⟩,?_⟩
        · have hlt := lt_of_previous hprevious hprev
          rw [List.forall_mem_cons]
          exact ⟨hlt,fun c hc => hlt.trans (hname name rfl c hc)⟩
        · rw [List.forall_mem_cons]
          exact ⟨⟨value,by omega,hpayload⟩,fun c hc => (hread c hc).mono (by omega)⟩
    | _ =>
      rw [constructorsFromJson.eq_def] at h
      cases h

theorem concreteNamedBodyFromJson_read {name : String} {arguments : List ConcreteType} {body : Json}
    {ty : ConcreteType} (h : concreteNamedBodyFromJson debug name arguments body = .ok ty) :
    (ty.FieldsSorted ∧ ty.ConstructorsSorted) ∧
    ∀ c ∈ ty.children, c ∈ arguments ∨ ReadBelow debug (sizeOf body + 1) c := by
  have halias : ∀ {value : Json}, sizeOf value ≤ sizeOf body → (do
      let ty ← concreteTypeFromJson debug value
      .ok (ConcreteType.namedAlias name arguments ty)) = .ok ty → (ty.FieldsSorted ∧ ty.ConstructorsSorted) ∧
      ∀ c ∈ ty.children, c ∈ arguments ∨ ReadBelow debug (sizeOf body + 1) c := by
    intro value hle h
    obtain ⟨inner,hinner,h⟩ := bind_eq_ok.mp h
    cases h
    refine ⟨⟨trivial,trivial⟩,fun c hc => ?_⟩
    obtain ha | ht := List.mem_append.mp hc
    · exact .inl ha
    · rw [List.mem_singleton.mp ht]
      exact .inr ⟨value,by omega,hinner⟩
  cases body with
  | object object =>
    rw [concreteNamedBodyFromJson] at h
    split at h
    · exact halias (Nat.le_refl _) h
    · obtain ⟨⟨entries,hlt⟩,-,h⟩ := bind_eq_ok.mp h
      obtain ⟨fields,hfields,h⟩ := bind_eq_ok.mp h
      cases h
      obtain ⟨hsorted,hread⟩ := fieldsFromJson_read .nil (List.forall_mem_nil _) hfields
      refine ⟨⟨hsorted,trivial⟩,fun c hc => ?_⟩
      obtain ha | hf := List.mem_append.mp hc
      · exact .inl ha
      · obtain ⟨f,hmem,rfl⟩ := List.mem_map.mp hf
        have hsize : sizeOf (Json.object object) = 1 + sizeOf object := by simp
        exact .inr (((hread f hmem).resolve_left List.not_mem_nil).mono (by omega))
  | _ =>
    rw [concreteNamedBodyFromJson.eq_def] at h
    exact halias (Nat.le_refl _) h

/-- What is read is in order itself, and made of what is read off smaller documents. -/
theorem concreteTypeFromJson_read {json : Json} {ty : ConcreteType}
    (h : concreteTypeFromJson debug json = .ok ty) : (ty.FieldsSorted ∧ ty.ConstructorsSorted) ∧
    (∀ c ∈ ty.children, c = .unit ∨ ReadBelow debug (sizeOf json) c) ∧
    concreteTypeToJson ty = fillMissingNamedBodies json := by
  cases json with
  | object object =>
    have hsize : sizeOf (Json.object object) = 1 + sizeOf object := by simp
    rw [concreteTypeFromJson] at h
    obtain ⟨kind,-,h⟩ := bind_eq_ok.mp h
    obtain ⟨descriptor,hd,h⟩ := bind_eq_ok.mp h
    by_cases hcanonical : concreteTypeToJson descriptor ≠ fillMissingNamedBodies (.object object)
    · rw [if_pos hcanonical] at h
      cases h
    · rw [if_neg hcanonical] at h
      cases h
      rw [← and_assoc]
      refine ⟨?_,not_not.mp hcanonical⟩
      clear hcanonical
      rw [descriptorOfKind.eq_def] at hd
      split at hd
      · -- a primitive
        obtain ⟨name,-,hd⟩ := bind_eq_ok.mp hd
        split at hd
        all_goals cases hd
        all_goals exact ⟨⟨trivial,trivial⟩,List.forall_mem_nil _⟩
      · -- a named descriptor, with or without its body
        obtain ⟨name,-,hd⟩ := bind_eq_ok.mp hd
        obtain ⟨⟨values,hlt⟩,-,hd⟩ := bind_eq_ok.mp hd
        obtain ⟨arguments,harguments,hd⟩ := bind_eq_ok.mp hd
        have hargs := descriptorList_read harguments
        split at hd
        · next body hbody _ =>
          obtain ⟨hsorted,hread⟩ := concreteNamedBodyFromJson_read hd
          refine ⟨hsorted,fun c hc => .inr ?_⟩
          obtain ha | hb := hread c hc
          · exact (hargs c ha).mono (by omega)
          · exact hb.mono (by omega)
        · cases hd
          refine ⟨⟨trivial,trivial⟩,fun c hc => ?_⟩
          obtain ha | hu := List.mem_append.mp hc
          · exact .inr ((hargs c ha).mono (by omega))
          · exact .inl (List.mem_singleton.mp hu)
      · -- a sum
        obtain ⟨⟨entries,hlt⟩,-,hd⟩ := bind_eq_ok.mp hd
        obtain ⟨constructors,hconstructors,hd⟩ := bind_eq_ok.mp hd
        obtain ⟨-,hsorted,hread⟩ := constructorsFromJson_read hconstructors
        split at hd
        · cases hd
        · next hne =>
          obtain ⟨name,-,hd⟩ := bind_eq_ok.mp hd
          obtain ⟨⟨values,hlt'⟩,-,hd⟩ := bind_eq_ok.mp hd
          obtain ⟨arguments,harguments,hd⟩ := bind_eq_ok.mp hd
          cases hd
          refine ⟨⟨trivial,hne,hsorted⟩,fun c hc => .inr ?_⟩
          obtain ha | hp := List.mem_append.mp hc
          · exact (descriptorList_read harguments c ha).mono (by omega)
          · obtain ⟨p,hmem,rfl⟩ := List.mem_map.mp hp
            exact (hread p hmem).mono (by omega)
      · obtain ⟨⟨item,hlt⟩,-,hd⟩ := bind_eq_ok.mp hd
        obtain ⟨ty,hty,hd⟩ := bind_eq_ok.mp hd
        cases hd
        refine ⟨⟨trivial,trivial⟩,fun c hc => .inr ?_⟩
        rw [List.mem_singleton.mp hc]
        exact ⟨item,by omega,hty⟩
      · obtain ⟨⟨item,hlt⟩,-,hd⟩ := bind_eq_ok.mp hd
        obtain ⟨ty,hty,hd⟩ := bind_eq_ok.mp hd
        cases hd
        refine ⟨⟨trivial,trivial⟩,fun c hc => .inr ?_⟩
        rw [List.mem_singleton.mp hc]
        exact ⟨item,by omega,hty⟩
      · obtain ⟨⟨key,hlt⟩,-,hd⟩ := bind_eq_ok.mp hd
        obtain ⟨keyTy,hkey,hd⟩ := bind_eq_ok.mp hd
        obtain ⟨⟨value,hlt'⟩,-,hd⟩ := bind_eq_ok.mp hd
        obtain ⟨valueTy,hvalue,hd⟩ := bind_eq_ok.mp hd
        cases hd
        refine ⟨⟨trivial,trivial⟩,List.forall_mem_cons.mpr ⟨.inr ⟨key,by omega,hkey⟩,
          List.forall_mem_cons.mpr ⟨.inr ⟨value,by omega,hvalue⟩,List.forall_mem_nil _⟩⟩⟩
      · cases hd
      · cases hd
      · obtain ⟨⟨values,hlt⟩,-,hd⟩ := bind_eq_ok.mp hd
        obtain ⟨items,hitems,hd⟩ := bind_eq_ok.mp hd
        cases hd
        exact ⟨⟨trivial,trivial⟩,fun c hc => .inr ((descriptorList_read hitems c hc).mono (by omega))⟩
      · cases hd
  | _ =>
    rw [concreteTypeFromJson.eq_def] at h
    cases h

theorem canonical_of_read {json : Json} {ty : ConcreteType}
    (h : concreteTypeFromJson debug json = .ok ty) : Canonical ty := by
  obtain ⟨hlocal,hchildren,-⟩ := concreteTypeFromJson_read h
  rw [canonical_iff]
  refine ⟨hlocal,fun c hc => ?_⟩
  obtain rfl | ⟨inner,hlt,hinner⟩ := hchildren c hc
  · exact canonical_iff.mpr ⟨⟨trivial,trivial⟩,List.forall_mem_nil _⟩
  · exact canonical_of_read hinner
termination_by sizeOf json

theorem fill_types {tys : List ConcreteType} (h : ∀ ty ∈ tys,
    fillMissingNamedBodies (concreteTypeToJson ty) = concreteTypeToJson ty) :
    (tys.map concreteTypeToJson).map fillMissingNamedBodies = tys.map concreteTypeToJson := by
  rw [List.map_map]
  exact List.map_congr_left h

theorem fill_members (label : String) (hname : label ≠ "name") (hkind : label ≠ "kind")
    {members : List (String × ConcreteType)} (h : ∀ m ∈ members,
      fillMissingNamedBodies (concreteTypeToJson m.2) = concreteTypeToJson m.2) :
    (members.map (memberToJson label)).map fillMissingNamedBodies = members.map (memberToJson label) := by
  rw [List.map_map]
  refine List.map_congr_left fun m hm => ?_
  change fillMissingNamedBodies (memberToJson label m) = _
  unfold memberToJson
  rw [fill_jsonObject (by simp [hname.symm]) (by simp [BTreeMap.lookup_cons,hkind.symm])]
  simp [h m hm,fillMissingNamedBodies]

/-- What is written for a descriptor has all bodies. -/
theorem fill_concreteTypeToJson (ty : ConcreteType) :
    fillMissingNamedBodies (concreteTypeToJson ty) = concreteTypeToJson ty := by
  induction ty with
  | namedFields name arguments fields iha ihf =>
    rw [concreteTypeToJson,fill_jsonObject (by simp) (by simp [BTreeMap.lookup_cons])]
    simp only [List.map_cons,List.map_nil,fillMissingNamedBodies]
    rw [fill_jsonObject (by simp) (by simp)]
    simp only [List.map_cons,List.map_nil,fillMissingNamedBodies,fillAll_eq,typesToJson_eq,membersToJson_eq,
      fill_types iha,fill_members "type" (by decide) (by decide) ihf]
  | namedAlias name arguments ty iha ih =>
    rw [concreteTypeToJson,fill_jsonObject (by simp) (by simp [BTreeMap.lookup_cons])]
    simp only [List.map_cons,List.map_nil,fillMissingNamedBodies,fillAll_eq,typesToJson_eq,
      fill_types iha,ih]
  | adt name arguments constructors iha ihc =>
    rw [concreteTypeToJson,fill_jsonObject (by simp) (by simp)]
    simp only [List.map_cons,List.map_nil,fillMissingNamedBodies,fillAll_eq,typesToJson_eq,membersToJson_eq,
      fill_types iha,fill_members "payload" (by decide) (by decide) ihc]
  | product items ih =>
    rw [concreteTypeToJson,fill_jsonObject (by simp) (by simp)]
    simp only [List.map_cons,List.map_nil,fillMissingNamedBodies,fillAll_eq,typesToJson_eq,fill_types ih]
  | list item ih =>
    rw [concreteTypeToJson,fill_jsonObject (by simp) (by simp)]
    simp only [List.map_cons,List.map_nil,fillMissingNamedBodies,ih]
  | set item ih =>
    rw [concreteTypeToJson,fill_jsonObject (by simp) (by simp)]
    simp only [List.map_cons,List.map_nil,fillMissingNamedBodies,ih]
  | map key value ihk ihv =>
    rw [concreteTypeToJson,fill_jsonObject (by simp) (by simp)]
    simp only [List.map_cons,List.map_nil,fillMissingNamedBodies,ihk,ihv]
  | _ =>
    rw [concreteTypeToJson,primitiveToJson,fill_jsonObject (by simp) (by simp)]
    rfl

/-- Exactly the documents of descriptors are read, up to the bodies that may be left out. -/
theorem concreteTypeFromJson_eq_ok {json : Json} {ty : ConcreteType} :
    concreteTypeFromJson debug json = .ok ty ↔
      Canonical ty ∧ concreteTypeToJson ty = fillMissingNamedBodies json :=
  ⟨fun h => ⟨canonical_of_read h,(concreteTypeFromJson_read h).2.2⟩,fun ⟨hc,h⟩ => reads_of_canonical hc json h⟩

end Decode

/-- A descriptor is read off its document, a document is read only when it is that of a descriptor once
the unit bodies are filled in, and these are all that is filled in. -/
theorem concreteTypeFromJson_roundTrip (debug : String → String) :
    (∀ ty : Descriptor, (∀ p ∈ ty.val.parts, p.ConstructorsSorted) →
      concreteTypeFromJson debug (concreteTypeToJson ty.val) = .ok ty.val) ∧
    (∀ json ty, concreteTypeFromJson debug json = .ok ty ↔
      Canonical ty ∧ concreteTypeToJson ty = fillMissingNamedBodies json) ∧
    (∀ fields key, (fillMissingNamedBodies (.object fields)).get key =
      if LacksBody fields ∧ key = "body" then some unitBody
      else (Json.Object.get fields key).map fillMissingNamedBodies) ∧
    (∀ values, fillMissingNamedBodies (.array values) = .array (values.map fillMissingNamedBodies)) ∧
    ∀ json : Json, json.asObject = none → json.asArray = none → fillMissingNamedBodies json = json := by
  refine ⟨fun ty h => ?_,fun json ty => concreteTypeFromJson_eq_ok,get_fillMissingNamedBodies,fun values => ?_,
    fun json hobject harray => ?_⟩
  · rw [concreteTypeFromJson_eq_ok]
    exact ⟨fun p hp => ⟨ty.property p hp,h p hp⟩,(fill_concreteTypeToJson _).symm⟩
  · rw [fillMissingNamedBodies,fillAll_eq]
  · cases json with
    | object fields => cases hobject
    | array values => cases harray
    | _ => rfl

/-- A payload with an integer field, and a tag whose body was left out. -/
theorem concreteTypeFromJson_roundTrip_payload :
    concreteTypeFromJson String.quote (concreteTypeToJson (.namedFields "main.Payload" [] [("value",.int)])) =
      .ok (.namedFields "main.Payload" [] [("value",.int)]) ∧
    concreteTypeFromJson String.quote (jsonObject [("kind",.string "named"),("name",.string "main.Tag"),
      ("arguments",.array [])]) = .ok (.namedAlias "main.Tag" [] .unit) :=
  ⟨(concreteTypeFromJson_roundTrip String.quote).1 ⟨.namedFields "main.Payload" [] [("value",.int)],by decide⟩
      (by decide),
    ((concreteTypeFromJson_roundTrip String.quote).2.1 _ _).mpr ⟨by decide,by decide⟩⟩

end Nefor.Mag
