import Nefor.BTreeMap
import Nefor.Json.Value
import Nefor.Mag.Types

/-! The documents that stand for descriptors, and the one that is hashed to identify a descriptor
(`types.rs`, `json.rs`): different descriptors never have the same identity. -/
namespace Nefor.Mag

/-- `json_object`. -/
def jsonObject (fields : List (String × Json)) : Json := .object (Json.Object.ofList fields)

theorem get_jsonObject {fields : List (String × Json)} (h : (fields.map (·.1)).Nodup) (key : String) :
    (jsonObject fields).get key = fields.lookup key := Json.Object.get_ofList h key

theorem jsonObject_inj {fs gs : List (String × Json)} (hf : (fs.map (·.1)).Nodup)
    (hg : (gs.map (·.1)).Nodup) (h : jsonObject fs = jsonObject gs) (key : String) :
    fs.lookup key = gs.lookup key := by
  rw [← get_jsonObject hf,← get_jsonObject hg,h]

namespace ConcreteType

/-- The descriptors a descriptor is made of, in the order in which they are visited. -/
def children : ConcreteType → List ConcreteType
  | .namedFields _ arguments fields => arguments ++ fields.map (·.2)
  | .namedAlias _ arguments ty => arguments ++ [ty]
  | .adt _ arguments constructors => arguments ++ constructors.map (·.2)
  | .list item => [item]
  | .set item => [item]
  | .map key value => [key,value]
  | .product items => items
  | _ => []

theorem ind_children {P : ConcreteType → Prop} (h : ∀ ty, (∀ c ∈ children ty, P c) → P ty)
    (ty : ConcreteType) : P ty := by
  induction ty with
  | namedFields name arguments fields iha ihf =>
    apply h
    intro c hc
    obtain ha | hf := List.mem_append.mp hc
    · exact iha c ha
    · obtain ⟨f,hmem,rfl⟩ := List.mem_map.mp hf
      exact ihf f hmem
  | namedAlias name arguments ty iha ih =>
    apply h
    intro c hc
    obtain ha | ht := List.mem_append.mp hc
    · exact iha c ha
    · rwa [List.mem_singleton.mp ht]
  | adt name arguments constructors iha ihc =>
    apply h
    intro c hc
    obtain ha | hp := List.mem_append.mp hc
    · exact iha c ha
    · obtain ⟨p,hmem,rfl⟩ := List.mem_map.mp hp
      exact ihc p hmem
  | list item ih => exact h _ (by simpa [children] using ih)
  | set item ih => exact h _ (by simpa [children] using ih)
  | map key value ihk ihv => exact h _ (by simpa [children] using ⟨ihk,ihv⟩)
  | product items ih => exact h _ ih
  | _ => exact h _ (by simp [children])

mutual
/-- Every descriptor that occurs in one, itself included. -/
def parts : ConcreteType → List ConcreteType
  | .namedFields name arguments fields =>
    .namedFields name arguments fields :: (partsAll arguments ++ partsMembers fields)
  | .namedAlias name arguments ty => .namedAlias name arguments ty :: (partsAll arguments ++ ty.parts)
  | .adt name arguments constructors =>
    .adt name arguments constructors :: (partsAll arguments ++ partsMembers constructors)
  | .list item => .list item :: item.parts
  | .set item => .set item :: item.parts
  | .map key value => .map key value :: (key.parts ++ value.parts)
  | .product items => .product items :: partsAll items
  | ty => [ty]
def partsAll : List ConcreteType → List ConcreteType
  | [] => []
  | ty :: rest => ty.parts ++ partsAll rest
def partsMembers : List (String × ConcreteType) → List ConcreteType
  | [] => []
  | (_,ty) :: rest => ty.parts ++ partsMembers rest
end

theorem partsAll_eq (tys : List ConcreteType) : partsAll tys = tys.flatMap parts := by
  induction tys with
  | nil => rfl
  | cons ty rest ih => rw [partsAll,ih,List.flatMap_cons]

theorem partsMembers_eq (members : List (String × ConcreteType)) :
    partsMembers members = (members.map (·.2)).flatMap parts := by
  induction members with
  | nil => rfl
  | cons m rest ih => rw [partsMembers,ih,List.map_cons,List.flatMap_cons]

theorem parts_eq (ty : ConcreteType) : parts ty = ty :: (children ty).flatMap parts := by
  cases ty <;> simp [parts,children,partsAll_eq,partsMembers_eq]

theorem mem_parts_self (ty : ConcreteType) : ty ∈ parts ty := by
  rw [parts_eq]
  exact List.mem_cons_self

theorem mem_parts_of_child {ty c p : ConcreteType} (hc : c ∈ children ty) (hp : p ∈ parts c) :
    p ∈ parts ty := by
  rw [parts_eq]
  exact List.mem_cons_of_mem _ (List.mem_flatMap.mpr ⟨c,hc,hp⟩)

theorem parts_trans {ty p q : ConcreteType} (hp : p ∈ parts ty) (hq : q ∈ parts p) : q ∈ parts ty := by
  induction ty using ind_children with
  | h ty ih =>
    rw [parts_eq,List.mem_cons,List.mem_flatMap] at hp
    obtain rfl | ⟨c,hc,hpc⟩ := hp
    · exact hq
    · exact mem_parts_of_child hc (ih c hc hpc)

theorem forall_parts {P : ConcreteType → Prop} {ty : ConcreteType} :
    (∀ p ∈ parts ty, P p) ↔ P ty ∧ ∀ c ∈ children ty, ∀ p ∈ parts c, P p := by
  rw [parts_eq,List.forall_mem_cons]
  simp only [List.mem_flatMap,forall_exists_index,and_imp]
  refine and_congr_right fun _ => ⟨fun h c hc p hp => h p c hc hp,fun h p c hc hp => h c hc p hp⟩

/-- The fields of a named descriptor are a map. -/
def FieldsSorted : ConcreteType → Prop
  | .namedFields _ _ fields => fields.Pairwise fun a b => a.1 < b.1
  | _ => True

instance : DecidablePred FieldsSorted := fun ty => by
  cases ty <;> unfold FieldsSorted <;> infer_instance

end ConcreteType

/-- A descriptor whose fields are maps throughout. -/
abbrev Descriptor := {ty : ConcreteType // ∀ p ∈ ty.parts, p.FieldsSorted}

/-! The document of a descriptor. -/

def primitiveToJson (name : String) : Json :=
  jsonObject [("kind",.string "primitive"),("name",.string name)]

mutual
/-- `concrete_type_to_json`, which never fails; the body of `namedFields` and that of `namedAlias` are
the two cases of `concrete_named_body_to_json`. -/
def concreteTypeToJson : ConcreteType → Json
  | .jsonValue => primitiveToJson "JsonValue"
  | .unit => primitiveToJson "Unit"
  | .bool => primitiveToJson "Bool"
  | .int => primitiveToJson "Int"
  | .float => primitiveToJson "Float"
  | .string => primitiveToJson "String"
  | .namedFields name arguments fields =>
    jsonObject [("kind",.string "named"),("name",.string name),
      ("arguments",.array (typesToJson arguments)),
      ("body",jsonObject [("kind",.string "record"),("fields",.array (membersToJson "type" fields))])]
  | .namedAlias name arguments ty =>
    jsonObject [("kind",.string "named"),("name",.string name),
      ("arguments",.array (typesToJson arguments)),("body",concreteTypeToJson ty)]
  | .adt name arguments constructors =>
    jsonObject [("kind",.string "adt"),("name",.string name),
      ("arguments",.array (typesToJson arguments)),
      ("constructors",.array (membersToJson "payload" constructors))]
  | .list item => jsonObject [("kind",.string "list"),("item",concreteTypeToJson item)]
  | .set item => jsonObject [("kind",.string "set"),("item",concreteTypeToJson item)]
  | .map key value =>
    jsonObject [("kind",.string "map"),("key",concreteTypeToJson key),("value",concreteTypeToJson value)]
  | .product items => jsonObject [("kind",.string "product"),("items",.array (typesToJson items))]
def typesToJson : List ConcreteType → List Json
  | [] => []
  | ty :: rest => concreteTypeToJson ty :: typesToJson rest
def membersToJson (label : String) : List (String × ConcreteType) → List Json
  | [] => []
  | (name,ty) :: rest =>
    jsonObject [("name",.string name),(label,concreteTypeToJson ty)] :: membersToJson label rest
end

/-- The document that is hashed for a primitive descriptor. -/
def legacyPrimitive (kind : String) : Json := jsonObject [("kind",.string kind)]

mutual
/-- `legacy_identity_json`; there is none when an ADT or a set occurs anywhere. -/
def legacyIdentityJson : ConcreteType → Option Json
  | .jsonValue => some (legacyPrimitive "json_value")
  | .unit => some (legacyPrimitive "unit")
  | .bool => some (legacyPrimitive "bool")
  | .int => some (legacyPrimitive "int")
  | .float => some (legacyPrimitive "float")
  | .string => some (legacyPrimitive "string")
  | .namedFields name arguments fields => do
    let arguments ← legacyAll arguments
    let fields ← legacyMembers fields
    some (jsonObject [("kind",.string "named"),("name",.string name),("arguments",.array arguments),
      ("body",jsonObject [("kind",.string "record"),("fields",jsonObject fields)])])
  | .namedAlias name arguments ty => do
    let arguments ← legacyAll arguments
    let body ← legacyIdentityJson ty
    some (jsonObject [("kind",.string "named"),("name",.string name),("arguments",.array arguments),
      ("body",body)])
  | .adt .. => none
  | .set .. => none
  | .list item => do
    let item ← legacyIdentityJson item
    some (jsonObject [("kind",.string "list"),("item",item)])
  | .map key value => do
    let key ← legacyIdentityJson key
    let value ← legacyIdentityJson value
    some (jsonObject [("kind",.string "map"),("key",key),("value",value)])
  | .product items => do
    let items ← legacyAll items
    some (jsonObject [("kind",.string "product"),("items",.array items)])
def legacyAll : List ConcreteType → Option (List Json)
  | [] => some []
  | ty :: rest => do
    let json ← legacyIdentityJson ty
    let rest ← legacyAll rest
    some (json :: rest)
def legacyMembers : List (String × ConcreteType) → Option (List (String × Json))
  | [] => some []
  | (name,ty) :: rest => do
    let json ← legacyIdentityJson ty
    let rest ← legacyMembers rest
    some ((name,json) :: rest)
end

/-- What `stable_id` hashes. -/
def identityJson (ty : ConcreteType) : Json :=
  (legacyIdentityJson ty).getD (jsonObject [("domain",.string "mag.type.v2"),
    ("version",.number (.posInt ⟨2,by decide⟩)),("descriptor",concreteTypeToJson ty)])

/-! The documents determine their descriptors. -/

theorem typesToJson_eq (tys : List ConcreteType) : typesToJson tys = tys.map concreteTypeToJson := by
  induction tys with
  | nil => rfl
  | cons ty rest ih => rw [typesToJson,ih,List.map_cons]

/-- A member of a record or a sum. -/
def memberToJson (label : String) (member : String × ConcreteType) : Json :=
  jsonObject [("name",.string member.1),(label,concreteTypeToJson member.2)]

theorem membersToJson_eq (label : String) (members : List (String × ConcreteType)) :
    membersToJson label members = members.map (memberToJson label) := by
  induction members with
  | nil => rfl
  | cons m rest ih => rw [membersToJson,ih,List.map_cons,memberToJson]

/-- The kind in the document of a descriptor. -/
def descriptorKind : ConcreteType → String
  | .namedFields .. | .namedAlias .. => "named"
  | .adt .. => "adt"
  | .list _ => "list"
  | .set _ => "set"
  | .map .. => "map"
  | .product _ => "product"
  | _ => "primitive"

theorem kind_concreteTypeToJson (ty : ConcreteType) :
    (concreteTypeToJson ty).get "kind" = some (.string (descriptorKind ty)) := by
  cases ty <;> simp [concreteTypeToJson,primitiveToJson,get_jsonObject,descriptorKind]

/-- The elements of equal images are equal when the map is injective on them. -/
theorem map_inj {α β : Type} {f : α → β} {xs ys : List α} (hf : ∀ x ∈ xs, ∀ y, f x = f y → x = y)
    (h : xs.map f = ys.map f) : xs = ys := by
  induction xs generalizing ys with
  | nil => exact (List.map_eq_nil_iff.mp h.symm).symm
  | cons x xs ih =>
    cases ys with
    | nil => cases h
    | cons y ys =>
      obtain ⟨hx,hxs⟩ := List.forall_mem_cons.mp hf
      rw [List.map_cons,List.map_cons,List.cons.injEq] at h
      rw [hx y h.1,ih hxs h.2]

theorem memberToJson_inj {label : String} (hl : label ≠ "name") {m n : String × ConcreteType}
    (hm : ∀ ty, concreteTypeToJson m.2 = concreteTypeToJson ty → m.2 = ty)
    (h : memberToJson label m = memberToJson label n) : m = n := by
  have hget := jsonObject_inj (by simp [hl.symm]) (by simp [hl.symm]) h
  have hname := hget "name"
  have hty := hget label
  simp only [BTreeMap.lookup_cons,if_pos,if_neg hl,Option.some.injEq,Json.string.injEq] at hname hty
  exact Prod.ext hname (hm _ hty)

theorem get_inj {a b : Json} (h : a = b) (key : String) : a.get key = b.get key := by rw [h]

theorem descriptorKind_eq {a b : ConcreteType} (h : concreteTypeToJson a = concreteTypeToJson b) :
    descriptorKind a = descriptorKind b := by
  have hkind := get_inj h "kind"
  rw [kind_concreteTypeToJson,kind_concreteTypeToJson] at hkind
  simpa using hkind

/-- No descriptor is written as a record. -/
theorem concreteTypeToJson_ne_record (ty : ConcreteType) (fields : Json) :
    concreteTypeToJson ty ≠ jsonObject [("kind",.string "record"),("fields",fields)] := by
  intro h
  have hkind := get_inj h "kind"
  rw [kind_concreteTypeToJson] at hkind
  cases ty <;> simp [descriptorKind,get_jsonObject] at hkind

/-- By the kind of the document first, and then member by member. -/
theorem concreteTypeToJson_inj (a b : ConcreteType) (h : concreteTypeToJson a = concreteTypeToJson b) :
    a = b := by
  induction a generalizing b with
  | namedFields n as fs iha ihf =>
    have hkind := descriptorKind_eq h
    cases b <;> simp only [descriptorKind,String.reduceEq] at hkind
    case namedFields m bs gs =>
      have hname := get_inj h "name"
      have harguments := get_inj h "arguments"
      have hbody := get_inj h "body"
      simp [concreteTypeToJson,get_jsonObject,typesToJson_eq,membersToJson_eq,BTreeMap.lookup_cons]
        at hname harguments hbody
      have hfields := get_inj hbody "fields"
      simp [get_jsonObject,BTreeMap.lookup_cons] at hfields
      rw [hname,map_inj iha harguments,map_inj (fun f hf g => memberToJson_inj (by decide) (ihf f hf)) hfields]
    case namedAlias m bs t =>
      have hbody := get_inj h "body"
      simp [concreteTypeToJson,get_jsonObject,BTreeMap.lookup_cons] at hbody
      exact absurd hbody.symm (concreteTypeToJson_ne_record t _)
  | namedAlias n as s iha ih =>
    have hkind := descriptorKind_eq h
    cases b <;> simp only [descriptorKind,String.reduceEq] at hkind
    case namedFields m bs gs =>
      have hbody := get_inj h "body"
      simp [concreteTypeToJson,get_jsonObject,BTreeMap.lookup_cons] at hbody
      exact absurd hbody (concreteTypeToJson_ne_record s _)
    case namedAlias m bs t =>
      have hname := get_inj h "name"
      have harguments := get_inj h "arguments"
      have hbody := get_inj h "body"
      simp [concreteTypeToJson,get_jsonObject,typesToJson_eq,BTreeMap.lookup_cons]
        at hname harguments hbody
      rw [hname,map_inj iha harguments,ih t hbody]
  | adt n as cs iha ihc =>
    have hkind := descriptorKind_eq h
    cases b <;> simp only [descriptorKind,String.reduceEq] at hkind
    case adt m bs ds =>
      have hname := get_inj h "name"
      have harguments := get_inj h "arguments"
      have hconstructors := get_inj h "constructors"
      simp [concreteTypeToJson,get_jsonObject,typesToJson_eq,membersToJson_eq,BTreeMap.lookup_cons]
        at hname harguments hconstructors
      rw [hname,map_inj iha harguments,
        map_inj (fun c hc d => memberToJson_inj (by decide) (ihc c hc)) hconstructors]
  | list s ih =>
    have hkind := descriptorKind_eq h
    cases b <;> simp only [descriptorKind,String.reduceEq] at hkind
    case list t =>
      have hitem := get_inj h "item"
      simp [concreteTypeToJson,get_jsonObject,BTreeMap.lookup_cons] at hitem
      rw [ih t hitem]
  | set s ih =>
    have hkind := descriptorKind_eq h
    cases b <;> simp only [descriptorKind,String.reduceEq] at hkind
    case set t =>
      have hitem := get_inj h "item"
      simp [concreteTypeToJson,get_jsonObject,BTreeMap.lookup_cons] at hitem
      rw [ih t hitem]
  | map k v ihk ihv =>
    have hkind := descriptorKind_eq h
    cases b <;> simp only [descriptorKind,String.reduceEq] at hkind
    case map l w =>
      have hkey := get_inj h "key"
      have hvalue := get_inj h "value"
      simp [concreteTypeToJson,get_jsonObject,BTreeMap.lookup_cons] at hkey hvalue
      rw [ihk l hkey,ihv w hvalue]
  | product as iha =>
    have hkind := descriptorKind_eq h
    cases b <;> simp only [descriptorKind,String.reduceEq] at hkind
    case product bs =>
      have hitems := get_inj h "items"
      simp [concreteTypeToJson,get_jsonObject,typesToJson_eq,BTreeMap.lookup_cons] at hitems
      rw [map_inj iha hitems]
  | _ =>
    have hkind := descriptorKind_eq h
    have hname := get_inj h "name"
    cases b <;> simp only [descriptorKind,String.reduceEq] at hkind <;>
      simp [concreteTypeToJson,primitiveToJson,get_jsonObject,BTreeMap.lookup_cons] at hname
    all_goals rfl

/-- The kind in the document that is hashed. -/
def legacyKind : ConcreteType → String
  | .jsonValue => "json_value"
  | .unit => "unit"
  | .bool => "bool"
  | .int => "int"
  | .float => "float"
  | .string => "string"
  | .namedFields .. | .namedAlias .. => "named"
  | .adt .. => "adt"
  | .set _ => "set"
  | .list _ => "list"
  | .map .. => "map"
  | .product _ => "product"

theorem kind_legacyIdentityJson {ty : ConcreteType} {json : Json} (h : legacyIdentityJson ty = some json) :
    json.get "kind" = some (.string (legacyKind ty)) := by
  cases ty <;> simp [legacyIdentityJson,legacyPrimitive,Option.bind_eq_some_iff] at h
  case namedFields =>
    obtain ⟨_,-,_,-,rfl⟩ := h
    simp [get_jsonObject,legacyKind]
  case namedAlias =>
    obtain ⟨_,-,_,-,rfl⟩ := h
    simp [get_jsonObject,legacyKind]
  case list =>
    obtain ⟨_,-,rfl⟩ := h
    simp [get_jsonObject,legacyKind]
  case map =>
    obtain ⟨_,-,_,-,rfl⟩ := h
    simp [get_jsonObject,legacyKind]
  case product =>
    obtain ⟨_,-,rfl⟩ := h
    simp [get_jsonObject,legacyKind]
  all_goals
    subst h
    simp [get_jsonObject,legacyKind]

theorem legacyIdentityJson_ne_record (ty : ConcreteType) (fields : Json) :
    legacyIdentityJson ty ≠ some (jsonObject [("kind",.string "record"),("fields",fields)]) := by
  intro h
  have hkind := kind_legacyIdentityJson h
  simp only [get_jsonObject (by simp : (List.map _ [("kind",Json.string "record"),("fields",fields)]).Nodup),
    BTreeMap.lookup_cons] at hkind
  cases ty <;> simp [legacyKind] at hkind

theorem legacyAll_inj {as bs : List ConcreteType} {jsons : List Json}
    (h : ∀ a ∈ as, ∀ b ∈ bs, ∀ json, legacyIdentityJson a = some json →
      legacyIdentityJson b = some json → a = b)
    (ha : legacyAll as = some jsons) (hb : legacyAll bs = some jsons) : as = bs := by
  induction as generalizing bs jsons with
  | nil =>
    cases ha
    cases bs with
    | nil => rfl
    | cons b bs => simp [legacyAll,Option.bind_eq_some_iff] at hb
  | cons a as ih =>
    simp only [legacyAll,Option.bind_eq_bind,Option.bind_eq_some_iff,Option.some.injEq] at ha
    obtain ⟨json,hjson,rest,hrest,rfl⟩ := ha
    cases bs with
    | nil => simp [legacyAll] at hb
    | cons b bs =>
      simp only [legacyAll,Option.bind_eq_bind,Option.bind_eq_some_iff,Option.some.injEq,
        List.cons.injEq] at hb
      obtain ⟨json',hjson',rest',hrest',heq,hrests⟩ := hb
      rw [heq] at hjson'
      rw [hrests] at hrest'
      rw [h a List.mem_cons_self b List.mem_cons_self json hjson hjson',
        ih (fun a ha b hb => h a (List.mem_cons_of_mem _ ha) b (List.mem_cons_of_mem _ hb)) hrest hrest']

theorem legacyMembers_inj {as bs : List (String × ConcreteType)} {jsons : List (String × Json)}
    (h : ∀ a ∈ as, ∀ b ∈ bs, ∀ json, legacyIdentityJson a.2 = some json →
      legacyIdentityJson b.2 = some json → a.2 = b.2)
    (ha : legacyMembers as = some jsons) (hb : legacyMembers bs = some jsons) : as = bs := by
  induction as generalizing bs jsons with
  | nil =>
    cases ha
    cases bs with
    | nil => rfl
    | cons b bs => simp [legacyMembers,Option.bind_eq_some_iff] at hb
  | cons a as ih =>
    simp only [legacyMembers,Option.bind_eq_bind,Option.bind_eq_some_iff,Option.some.injEq] at ha
    obtain ⟨json,hjson,rest,hrest,rfl⟩ := ha
    cases bs with
    | nil => simp [legacyMembers] at hb
    | cons b bs =>
      simp only [legacyMembers,Option.bind_eq_bind,Option.bind_eq_some_iff,Option.some.injEq,
        List.cons.injEq,Prod.mk.injEq] at hb
      obtain ⟨json',hjson',rest',hrest',⟨hname,heq⟩,hrests⟩ := hb
      rw [heq] at hjson'
      rw [hrests] at hrest'
      rw [Prod.ext hname.symm (h a List.mem_cons_self b List.mem_cons_self json hjson hjson'),
        ih (fun a ha b hb => h a (List.mem_cons_of_mem _ ha) b (List.mem_cons_of_mem _ hb)) hrest hrest']

theorem legacyMembers_names {members : List (String × ConcreteType)} {jsons : List (String × Json)}
    (h : legacyMembers members = some jsons) : jsons.map (·.1) = members.map (·.1) := by
  induction members generalizing jsons with
  | nil =>
    cases h
    rfl
  | cons m rest ih =>
    simp only [legacyMembers,Option.bind_eq_bind,Option.bind_eq_some_iff,Option.some.injEq] at h
    obtain ⟨_,-,_,hrest,rfl⟩ := h
    rw [List.map_cons,List.map_cons,ih hrest]

/-- Fields that are a map are written as they are. -/
theorem legacyMembers_ofList {members : List (String × ConcreteType)} {jsons : List (String × Json)}
    (hs : members.Pairwise fun a b => a.1 < b.1) (h : legacyMembers members = some jsons) :
    Json.Object.ofList jsons = jsons := by
  apply Json.Object.Sorted.ofList
  have hnames := List.pairwise_map.mpr hs
  rw [← legacyMembers_names h] at hnames
  exact List.pairwise_map.mp hnames

theorem forall_children {a : ConcreteType} (h : ∀ p ∈ a.parts, p.FieldsSorted) {c : ConcreteType}
    (hc : c ∈ a.children) : ∀ p ∈ c.parts, p.FieldsSorted := (ConcreteType.forall_parts.mp h).2 c hc

theorem legacyIdentityJson_inj (a b : ConcreteType) {json : Json}
    (hsa : ∀ p ∈ a.parts, p.FieldsSorted) (hsb : ∀ p ∈ b.parts, p.FieldsSorted)
    (ha : legacyIdentityJson a = some json) (hb : legacyIdentityJson b = some json) : a = b := by
  induction a using ConcreteType.ind_children generalizing b json with
  | h a ih =>
    have hkind := (kind_legacyIdentityJson ha).symm.trans (kind_legacyIdentityJson hb)
    have hchild : ∀ c ∈ a.children, ∀ d ∈ b.children, ∀ json, legacyIdentityJson c = some json →
        legacyIdentityJson d = some json → c = d := fun c hc d hd json =>
      ih c hc d (forall_children hsa hc) (forall_children hsb hd)
    cases a <;> cases b <;> simp only [legacyKind,Option.some.injEq,Json.string.injEq,String.reduceEq] at hkind
    all_goals simp only [legacyIdentityJson,Option.bind_eq_bind,Option.bind_eq_some_iff,
      Option.some.injEq,reduceCtorEq] at ha hb
    case namedFields.namedFields n as fs m bs gs =>
      obtain ⟨arguments,has,fields,hfs,rfl⟩ := ha
      obtain ⟨arguments',hbs,fields',hgs,h⟩ := hb
      have hname := get_inj h "name"
      have harguments := get_inj h "arguments"
      have hbody := get_inj h "body"
      simp [get_jsonObject,BTreeMap.lookup_cons] at hname harguments hbody
      have hfields := get_inj hbody "fields"
      simp [get_jsonObject,BTreeMap.lookup_cons] at hfields
      have hfields : Json.Object.ofList fields' = Json.Object.ofList fields := Json.object.inj hfields
      rw [legacyMembers_ofList (hsa _ (ConcreteType.mem_parts_self _)) hfs,
        legacyMembers_ofList (hsb _ (ConcreteType.mem_parts_self _)) hgs] at hfields
      rw [harguments] at hbs
      rw [hfields] at hgs
      have hargs := legacyAll_inj (fun c hc d hd => hchild c (List.mem_append_left _ hc) d
        (List.mem_append_left _ hd)) has hbs
      have hfields := legacyMembers_inj (fun f hf g hg => hchild f.2
        (List.mem_append_right _ (List.mem_map_of_mem hf)) g.2
        (List.mem_append_right _ (List.mem_map_of_mem hg))) hfs hgs
      rw [hname,hargs,hfields]
    case namedFields.namedAlias n as fs m bs t =>
      obtain ⟨arguments,has,fields,hfs,rfl⟩ := ha
      obtain ⟨arguments',hbs,body,ht,h⟩ := hb
      have hbody := get_inj h "body"
      simp [get_jsonObject,BTreeMap.lookup_cons] at hbody
      exact absurd (hbody ▸ ht) (legacyIdentityJson_ne_record t _)
    case namedAlias.namedFields n as s m bs gs =>
      obtain ⟨arguments,has,body,hs,rfl⟩ := ha
      obtain ⟨arguments',hbs,fields,hgs,h⟩ := hb
      have hbody := get_inj h "body"
      simp [get_jsonObject,BTreeMap.lookup_cons] at hbody
      exact absurd (hbody ▸ hs) (legacyIdentityJson_ne_record s _)
    case namedAlias.namedAlias n as s m bs t =>
      obtain ⟨arguments,has,body,hs,rfl⟩ := ha
      obtain ⟨arguments',hbs,body',ht,h⟩ := hb
      have hname := get_inj h "name"
      have harguments := get_inj h "arguments"
      have hbody := get_inj h "body"
      simp [get_jsonObject,BTreeMap.lookup_cons] at hname harguments hbody
      rw [harguments] at hbs
      rw [hbody] at ht
      have hargs := legacyAll_inj (fun c hc d hd => hchild c (List.mem_append_left _ hc) d
        (List.mem_append_left _ hd)) has hbs
      have halias := hchild s (List.mem_append_right _ List.mem_cons_self) t
        (List.mem_append_right _ List.mem_cons_self) _ hs ht
      rw [hname,hargs,halias]
    case list.list s t =>
      obtain ⟨item,hs,rfl⟩ := ha
      obtain ⟨item',ht,h⟩ := hb
      have hitem := get_inj h "item"
      simp [get_jsonObject,BTreeMap.lookup_cons] at hitem
      rw [hitem] at ht
      rw [hchild s List.mem_cons_self t List.mem_cons_self _ hs ht]
    case map.map k v l w =>
      obtain ⟨key,hk,value,hv,rfl⟩ := ha
      obtain ⟨key',hl,value',hw,h⟩ := hb
      have hkey := get_inj h "key"
      have hvalue := get_inj h "value"
      simp [get_jsonObject,BTreeMap.lookup_cons] at hkey hvalue
      rw [hkey] at hl
      rw [hvalue] at hw
      rw [hchild k (by simp [ConcreteType.children]) l (by simp [ConcreteType.children]) _ hk hl,
        hchild v (by simp [ConcreteType.children]) w (by simp [ConcreteType.children]) _ hv hw]
    case product.product as bs =>
      obtain ⟨items,has,rfl⟩ := ha
      obtain ⟨items',hbs,h⟩ := hb
      have hitems := get_inj h "items"
      simp [get_jsonObject,BTreeMap.lookup_cons] at hitems
      rw [hitems] at hbs
      exact congrArg ConcreteType.product (legacyAll_inj hchild has hbs)
    all_goals rfl

/-- Descriptors with one identity are the same. A document with a domain is none of the older ones,
which all have a kind. -/
theorem identityJson_inj (a b : Descriptor) (h : identityJson a.val = identityJson b.val) : a = b := by
  have hnew : ∀ ty descriptor, legacyIdentityJson ty ≠ some (jsonObject
      [("domain",.string "mag.type.v2"),("version",.number (.posInt ⟨2,by decide⟩)),
        ("descriptor",descriptor)]) := by
    intro ty descriptor hty
    have hkind := kind_legacyIdentityJson hty
    simp [get_jsonObject,BTreeMap.lookup_cons] at hkind
  apply Subtype.ext
  unfold identityJson at h
  cases ha : legacyIdentityJson a.val with
  | none =>
    cases hb : legacyIdentityJson b.val with
    | none =>
      rw [ha,hb] at h
      have hdescriptor := get_inj h "descriptor"
      simp [get_jsonObject,BTreeMap.lookup_cons] at hdescriptor
      exact concreteTypeToJson_inj _ _ hdescriptor
    | some json =>
      rw [ha,hb] at h
      exact absurd (hb.trans (congrArg some h.symm)) (hnew b.val _)
  | some json =>
    cases hb : legacyIdentityJson b.val with
    | none =>
      rw [ha,hb] at h
      exact absurd (ha.trans (congrArg some h)) (hnew a.val _)
    | some json' =>
      rw [ha,hb] at h
      have h : json = json' := h
      rw [← h] at hb
      exact legacyIdentityJson_inj _ _ a.property b.property ha hb

end Nefor.Mag
