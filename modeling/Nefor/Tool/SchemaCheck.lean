import Nefor.Tool.PatternExact
import Nefor.Tool.SchemaMeaning

/-! What the check of a schema establishes. -/
namespace Nefor.Tool.Schema
open Nefor.Lua

/-! Lists of checks. -/

theorem require_ok {condition : Bool} {text : String} : require condition text = .ok () ↔ condition = true := by
  cases condition <;> simp [require]

theorem each_ok {α : Type} {f : α → Except Rejected Unit} {l : List α} :
    each f l = .ok () ↔ ∀ x ∈ l, f x = .ok () := by
  induction l with
  | nil => simp [each]
  | cons x l ih =>
    rw [each,bind_ok,List.forall_mem_cons,← ih]
    constructor
    · intro h
      obtain ⟨_,hx,hl⟩ := h
      exact ⟨hx,hl⟩
    · intro h
      exact ⟨(),h.1,h.2⟩

theorem checkAlternatives_ok {checkNode : LuaValue → String → Except Rejected Unit} {place : String} {index : Nat}
    {l : List LuaValue} (h : checkAlternatives checkNode place index l = .ok ()) :
    ∀ v ∈ l, ∃ place, checkNode v place = .ok () := by
  induction l generalizing index with
  | nil => simp
  | cons v l ih =>
    obtain ⟨_,hv,hl⟩ := bind_ok.mp h
    exact List.forall_mem_cons.mpr ⟨⟨_,hv⟩,ih hl⟩

theorem checkNames_ok {properties : LuaValue} {place : String} {seen : List String} {l : List LuaValue}
    (h : checkNames properties place seen l = .ok ()) :
    ∀ v ∈ l, ∃ name, v = .str name ∧ (properties.get name).isNil = false := by
  induction l generalizing seen with
  | nil => simp
  | cons v l ih =>
    cases v with
    | str name =>
      obtain ⟨_,-,h⟩ := bind_ok.mp h
      obtain ⟨_,hdeclared,h⟩ := bind_ok.mp h
      refine List.forall_mem_cons.mpr ⟨⟨name,rfl,?_⟩,ih h⟩
      simpa using require_ok.mp hdeclared
    | _ => cases h

theorem mem_of_index {t : Fields} {key : LuaKey} (h : (t.index key).isNil = false) : key ∈ t.map (·.1) := by
  induction t with
  | nil => cases h
  | cons e rest ih =>
    obtain ⟨k,v⟩ := e
    rw [Fields.index] at h
    split at h
    · rename_i hk
      exact List.mem_cons.mpr (.inl hk.symm)
    · exact List.mem_cons_of_mem _ (ih h)

theorem mem_sortedKeys {t : Fields} {key : LuaKey} : key ∈ sortedKeys t ↔ key ∈ t.map (·.1) :=
  List.mem_insertionSort _

/-! One schema. -/

/-- What the check establishes of a schema, when its parts are accepted. -/
structure Shape (accepted : LuaValue → Prop) (schema : LuaValue) : Prop where
  map : isMap schema = true
  type : (schema.get "type").isNil = true ∨ ∃ type ∈ types, schema.get "type" = .str type
  properties : (schema.get "properties").isNil = true ∨ isMap (schema.get "properties") = true
  property : ∀ key ∈ (schema.get "properties").fields.map (·.1),
    accepted ((schema.get "properties").fields.index key)
  required : (schema.get "required").isNil = true ∨ (schema.get "required").isTable = true
  name : ∀ v ∈ (schema.get "required").sequence, ∃ name, v = .str name ∧
    ((schema.get "properties").get name).isNil = false
  enum : (schema.get "enum").isNil = true ∨ (schema.get "enum").isTable = true
  oneOf : (schema.get "oneOf").isNil = true ∨ (schema.get "oneOf").isTable = true
  alternative : ∀ v ∈ (schema.get "oneOf").sequence, accepted v
  items : (schema.get "items").isNil = false → accepted (schema.get "items")
  minItems : (schema.get "minItems").isNil = true ∨ ∃ n, schema.get "minItems" = .num (.int n)
  minLength : (schema.get "minLength").isNil = true ∨ ∃ n, schema.get "minLength" = .num (.int n)
  minimum : (schema.get "minimum").isNil = true ∨ ∃ n, schema.get "minimum" = .num n
  maximum : (schema.get "maximum").isNil = true ∨ ∃ n, schema.get "maximum" = .num n
  pattern : (schema.get "pattern").isNil = true ∨
    ∃ s node, schema.get "pattern" = .str s ∧ compile (ascii s) = .ok node

/-- The schema passes the check at some place. -/
def Accepted (fuel : Nat) (schema : LuaValue) : Prop := ∃ place, checkNode fuel schema place = .ok ()

variable {schema : LuaValue} {place : String} {fuel : Nat}

theorem checkType_ok (h : checkType schema place = .ok ()) :
    (schema.get "type").isNil = true ∨ ∃ type ∈ types, schema.get "type" = .str type := by
  unfold checkType at h
  split at h
  · have htype := require_ok.mp h
    cases hs : schema.get "type" with
    | str s =>
      rw [hs,isOneOf,List.contains_iff_mem] at htype
      exact .inr ⟨s,htype,rfl⟩
    | _ =>
      rw [hs] at htype
      cases htype
  · rename_i hnil
    exact .inl (by simpa using hnil)

theorem isTable_of_isList {value : LuaValue} (h : isList value = true) : value.isTable = true := by
  cases value with
  | table _ _ => rfl
  | _ => cases h

theorem checkProperties_ok {checkNode : LuaValue → String → Except Rejected Unit}
    (h : checkProperties checkNode schema place = .ok ()) :
    ((schema.get "properties").isNil = true ∨ isMap (schema.get "properties") = true) ∧
      ∀ key ∈ (schema.get "properties").fields.map (·.1),
        ∃ place, checkNode ((schema.get "properties").fields.index key) place = .ok () := by
  unfold checkProperties at h
  simp only at h
  split at h
  · rename_i hnil
    refine ⟨.inl hnil,fun key hkey => ?_⟩
    cases hp : schema.get "properties" with
    | nil =>
      rw [hp] at hkey
      cases hkey
    | _ =>
      rw [hp] at hnil
      cases hnil
  · obtain ⟨_,hmap,h⟩ := bind_ok.mp h
    refine ⟨.inr (require_ok.mp hmap),fun key hkey => ?_⟩
    obtain ⟨_,-,hnode⟩ := bind_ok.mp (each_ok.mp h key (mem_sortedKeys.mpr hkey))
    exact ⟨_,hnode⟩

theorem sequence_of_isNil {value : LuaValue} (h : value.isNil = true) : value.sequence = [] := by
  cases value with
  | nil => rfl
  | _ => cases h

theorem checkRequired_ok (h : checkRequired schema place = .ok ()) :
    ((schema.get "required").isNil = true ∨ (schema.get "required").isTable = true) ∧
      ∀ v ∈ (schema.get "required").sequence, ∃ name, v = .str name ∧
        ((schema.get "properties").get name).isNil = false := by
  unfold checkRequired at h
  simp only at h
  split at h
  · rename_i hnil
    rw [sequence_of_isNil hnil]
    exact ⟨.inl hnil,by simp⟩
  · obtain ⟨_,htable,h⟩ := bind_ok.mp h
    have hand := Bool.and_eq_true_iff.mp (require_ok.mp htable)
    exact ⟨.inr hand.1,checkNames_ok h⟩

theorem checkEnum_ok (h : checkEnum schema place = .ok ()) :
    (schema.get "enum").isNil = true ∨ (schema.get "enum").isTable = true := by
  unfold checkEnum at h
  simp only at h
  split at h
  · rename_i hnil
    exact .inl hnil
  · obtain ⟨_,hlist,-⟩ := bind_ok.mp h
    exact .inr (isTable_of_isList (require_ok.mp hlist))

theorem checkOneOf_ok {checkNode : LuaValue → String → Except Rejected Unit}
    (h : checkOneOf checkNode schema place = .ok ()) :
    ((schema.get "oneOf").isNil = true ∨ (schema.get "oneOf").isTable = true) ∧
      ∀ v ∈ (schema.get "oneOf").sequence, ∃ place, checkNode v place = .ok () := by
  unfold checkOneOf at h
  simp only at h
  split at h
  · rename_i hnil
    rw [sequence_of_isNil hnil]
    exact ⟨.inl hnil,by simp⟩
  · obtain ⟨_,hlist,h⟩ := bind_ok.mp h
    exact ⟨.inr (isTable_of_isList (require_ok.mp hlist)),checkAlternatives_ok h⟩

theorem checkItems_ok {checkNode : LuaValue → String → Except Rejected Unit}
    (h : checkItems checkNode schema place = .ok ()) (hitems : (schema.get "items").isNil = false) :
    ∃ place, checkNode (schema.get "items") place = .ok () := by
  rw [checkItems,if_neg (by simp [hitems])] at h
  exact ⟨_,h⟩

theorem of_nonnegativeInteger {value : LuaValue} (h : (value.isNil || nonnegativeInteger value) = true) :
    value.isNil = true ∨ ∃ n, value = .num (.int n) := by
  cases Bool.or_eq_true_iff.mp h with
  | inl h => exact .inl h
  | inr h =>
    match value,h with
    | .num (.int n),_ => exact .inr ⟨n,rfl⟩

theorem of_finiteNumber {value : LuaValue} (h : (value.isNil || finiteNumber value) = true) :
    value.isNil = true ∨ ∃ n, value = .num n := by
  cases Bool.or_eq_true_iff.mp h with
  | inl h => exact .inl h
  | inr h =>
    match value,h with
    | .num n,_ => exact .inr ⟨n,rfl⟩

theorem checkPattern_ok (h : checkPattern schema place = .ok ()) : (schema.get "pattern").isNil = true ∨
    ∃ s node, schema.get "pattern" = .str s ∧ compile (ascii s) = .ok node := by
  unfold checkPattern at h
  split at h
  · rename_i hnil
    exact .inl hnil
  · split at h
    · rename_i node hnode
      cases hp : schema.get "pattern" with
      | str s =>
        rw [hp] at hnode
        exact .inr ⟨s,node,rfl,hnode⟩
      | _ =>
        rw [hp] at hnode
        cases hnode
    · cases h
    · cases h

theorem accepted_shape (h : Accepted (fuel + 1) schema) : Shape (Accepted fuel) schema := by
  obtain ⟨place,h⟩ := h
  unfold checkNode at h
  obtain ⟨_,hmap,h⟩ := bind_ok.mp h
  obtain ⟨_,-,h⟩ := bind_ok.mp h
  obtain ⟨_,htype,h⟩ := bind_ok.mp h
  obtain ⟨_,-,h⟩ := bind_ok.mp h
  obtain ⟨_,-,h⟩ := bind_ok.mp h
  obtain ⟨_,hproperties,h⟩ := bind_ok.mp h
  obtain ⟨_,hrequired,h⟩ := bind_ok.mp h
  obtain ⟨_,-,h⟩ := bind_ok.mp h
  obtain ⟨_,henum,h⟩ := bind_ok.mp h
  obtain ⟨_,honeOf,h⟩ := bind_ok.mp h
  obtain ⟨_,hitems,h⟩ := bind_ok.mp h
  obtain ⟨_,hnumbers,hpattern⟩ := bind_ok.mp h
  obtain ⟨_,hcounts,hnumbers⟩ := bind_ok.mp hnumbers
  obtain ⟨_,hbounds,-⟩ := bind_ok.mp hnumbers
  obtain ⟨hp,hproperty⟩ := checkProperties_ok hproperties
  obtain ⟨hr,hname⟩ := checkRequired_ok hrequired
  obtain ⟨ho,halternative⟩ := checkOneOf_ok honeOf
  have hcount := fun keyword hk => of_nonnegativeInteger (require_ok.mp (each_ok.mp hcounts keyword hk))
  have hbound := fun keyword hk => of_finiteNumber (require_ok.mp (each_ok.mp hbounds keyword hk))
  exact ⟨require_ok.mp hmap,checkType_ok htype,hp,hproperty,hr,hname,checkEnum_ok henum,ho,halternative,
    checkItems_ok hitems,hcount _ (by decide),hcount _ (by decide),hbound _ (by decide),hbound _ (by decide),
    checkPattern_ok hpattern⟩

/-- Nothing is accepted without rounds. -/
theorem not_accepted_zero : ¬ Accepted 0 schema := by
  intro h
  obtain ⟨place,h⟩ := h
  cases h

/-! The check has enough rounds. -/

theorem avoids_require (condition : Bool) (text : String) : Avoids Rejected.fuel (require condition text) := by
  cases condition
  · intro h
    cases h
  · exact avoids_ok _ _

theorem avoids_each {α : Type} {f : α → Except Rejected Unit} {l : List α} (h : ∀ x ∈ l, Avoids Rejected.fuel (f x)) :
    Avoids Rejected.fuel (each f l) := by
  induction l with
  | nil => exact avoids_ok _ _
  | cons x l ih =>
    obtain ⟨hx,hl⟩ := List.forall_mem_cons.mp h
    exact avoids_bind hx fun _ _ => ih hl

theorem avoids_checkAlternatives {checkNode : LuaValue → String → Except Rejected Unit} {index : Nat} {l : List LuaValue}
    (h : ∀ v ∈ l, ∀ place, Avoids Rejected.fuel (checkNode v place)) :
    Avoids Rejected.fuel (checkAlternatives checkNode place index l) := by
  induction l generalizing index with
  | nil => exact avoids_ok _ _
  | cons v l ih =>
    obtain ⟨hv,hl⟩ := List.forall_mem_cons.mp h
    exact avoids_bind (hv _) fun _ _ => ih hl

theorem avoids_checkNames {properties : LuaValue} {seen : List String} {l : List LuaValue} :
    Avoids Rejected.fuel (checkNames properties place seen l) := by
  induction l generalizing seen with
  | nil => exact avoids_ok _ _
  | cons v l ih =>
    cases v with
    | str name => exact avoids_bind (avoids_require _ _) fun _ _ => avoids_bind (avoids_require _ _) fun _ _ => ih
    | _ =>
      intro h
      cases h

theorem avoids_checkPattern : Avoids Rejected.fuel (checkPattern schema place) := by
  unfold checkPattern
  refine avoids_ite (avoids_ok _ _) ?_
  split
  · exact avoids_ok _ _
  · intro h
    cases h
  · rename_i hfuel
    cases hp : schema.get "pattern" with
    | str s =>
      rw [hp] at hfuel
      exact absurd hfuel (compile_ended _)
    | _ =>
      rw [hp] at hfuel
      cases hfuel

theorem avoids_checkProperties {checkNode : LuaValue → String → Except Rejected Unit}
    (h : ∀ v, depth v < depth schema → ∀ place, Avoids Rejected.fuel (checkNode v place)) :
    Avoids Rejected.fuel (checkProperties checkNode schema place) := by
  unfold checkProperties
  simp only
  split
  · exact avoids_ok _ _
  · rename_i hnil
    refine avoids_bind (avoids_require _ _) fun _ _ => avoids_each fun key _ =>
      avoids_bind (avoids_require _ _) fun _ _ => h _ ?_ _
    exact (depth_field_le _ _).trans_lt (depth_get_lt (by simpa using hnil))

theorem avoids_checkNode (h : depth schema < fuel) : Avoids Rejected.fuel (checkNode fuel schema place) := by
  induction fuel generalizing schema place with
  | zero => omega
  | succ fuel ih =>
    have hpart : ∀ v, depth v < depth schema → ∀ place, Avoids Rejected.fuel (checkNode fuel v place) :=
      fun v hv place => ih (by omega)
    have htype : Avoids Rejected.fuel (checkType schema place) := avoids_ite (avoids_require _ _) (avoids_require _ _)
    have hrequired : Avoids Rejected.fuel (checkRequired schema place) :=
      avoids_ite (avoids_ok _ _) (avoids_bind (avoids_require _ _) fun _ _ => avoids_checkNames)
    have henum : Avoids Rejected.fuel (checkEnum schema place) :=
      avoids_ite (avoids_ok _ _) (avoids_bind (avoids_require _ _) fun _ _ =>
        avoids_each fun _ _ => avoids_require _ _)
    have honeOf : Avoids Rejected.fuel (checkOneOf (checkNode fuel) schema place) :=
      avoids_ite (avoids_ok _ _) (avoids_bind (avoids_require _ _) fun _ _ =>
        avoids_checkAlternatives fun v hv => hpart v ((depth_sequence_lt hv).trans_le (depth_get_le _ _)))
    have hitems : Avoids Rejected.fuel (checkItems (checkNode fuel) schema place) := by
      unfold checkItems
      split
      · exact avoids_ok _ _
      · rename_i hnil
        exact hpart _ (depth_get_lt (by simpa using hnil)) _
    have hnumbers : Avoids Rejected.fuel (checkNumbers schema place) :=
      avoids_bind (avoids_each fun _ _ => avoids_require _ _) fun _ _ =>
        avoids_bind (avoids_each fun _ _ => avoids_require _ _) fun _ _ => avoids_require _ _
    unfold checkNode
    exact avoids_bind (avoids_require _ _) fun _ _ => avoids_bind (avoids_each fun _ _ => avoids_require _ _) fun _ _ =>
      avoids_bind htype fun _ _ => avoids_bind (avoids_each fun _ _ => avoids_require _ _) fun _ _ =>
      avoids_bind (avoids_require _ _) fun _ _ => avoids_bind (avoids_checkProperties hpart) fun _ _ =>
      avoids_bind hrequired fun _ _ => avoids_bind (avoids_require _ _) fun _ _ => avoids_bind henum fun _ _ =>
      avoids_bind honeOf fun _ _ => avoids_bind hitems fun _ _ => avoids_bind hnumbers fun _ _ => avoids_checkPattern

/-- The check accepts a schema or returns an error. -/
theorem check_avoids (parameters : LuaValue) : Avoids Rejected.fuel (check parameters) :=
  avoids_bind (avoids_require _ _) fun _ _ => avoids_bind (avoids_require _ _) fun _ _ =>
    avoids_checkNode (Nat.lt_succ_self _)

/-- An accepted schema has the type of an object. -/
theorem check_ok {parameters : LuaValue} (h : check parameters = .ok ()) :
    Accepted (depth parameters + 1) parameters ∧ parameters.get "type" = .str "object" := by
  obtain ⟨_,-,h⟩ := bind_ok.mp h
  obtain ⟨_,htype,h⟩ := bind_ok.mp h
  refine ⟨⟨_,h⟩,?_⟩
  have heq := require_ok.mp htype
  cases ht : parameters.get "type" with
  | str s =>
    rw [ht,LuaValue.rawEq,beq_iff_eq] at heq
    rw [heq]
  | _ =>
    rw [ht] at heq
    cases heq

end Nefor.Tool.Schema
