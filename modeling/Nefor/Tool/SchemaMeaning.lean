import Nefor.Tool.PatternLanguage
import Nefor.Tool.Schema

/-! What a schema means for a value: all keywords hold, every object is closed, exactly one
alternative is satisfied, and an empty table without a mark is both an object and an array. -/
namespace Nefor.Tool.Schema
open Nefor.Lua Anchored

/-! How deep tables are nested. -/

theorem depth_index_le (t : Fields) (key : LuaKey) : depth (t.index key) ≤ depthEntries t := by
  induction t with
  | nil => exact Nat.zero_le _
  | cons e rest ih =>
    obtain ⟨k,v⟩ := e
    rw [Fields.index,depthEntries]
    split
    · exact le_max_left _ _
    · exact ih.trans (le_max_right _ _)

theorem depth_index_lt {value : LuaValue} {key : LuaKey} (h : (value.fields.index key).isNil = false) :
    depth (value.fields.index key) < depth value := by
  cases value with
  | table marked t =>
    rw [depth]
    exact Nat.lt_succ_of_le (depth_index_le t key)
  | _ => cases h

theorem depth_field_le (value : LuaValue) (key : LuaKey) : depth (value.fields.index key) ≤ depth value := by
  cases value with
  | table marked t => exact (depth_index_le t _).trans (Nat.le_succ _)
  | _ => exact Nat.zero_le _

theorem depth_get_le (value : LuaValue) (name : String) : depth (value.get name) ≤ depth value := depth_field_le _ _

theorem depth_get_lt {value : LuaValue} {name : String} (h : (value.get name).isNil = false) :
    depth (value.get name) < depth value := depth_index_lt h

theorem mem_sequenceFrom {t : Fields} {n : Nat} {i : Int} {v : LuaValue} (h : v ∈ LuaValue.sequenceFrom t n i) :
    ∃ key, t.index key = v ∧ v.isNil = false := by
  induction n generalizing i with
  | zero => cases h
  | succ n ih =>
    unfold LuaValue.sequenceFrom at h
    split at h
    · cases h
    · rename_i w hne
      cases List.mem_cons.mp h with
      | inl heq =>
        refine ⟨.int i,heq.symm,?_⟩
        rw [heq]
        cases hw : t.index (.int i) with
        | nil => exact absurd hw hne
        | _ => rfl
      | inr h => exact ih h

theorem depth_sequence_lt {value v : LuaValue} (h : v ∈ value.sequence) : depth v < depth value := by
  obtain ⟨key,heq,hnil⟩ := mem_sequenceFrom h
  rw [← heq] at hnil ⊢
  exact depth_index_lt hnil

/-! The keywords. -/

/-- The instances of a type. -/
def hasType (type : String) : LuaValue → Bool
  | .table marked t => type == "array" && (marked || (denseCount t).isSome) || type == "object" && isMap (.table marked t)
  | .num n => type == "number" || type == "integer" && n.integral
  | .str _ => type == "string"
  | .bool _ => type == "boolean"
  | _ => false

section
variable (schema value : LuaValue)

def TypeHolds : Prop := ∀ type, schema.get "type" = .str type → hasType type value = true

def EnumHolds : Prop :=
  (schema.get "enum").isNil = true ∨ ∃ allowed ∈ (schema.get "enum").sequence, allowed.rawEq value = true

/-- The object has no field that is not declared. -/
def Closed : Prop := ∀ key ∈ value.fields.map (·.1), ((schema.get "properties").fields.index key).isNil = false

def RequiredHolds : Prop := ∀ name, .str name ∈ (schema.get "required").sequence → (value.get name).isNil = false

def MinItemsHolds : Prop := ∀ n, schema.get "minItems" = .num (.int n) → n ≤ value.sequence.length

/-- The length is counted in characters. -/
def MinLengthHolds : Prop := ∀ n, schema.get "minLength" = .num (.int n) → n ≤ characters value

def MinimumHolds : Prop := ∀ bound n, schema.get "minimum" = .num bound → value = .num n → n.lt bound = false

def MaximumHolds : Prop := ∀ bound n, schema.get "maximum" = .num bound → value = .num n → bound.lt n = false

/-- A word of the pattern stands somewhere in the string. -/
def PatternHolds (words : Node → Anchored UInt8) : Prop := ∀ s node, value = .str s →
  compilePattern (schema.get "pattern") = .ok node → Within (words node) (ascii s)

/-- The value satisfies the schema, for a language of each pattern. -/
def SatisfiesWith (words : Node → Anchored UInt8) (schema value : LuaValue) : Prop :=
  ((schema.get "oneOf").isNil = true ∨
    ∃ i : Fin (schema.get "oneOf").sequence.length, SatisfiesWith words ((schema.get "oneOf").sequence.get i) value ∧
      ∀ j : Fin (schema.get "oneOf").sequence.length,
        SatisfiesWith words ((schema.get "oneOf").sequence.get j) value → j = i) ∧
  TypeHolds schema value ∧ EnumHolds schema value ∧
  (schema.get "type" = .str "object" → Closed schema value ∧ RequiredHolds schema value ∧
    ∀ key, (hd : ((schema.get "properties").fields.index key).isNil = false) → (value.fields.index key).isNil = false →
      SatisfiesWith words ((schema.get "properties").fields.index key) (value.fields.index key)) ∧
  (schema.get "type" = .str "array" → MinItemsHolds schema value ∧
    ((hd : (schema.get "items").isNil = false) → ∀ item ∈ value.sequence, SatisfiesWith words (schema.get "items") item)) ∧
  (schema.get "type" = .str "string" → MinLengthHolds schema value ∧ PatternHolds schema value words) ∧
  (schema.get "type" = .str "integer" ∨ schema.get "type" = .str "number" →
    MinimumHolds schema value ∧ MaximumHolds schema value)
termination_by depth schema
decreasing_by
  · exact (depth_sequence_lt (List.get_mem _ _)).trans_le (depth_get_le _ _)
  · exact (depth_sequence_lt (List.get_mem _ _)).trans_le (depth_get_le _ _)
  · exact (depth_index_lt hd).trans_le (depth_get_le _ _)
  · exact depth_get_lt hd

end

/-- One element of a list, and no other. -/
def ExactlyOne {α : Type} (p : α → Prop) (l : List α) : Prop :=
  ∃ i : Fin l.length, p (l.get i) ∧ ∀ j : Fin l.length, p (l.get j) → j = i

section
variable (words : Node → Anchored UInt8) (schema value : LuaValue)

def OneOfHolds : Prop := (schema.get "oneOf").isNil = true ∨
  ExactlyOne (fun alternative => SatisfiesWith words alternative value) (schema.get "oneOf").sequence

def ObjectHolds : Prop := Closed schema value ∧ RequiredHolds schema value ∧
  ∀ key, ((schema.get "properties").fields.index key).isNil = false → (value.fields.index key).isNil = false →
    SatisfiesWith words ((schema.get "properties").fields.index key) (value.fields.index key)

def ItemsHold : Prop :=
  (schema.get "items").isNil = false → ∀ item ∈ value.sequence, SatisfiesWith words (schema.get "items") item

/-- What must hold for the type that a schema has. -/
def KindHolds : Prop :=
  (schema.get "type" = .str "object" → ObjectHolds words schema value) ∧
  (schema.get "type" = .str "array" → MinItemsHolds schema value ∧ ItemsHold words schema value) ∧
  (schema.get "type" = .str "string" → MinLengthHolds schema value ∧ PatternHolds schema value words) ∧
  (schema.get "type" = .str "integer" ∨ schema.get "type" = .str "number" →
    MinimumHolds schema value ∧ MaximumHolds schema value)

theorem satisfiesWith_iff : SatisfiesWith words schema value ↔
    OneOfHolds words schema value ∧ TypeHolds schema value ∧ EnumHolds schema value ∧ KindHolds words schema value := by
  rw [SatisfiesWith]
  rfl

/-- An array's items are validated where no argument is named: the schema of all arguments, or one
of its alternatives, has the type of an array with items, and the arguments are an array that is
not empty and meets everything else. -/
inductive Overruns (value : LuaValue) : LuaValue → Prop
  | alternative {schema alternative : LuaValue} : alternative ∈ (schema.get "oneOf").sequence →
    Overruns value alternative → Overruns value schema
  | items {schema : LuaValue} : OneOfHolds words schema value → TypeHolds schema value → EnumHolds schema value →
    schema.get "type" = .str "array" → MinItemsHolds schema value → (schema.get "items").isNil = false →
    value.sequence ≠ [] → Overruns value schema

end

/-- The value satisfies the schema. -/
def Satisfies (schema value : LuaValue) : Prop := SatisfiesWith language schema value

/-- The value satisfies the schema, when patterns are read without empty iterations. -/
def ProperlySatisfies (schema value : LuaValue) : Prop := SatisfiesWith properLanguage schema value

end Nefor.Tool.Schema
