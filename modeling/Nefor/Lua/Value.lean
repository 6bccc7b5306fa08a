import Mathlib.Data.Rat.Defs
import Mathlib.Data.List.Basic

/-! Lua 5.4 values as the JSON-shaped tables of the runtime use them: numbers with
their integer and float subtypes, tables as association lists, raw and deep equality.
Tables are values here, so copying one is the identity. -/
namespace Nefor.Lua

/-- A number keeps its subtype: `1` and `1.0` are equal but print differently. -/
inductive LuaNum
  | int (i : Int)
  | float (q : ℚ)
  | inf
  | negInf
  | nan
  deriving DecidableEq, Repr

namespace LuaNum

/-- The mathematical value of a finite number. -/
def toRat : LuaNum → Option ℚ
  | int i => some i
  | float q => some q
  | _ => none

/-- `a == b` on numbers; `NaN` differs from itself. -/
def eq : LuaNum → LuaNum → Bool
  | nan, _ => false
  | _, nan => false
  | inf, inf => true
  | negInf, negInf => true
  | a, b => match a.toRat, b.toRat with
    | some x, some y => decide (x = y)
    | _, _ => false

/-- `a <= b`, false as soon as one side is `NaN`. -/
def le : LuaNum → LuaNum → Bool
  | nan, _ => false
  | _, nan => false
  | negInf, _ => true
  | _, inf => true
  | a, b => match a.toRat, b.toRat with
    | some x, some y => decide (x ≤ y)
    | _, _ => false

def lt (a b : LuaNum) : Bool := le a b && !eq a b

/-- `value == value and value ~= math.huge and value ~= -math.huge`. -/
def finite (n : LuaNum) : Bool := n.toRat.isSome

/-- `value % 1 == 0`; the remainder of an infinity is `NaN`. -/
def integral : LuaNum → Bool
  | int _ => true
  | float q => decide (q.den = 1)
  | _ => false

/-- `n + 1` keeps the subtype. -/
def succ : LuaNum → LuaNum
  | int i => int (i+1)
  | float q => float (q+1)
  | n => n

/-- `tostring` of an integral number. -/
def text : LuaNum → String
  | int i => toString i
  | float q => toString q.num ++ ".0"
  | inf => "inf"
  | negInf => "-inf"
  | nan => "nan"

end LuaNum

/-- Keys of a JSON-shaped table. Float keys with integral values are normalised by Lua. -/
inductive LuaKey
  | str (s : String)
  | int (i : Int)
  deriving DecidableEq, Repr

/-- `userdata` covers every opaque host value, JSON `null` among them. A table keeps the
array mark that `nefor.json` attaches to decoded arrays. -/
inductive LuaValue
  | nil
  | bool (b : Bool)
  | num (n : LuaNum)
  | str (s : String)
  | userdata (id : Nat)
  | table (marked : Bool) (entries : List (LuaKey × LuaValue))
  deriving Repr, Inhabited

/-- The entries of a table. -/
abbrev Fields := List (LuaKey × LuaValue)

namespace Fields

/-- `t[key]`. -/
def index (t : Fields) (key : LuaKey) : LuaValue :=
  match t with
  | [] => .nil
  | (k,v) :: rest => if k = key then v else index rest key

/-- `t.name`. -/
def get (t : Fields) (name : String) : LuaValue := index t (.str name)

/-- `t[key] = value` for a value other than `nil`. -/
def put (t : Fields) (key : LuaKey) (value : LuaValue) : Fields :=
  match t with
  | [] => [(key,value)]
  | (k,v) :: rest => if k = key then (key,value) :: rest else (k,v) :: put rest key value

/-- `t[key] = nil`. -/
def remove (t : Fields) (key : LuaKey) : Fields := t.filter (fun e => e.1 ≠ key)

/-- `t.name = value`. -/
def set (t : Fields) (name : String) (value : LuaValue) : Fields := put t (.str name) value

/-- `t.name = nil`. -/
def unset (t : Fields) (name : String) : Fields := remove t (.str name)

@[simp] theorem index_put_self (t : Fields) (key : LuaKey) (v : LuaValue) :
    index (put t key v) key = v := by
  induction t with
  | nil => simp [put,index]
  | cons e rest ih =>
    by_cases h : e.1 = key <;> simp [put,index,h,ih]

theorem index_put_of_ne (t : Fields) {key other : LuaKey} (v : LuaValue) (h : other ≠ key) :
    index (put t key v) other = index t other := by
  induction t with
  | nil => simp [put,index,h.symm]
  | cons e rest ih =>
    by_cases hk : e.1 = key
    · simp [put,index,hk,h.symm]
    · simp only [put,hk,if_false,index,ih]

@[simp] theorem get_set_self (t : Fields) (name : String) (v : LuaValue) :
    get (set t name v) name = v := index_put_self t _ v

theorem get_set_of_ne (t : Fields) {name other : String} (v : LuaValue) (h : other ≠ name) :
    get (set t name v) other = get t other :=
  index_put_of_ne t v (by simpa using h)

theorem put_put (t : Fields) (key : LuaKey) (v w : LuaValue) :
    put (put t key v) key w = put t key w := by
  induction t with
  | nil => simp [put]
  | cons e rest ih =>
    by_cases h : e.1 = key <;> simp [put,h,ih]

/-- No entry of the table carries the key. -/
def Absent (t : Fields) (name : String) : Prop := ∀ e ∈ t, e.1 ≠ .str name

instance (t : Fields) (name : String) : Decidable (Absent t name) := by
  unfold Absent; infer_instance

theorem unset_of_absent {t : Fields} {name : String} (h : Absent t name) :
    unset t name = t := by
  rw [unset,remove,List.filter_eq_self]
  intro e he
  simpa using h e he

/-- Setting an absent field and clearing it again leaves the table as it was. -/
theorem unset_set {t : Fields} {name : String} (v : LuaValue) (h : Absent t name) :
    unset (set t name v) name = t := by
  induction t with
  | nil => simp [set,put,unset,remove]
  | cons e rest ih =>
    have hne : e.1 ≠ .str name := h e List.mem_cons_self
    have hih := ih (fun x hx => h x (List.mem_cons_of_mem _ hx))
    simp only [set,unset,remove] at hih
    simp only [set,unset,remove,put,hne,if_false]
    rw [List.filter_cons_of_pos (by simpa using hne),hih]

/-- Fields with different names are cleared and set independently. -/
theorem unset_set_of_ne {t : Fields} {name other : String} (v : LuaValue)
    (h : other ≠ name) : unset (set t name v) other = set (unset t other) name v := by
  have hk : (LuaKey.str name) ≠ .str other := by simpa using h.symm
  induction t with
  | nil => simp [set,put,unset,remove,hk]
  | cons e rest ih =>
    simp only [set,unset,remove] at ih
    simp only [set,unset,remove]
    by_cases ho : e.1 = .str other
    · have hn : e.1 ≠ .str name := by rw [ho]; exact hk.symm
      rw [put,if_neg hn,List.filter_cons_of_neg (by simpa using ho),ih,
        List.filter_cons_of_neg (by simpa using ho)]
    · rw [List.filter_cons_of_pos (by simpa using ho)]
      by_cases hn : e.1 = .str name
      · rw [put,if_pos hn,put,if_pos hn,List.filter_cons_of_pos (by simpa using hk)]
      · rw [put,if_neg hn,put,if_neg hn,List.filter_cons_of_pos (by simpa using ho),ih]

end Fields

namespace LuaValue

def isNil : LuaValue → Bool
  | nil => true
  | _ => false

/-- Everything but `nil` and `false` counts as true. -/
def truthy : LuaValue → Bool
  | nil => false
  | bool b => b
  | _ => true

/-- `a or b`. -/
def orElse (a b : LuaValue) : LuaValue := if a.truthy then a else b

def isTable : LuaValue → Bool
  | table _ _ => true
  | _ => false

/-- `type(value)`. -/
def typeName : LuaValue → String
  | nil => "nil"
  | bool _ => "boolean"
  | num _ => "number"
  | str _ => "string"
  | userdata _ => "userdata"
  | table _ _ => "table"

/-- The entries of a table, nothing for any other value. -/
def fields : LuaValue → Fields
  | table _ es => es
  | _ => []

/-- `value.name` once `value` is known to be a table. -/
def get (v : LuaValue) (name : String) : LuaValue := v.fields.get name

/-- `value ~= ""` on strings. -/
def nonempty : LuaValue → Bool
  | str s => s != ""
  | _ => false

/-- `a == b`. Distinct table objects differ; the model never shares one. -/
def rawEq : LuaValue → LuaValue → Bool
  | nil, nil => true
  | bool a, bool b => a == b
  | num a, num b => a.eq b
  | str a, str b => a == b
  | userdata a, userdata b => a == b
  | _, _ => false

mutual
/-- The deep comparison of `domain.lua`. -/
def equal : LuaValue → LuaValue → Bool
  | table _ xs, table _ ys => equalEntries xs ys && ys.all (fun e => !(Fields.index xs e.1).isNil)
  | a, b => rawEq a b
def equalEntries : List (LuaKey × LuaValue) → List (LuaKey × LuaValue) → Bool
  | [], _ => true
  | (k,v) :: rest, ys => equal v (Fields.index ys k) && equalEntries rest ys
end

/-- A table literal: fields whose value is `nil` are absent. -/
def record (entries : List (String × LuaValue)) : LuaValue :=
  table false ((entries.filter (fun e => !e.2.isNil)).map (fun e => (.str e.1,e.2)))

/-- The consecutive entries from index `i` on, as `ipairs` visits them. -/
def sequenceFrom (es : Fields) : Nat → Int → List LuaValue
  | 0, _ => []
  | n+1, i => match Fields.index es (.int i) with
    | nil => []
    | v => v :: sequenceFrom es n (i+1)

/-- The border `#t` is the length of this list. -/
def sequence (v : LuaValue) : List LuaValue := sequenceFrom v.fields v.fields.length 1

/-- Array entries numbered from `i`. -/
def arrayFrom : Int → List LuaValue → Fields
  | _, [] => []
  | i, v :: rest => (.int i,v) :: arrayFrom (i+1) rest

/-- A fresh array table. -/
def array (vs : List LuaValue) : LuaValue := table false (arrayFrom 1 vs)

/-- A Lua table never stores `nil`: such an assignment clears the field. -/
def Proper (v : LuaValue) : Prop := ∀ e ∈ v.fields, e.2.isNil = false

instance (v : LuaValue) : Decidable v.Proper := by unfold Proper; infer_instance

theorem Proper.absent {v : LuaValue} (h : v.Proper) {name : String}
    (hn : (v.get name).isNil) : v.fields.Absent name := by
  intro e he hk
  suffices hs : ∀ es : Fields, e ∈ es → (∀ x ∈ es, x.2.isNil = false) →
      (es.get name).isNil = false by
    have := hs v.fields he h
    simp_all [get]
  intro es
  induction es with
  | nil => simp
  | cons x rest ih =>
    intro hm hp
    by_cases hx : x.1 = .str name
    · simpa [Fields.get,Fields.index,hx] using hp x List.mem_cons_self
    · have hne : e ≠ x := fun h => hx (h ▸ hk)
      have hr := ih ((List.mem_cons.mp hm).resolve_left hne)
        (fun y hy => hp y (List.mem_cons_of_mem _ hy))
      simpa [Fields.get,Fields.index,hx] using hr

theorem equalEntries_eq (xs ys : Fields) :
    equalEntries xs ys = xs.all fun e => equal e.2 (Fields.index ys e.1) := by
  induction xs with
  | nil => rfl
  | cons e rest ih => rw [equalEntries,ih,List.all_cons]

theorem key_of_mem_arrayFrom {vs : List LuaValue} {i : Int} {e : LuaKey × LuaValue}
    (h : e ∈ arrayFrom i vs) : (∃ j, i ≤ j ∧ e.1 = .int j) ∧ e.2 ∈ vs := by
  induction vs generalizing i with
  | nil => cases h
  | cons v rest ih =>
    rcases List.mem_cons.mp h with rfl | h
    · exact ⟨⟨i,Int.le_refl _,rfl⟩,List.mem_cons_self⟩
    · obtain ⟨⟨j,hj,he⟩,hv⟩ := ih h
      exact ⟨⟨j,by omega,he⟩,List.mem_cons_of_mem _ hv⟩

theorem index_of_mem_arrayFrom {vs : List LuaValue} {i : Int} {e : LuaKey × LuaValue}
    (h : e ∈ arrayFrom i vs) : Fields.index (arrayFrom i vs) e.1 = e.2 := by
  induction vs generalizing i with
  | nil => cases h
  | cons v rest ih =>
    rcases List.mem_cons.mp h with rfl | h
    · simp [arrayFrom,Fields.index]
    · obtain ⟨⟨j,hj,he⟩,_⟩ := key_of_mem_arrayFrom h
      have hne : LuaKey.int i ≠ e.1 := by rw [he]; simp; omega
      rw [arrayFrom,Fields.index,if_neg hne]
      exact ih h

/-- An array of values that equal themselves equals itself. -/
theorem equal_array_self {vs : List LuaValue} (h : ∀ v ∈ vs, equal v v ∧ v.isNil = false) :
    equal (array vs) (array vs) := by
  have hall : ∀ e ∈ arrayFrom 1 vs, equal e.2 (Fields.index (arrayFrom 1 vs) e.1) ∧
      (Fields.index (arrayFrom 1 vs) e.1).isNil = false := by
    intro e he
    rw [index_of_mem_arrayFrom he]
    exact h e.2 (key_of_mem_arrayFrom he).2
  rw [array,equal,equalEntries_eq,Bool.and_eq_true,List.all_eq_true,List.all_eq_true]
  exact ⟨fun e he => (hall e he).1,fun e he => by simp [(hall e he).2]⟩

end LuaValue
end Nefor.Lua
