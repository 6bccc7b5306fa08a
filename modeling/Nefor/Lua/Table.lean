import Mathlib.Data.List.Nodup
import Mathlib.Data.List.Perm.Subperm
import Nefor.Lua.Value

/-! Reading back what was written to a table: fields after an assignment, arrays by `ipairs`. -/
namespace Nefor.Lua
namespace Fields

theorem get_unset_of_ne (t : Fields) {name other : String} (h : other ≠ name) :
    get (unset t name) other = get t other := by
  have hk : (LuaKey.str name) ≠ .str other := by simpa using h.symm
  simp only [get,unset,remove]
  induction t with
  | nil => rfl
  | cons e rest ih =>
    by_cases he : e.1 = .str name
    · rw [List.filter_cons_of_neg (by simpa using he),ih,index,if_neg (by rw [he]; exact hk)]
    · rw [List.filter_cons_of_pos (by simpa using he),index,index,ih]

end Fields

namespace LuaValue

theorem get_record_nil (name : String) : (record []).get name = .nil := rfl

/-- The fields of a table literal; one whose value is `nil` is absent. -/
theorem get_record_cons (k name : String) (v : LuaValue) (es : List (String × LuaValue)) :
    (record ((k,v) :: es)).get name =
      if k = name ∧ v.isNil = false then v else (record es).get name := by
  simp only [record,get,fields,Fields.get]
  by_cases hv : v.isNil
  · rw [List.filter_cons_of_neg (by simp [hv]),if_neg (by simp [hv])]
  · rw [List.filter_cons_of_pos (by simp [hv]),List.map_cons,Fields.index]
    by_cases hk : k = name
    · simp [hk,hv]
    · have hne : LuaKey.str k ≠ .str name := by simpa using hk
      simp [hk]

theorem str_rawEq {a b : String} : (str a).rawEq (str b) = decide (a = b) := by
  by_cases h : a = b <;> simp [rawEq,h]

theorem ite_isNil {v : LuaValue} : (if v.isNil = false then v else .nil) = v := by
  cases v <;> rfl

end LuaValue

theorem index_arrayFrom (vs : List LuaValue) (i : Int) (k : Nat) :
    Fields.index (LuaValue.arrayFrom i vs) (.int (i+k)) = (vs[k]?).getD .nil := by
  induction vs generalizing i k with
  | nil => rfl
  | cons v rest ih =>
    cases k with
    | zero => simp [LuaValue.arrayFrom,Fields.index]
    | succ k =>
      have hne : LuaKey.int i ≠ .int (i+(k+1 : Nat)) := by simp; omega
      rw [LuaValue.arrayFrom,Fields.index,if_neg hne]
      have hk := ih (i+1) k
      rw [show i+((k+1 : Nat) : Int) = i+1+(k : Int) by omega]
      simpa using hk

theorem sequenceFrom_arrayFrom {vs : List LuaValue} (h : ∀ v ∈ vs, v.isNil = false) (i : Int)
    (n k : Nat) (hn : n+k = vs.length) :
    LuaValue.sequenceFrom (LuaValue.arrayFrom i vs) n (i+k) = vs.drop k := by
  induction n generalizing k with
  | zero =>
    rw [List.drop_eq_nil_of_le (by omega)]
    rfl
  | succ n ih =>
    have hk : k < vs.length := by omega
    have hv := h _ (List.getElem_mem hk)
    rw [List.drop_eq_getElem_cons hk,LuaValue.sequenceFrom,index_arrayFrom,
      List.getElem?_eq_getElem hk,Option.getD_some]
    have hr := ih (k+1) (by omega)
    rw [show i+((k+1 : Nat) : Int) = i+k+1 by omega] at hr
    cases hvk : vs[k] with
    | nil => rw [hvk] at hv; cases hv
    | _ => simp only [hr]

/-- Reading an array back gives its elements. -/
theorem sequence_array {vs : List LuaValue} (h : ∀ v ∈ vs, v.isNil = false) :
    (LuaValue.array vs).sequence = vs := by
  have hlen : ∀ (i : Int) (ws : List LuaValue), (LuaValue.arrayFrom i ws).length = ws.length := by
    intro i ws
    induction ws generalizing i with
    | nil => rfl
    | cons w rest ih => simp [LuaValue.arrayFrom,ih]
  have hs := sequenceFrom_arrayFrom h 1 vs.length 0 rfl
  simpa [LuaValue.sequence,LuaValue.array,LuaValue.fields,hlen] using hs

section Comparison

theorem equal_nil_iff {v : LuaValue} : (v.equal .nil ↔ v = .nil) ∧ (LuaValue.equal .nil v ↔ v = .nil) := by
  cases v <;> simp [LuaValue.equal,LuaValue.rawEq]

theorem index_mem {es : Fields} {key : LuaKey} (h : es.index key ≠ .nil) :
    (key,es.index key) ∈ es := by
  induction es with
  | nil => exact absurd rfl h
  | cons e rest ih =>
    rw [Fields.index] at h ⊢
    by_cases hk : e.1 = key
    · rw [if_pos hk,← hk]
      exact List.mem_cons_self
    · rw [if_neg hk] at h ⊢
      exact List.mem_cons_of_mem _ (ih h)

/-- Equal tables hold equal values under every key. -/
theorem equal_index {marked marked' : Bool} {xs ys : Fields}
    (h : (LuaValue.table marked xs).equal (.table marked' ys)) (key : LuaKey) :
    (xs.index key).equal (ys.index key) := by
  rw [LuaValue.equal,LuaValue.equalEntries_eq,Bool.and_eq_true,List.all_eq_true,List.all_eq_true] at h
  by_cases hx : xs.index key = .nil
  · rw [hx,equal_nil_iff.2]
    by_contra hy
    have hk := h.2 _ (index_mem hy)
    simp [hx,LuaValue.isNil] at hk
  · exact h.1 _ (index_mem hx)

theorem sequenceFrom_take (es : Fields) (n k : Nat) (i : Int) :
    LuaValue.sequenceFrom es n i = (LuaValue.sequenceFrom es (n+k) i).take n := by
  induction n generalizing i with
  | zero => simp [LuaValue.sequenceFrom]
  | succ n ih =>
    rw [show n+1+k = n+k+1 by omega,LuaValue.sequenceFrom,LuaValue.sequenceFrom]
    split
    · rfl
    · rw [ih,List.take_succ_cons]

theorem sequenceFrom_keys (es : Fields) (n : Nat) (i : Int) :
    ∀ k < (LuaValue.sequenceFrom es n i).length, .int (i+k) ∈ es.map (·.1) := by
  induction n generalizing i with
  | zero => exact fun k hk => absurd hk (Nat.not_lt_zero k)
  | succ n ih =>
    rw [LuaValue.sequenceFrom]
    split
    · exact fun k hk => absurd hk (Nat.not_lt_zero k)
    · rename_i hv
      intro k hk
      cases k with
      | zero =>
        rw [show i+((0 : Nat) : Int) = i by simp]
        exact List.mem_map.mpr ⟨_,index_mem hv,rfl⟩
      | succ k =>
        have hm := ih (i+1) k (by simpa using hk)
        rwa [show i+1+(k : Int) = i+((k+1 : Nat) : Int) by omega] at hm

/-- Every element of the sequence has an entry of its own. -/
theorem sequenceFrom_length (es : Fields) (n : Nat) (i : Int) :
    (LuaValue.sequenceFrom es n i).length ≤ es.length := by
  let keys := (List.range (LuaValue.sequenceFrom es n i).length).map fun k : Nat => LuaKey.int (i+k)
  have hnodup : keys.Nodup := by
    refine List.Nodup.map (fun a b h => ?_) List.nodup_range
    have hk := LuaKey.int.inj h
    omega
  have hsub : keys ⊆ es.map (·.1) := by
    intro key hk
    obtain ⟨k,hr,rfl⟩ := List.mem_map.mp hk
    exact sequenceFrom_keys es n i k (List.mem_range.mp hr)
  have hl := (hnodup.subperm hsub).length_le
  simpa [keys] using hl

theorem sequence_eq (v : LuaValue) (n : Nat) :
    v.sequence = LuaValue.sequenceFrom v.fields (v.fields.length+n) 1 := by
  rw [LuaValue.sequence,sequenceFrom_take _ _ n]
  exact List.take_of_length_le (sequenceFrom_length _ _ _)

theorem sequenceFrom_equal {xs ys : Fields} (h : ∀ key, (xs.index key).equal (ys.index key))
    (n : Nat) (i : Int) : List.Forall₂ (fun a b => a.equal b)
      (LuaValue.sequenceFrom xs n i) (LuaValue.sequenceFrom ys n i) := by
  induction n generalizing i with
  | zero => exact .nil
  | succ n ih =>
    have hi := h (.int i)
    rw [LuaValue.sequenceFrom,LuaValue.sequenceFrom]
    split
    · rename_i hx
      rw [hx,equal_nil_iff.2] at hi
      rw [hi]
      exact .nil
    · rename_i hx
      split
      · rename_i hy
        rw [hy,equal_nil_iff.1] at hi
        exact absurd hi hx
      · exact .cons hi (ih (i+1))

/-- Equal tables hold equal sequences. -/
theorem equal_sequence {marked marked' : Bool} {xs ys : Fields}
    (h : (LuaValue.table marked xs).equal (.table marked' ys)) :
    List.Forall₂ (fun a b => a.equal b) (LuaValue.table marked xs).sequence
      (LuaValue.table marked' ys).sequence := by
  have hs := sequenceFrom_equal (equal_index h) (xs.length+ys.length) 1
  rw [sequence_eq _ ys.length,sequence_eq (.table marked' ys) xs.length]
  rwa [show (LuaValue.table marked' ys).fields.length+xs.length = xs.length+ys.length from
    Nat.add_comm _ _]

end Comparison

end Nefor.Lua
