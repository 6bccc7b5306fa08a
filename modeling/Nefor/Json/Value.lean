import Mathlib.Data.String.Basic
import Mathlib.Data.List.Sort
import Nefor.Json.Number
import Nefor.Lists

/-! JSON documents. Objects are kept sorted by key: they are compared and looked up as maps,
so two objects with the same entries are the same object, whatever the order they came in. -/
namespace Nefor

inductive Json
  | null
  | bool (b : Bool)
  | number (n : JsonNumber)
  | string (s : String)
  | array (items : List Json)
  | object (fields : List (String × Json))
  deriving Repr, Inhabited

namespace Json

/-- The entries of an object. -/
abbrev Object := List (String × Json)

namespace Object

def get (fields : Object) (key : String) : Option Json := fields.lookup key

/-- Keep the entries sorted; a later value replaces an earlier one. -/
def insert (fields : Object) (key : String) (value : Json) : Object :=
  match fields with
  | [] => [(key,value)]
  | (k,v) :: rest =>
    if key < k then (key,value) :: (k,v) :: rest
    else if key = k then (key,value) :: rest
    else (k,v) :: insert rest key value

def erase (fields : Object) (key : String) : Object := fields.filter fun e => e.1 ≠ key

/-- The object of a list of entries, as collecting them into a map gives it. -/
def ofList (entries : List (String × Json)) : Object :=
  entries.foldl (fun fields e => insert fields e.1 e.2) []

/-- Strictly increasing keys. -/
def Sorted (fields : Object) : Prop := fields.Pairwise fun a b => a.1 < b.1

instance (fields : Object) : Decidable (Sorted fields) := by unfold Sorted; infer_instance

@[simp] theorem get_nil (key : String) : get [] key = none := rfl

theorem get_cons (e : String × Json) (rest : Object) (key : String) :
    get (e :: rest) key = if key = e.1 then some e.2 else get rest key := by
  obtain ⟨k,v⟩ := e
  by_cases h : key = k
  · simp [get,h]
  · simp [get,List.lookup_cons,beq_eq_false_iff_ne.mpr h,h]

theorem get_eq_none {fields : Object} {key : String} :
    get fields key = none ↔ ∀ e ∈ fields, e.1 ≠ key := by
  induction fields with
  | nil => simp
  | cons e rest ih =>
    rw [get_cons]
    by_cases h : key = e.1
    · simp [h]
    · simp [h,ih,Ne.symm h]

theorem mem_of_get {fields : Object} {key : String} {v : Json} (h : get fields key = some v) :
    (key,v) ∈ fields := by
  induction fields with
  | nil => cases h
  | cons e rest ih =>
    rw [get_cons] at h
    split at h
    · rename_i hk; cases h; simp [hk]
    · exact List.mem_cons_of_mem _ (ih h)

theorem get_insert (fields : Object) (key other : String) (v : Json) :
    get (insert fields key v) other = if other = key then some v else get fields other := by
  induction fields with
  | nil => simp [insert,get_cons]
  | cons e rest ih =>
    obtain ⟨k,w⟩ := e
    unfold insert
    split
    · simp [get_cons]
    · split
      · rename_i hk
        subst hk
        by_cases ho : other = key <;> simp [get_cons,ho]
      · rename_i hk
        by_cases ho : other = key
        · subst ho; simp [get_cons,hk,ih]
        · simp [get_cons,ho,ih]

theorem get_erase (fields : Object) (key other : String) :
    get (erase fields key) other = if other = key then none else get fields other := by
  induction fields with
  | nil => simp [erase]
  | cons e rest ih =>
    by_cases hk : e.1 = key
    · have he : erase (e :: rest) key = erase rest key := by simp [erase,hk]
      rw [he,ih,get_cons]
      by_cases ho : other = key <;> simp [ho,hk]
    · have he : erase (e :: rest) key = e :: erase rest key := by simp [erase,hk]
      rw [he,get_cons,get_cons,ih]
      by_cases ho : other = e.1
      · subst ho; simp [hk]
      · simp [ho]

theorem mem_insert {fields : Object} {key : String} {v : Json} {e : String × Json}
    (h : e ∈ insert fields key v) : e = (key,v) ∨ e ∈ fields := by
  induction fields with
  | nil => exact .inl (List.mem_singleton.mp h)
  | cons a rest ih =>
    unfold insert at h
    split at h
    · exact List.mem_cons.mp h
    · split at h
      · rcases List.mem_cons.mp h with h | h
        · exact .inl h
        · exact .inr (List.mem_cons_of_mem _ h)
      · rcases List.mem_cons.mp h with h | h
        · exact .inr (h ▸ List.mem_cons_self)
        · exact (ih h).imp id (List.mem_cons_of_mem _)

theorem Sorted.insert {fields : Object} (h : Sorted fields) (key : String) (v : Json) :
    Sorted (insert fields key v) := by
  induction fields with
  | nil => simp [Object.insert,Sorted]
  | cons e rest ih =>
    obtain ⟨hlt,hrest⟩ := List.pairwise_cons.mp h
    unfold Object.insert
    split
    · rename_i hk
      refine List.pairwise_cons.mpr ⟨?_,h⟩
      intro a ha
      rcases List.mem_cons.mp ha with rfl | ha
      · exact hk
      · exact hk.trans (hlt a ha)
    · split
      · rename_i hk
        exact List.pairwise_cons.mpr ⟨fun a ha => hk ▸ hlt a ha,hrest⟩
      · rename_i hlt' hne
        refine List.pairwise_cons.mpr ⟨?_,ih hrest⟩
        intro a ha
        rcases mem_insert ha with rfl | ha
        · exact lt_of_le_of_ne (not_lt.mp hlt') (Ne.symm hne)
        · exact hlt a ha

theorem Sorted.erase {fields : Object} (h : Sorted fields) (key : String) :
    Sorted (erase fields key) := h.filter _

theorem Sorted.get {fields : Object} (h : Sorted fields) {e : String × Json} (he : e ∈ fields) :
    get fields e.1 = some e.2 := by
  induction fields with
  | nil => cases he
  | cons a rest ih =>
    obtain ⟨hlt,hrest⟩ := List.pairwise_cons.mp h
    rw [get_cons]
    rcases List.mem_cons.mp he with rfl | he
    · simp
    · rw [if_neg (hlt e he).ne',ih hrest he]

theorem Sorted.get_tail {e : String × Json} {rest : Object} (h : Sorted (e :: rest)) :
    Object.get rest e.1 = none :=
  get_eq_none.mpr fun x hx => ((List.pairwise_cons.mp h).1 x hx).ne'

theorem Sorted.not_lt_head {e : String × Json} {rest : Object} (h : Sorted (e :: rest))
    {key : String} (hk : (Object.get (e :: rest) key).isSome) : e.1 ≤ key := by
  obtain ⟨v,hv⟩ := Option.isSome_iff_exists.mp hk
  rcases List.mem_cons.mp (mem_of_get hv) with he | hm
  · rw [← he]
  · exact ((List.pairwise_cons.mp h).1 _ hm).le

/-- Two sorted objects with the same entries are equal. -/
theorem Sorted.ext {a b : Object} (ha : Sorted a) (hb : Sorted b)
    (h : ∀ key, Object.get a key = Object.get b key) : a = b := by
  induction a generalizing b with
  | nil =>
    cases b with
    | nil => rfl
    | cons e rest => have := h e.1; simp [get_cons] at this
  | cons e rest ih =>
    cases b with
    | nil => have := h e.1; simp [get_cons] at this
    | cons e' rest' =>
      have hk : e.1 = e'.1 := le_antisymm
        (ha.not_lt_head (by rw [h]; simp [get_cons]))
        (hb.not_lt_head (by rw [← h]; simp [get_cons]))
      have hv : e.2 = e'.2 := by simpa [get_cons,hk] using h e.1
      have hrest : rest = rest' := by
        apply ih (List.pairwise_cons.mp ha).2 (List.pairwise_cons.mp hb).2
        intro key
        by_cases hkey : key = e.1
        · rw [hkey,ha.get_tail,hk,hb.get_tail]
        · have := h key
          rwa [get_cons,get_cons,if_neg hkey,if_neg (hk ▸ hkey)] at this
      rw [hrest,Prod.ext hk hv]

/-- An object of two known keys. -/
theorem Sorted.eq_pair {fields : Object} (h : Sorted fields) {a b : String} (hab : a < b)
    (hk : ∀ key, (Object.get fields key).isSome ↔ key = a ∨ key = b) :
    ∃ x y, fields = [(a,x),(b,y)] := by
  obtain ⟨x,hx⟩ := Option.isSome_iff_exists.mp ((hk a).mpr (.inl rfl))
  obtain ⟨y,hy⟩ := Option.isSome_iff_exists.mp ((hk b).mpr (.inr rfl))
  refine ⟨x,y,h.ext (List.pairwise_pair.mpr hab) ?_⟩
  intro key
  rw [get_cons,get_cons,get_nil]
  by_cases ha : key = a
  · rw [if_pos ha,ha,hx]
  · by_cases hb : key = b
    · rw [if_neg ha,if_pos hb,hb,hy]
    · rw [if_neg ha,if_neg hb]
      exact Option.not_isSome_iff_eq_none.mp fun hs => ((hk key).mp hs).elim ha hb

theorem ofList_sorted (entries : List (String × Json)) : Sorted (ofList entries) := by
  have hs : ∀ fields : Object, Sorted fields →
      Sorted (entries.foldl (fun fields e => insert fields e.1 e.2) fields) := by
    induction entries with
    | nil => intro fields h; exact h
    | cons e rest ih => intro fields h; exact ih _ (h.insert e.1 e.2)
  exact hs [] List.Pairwise.nil

theorem get_ofList {entries : List (String × Json)} (h : (entries.map (·.1)).Nodup)
    (key : String) : get (ofList entries) key = entries.lookup key := by
  have hs : ∀ fields : Object, get (entries.foldl (fun fields e => insert fields e.1 e.2) fields)
      key = (entries.lookup key).or (get fields key) := by
    induction entries with
    | nil => intro fields; simp
    | cons e rest ih =>
      intro fields
      obtain ⟨k,v⟩ := e
      obtain ⟨hk,hrest⟩ := List.nodup_cons.mp h
      rw [List.foldl_cons,ih hrest,get_insert]
      by_cases hkey : key = k
      · have hn : rest.lookup key = none := by
          rw [List.lookup_eq_none_iff]
          intro e he
          have hne : e.1 ≠ k := fun hek => hk (List.mem_map.mpr ⟨e,he,hek⟩)
          simpa [hkey] using hne.symm
        rw [hn,if_pos hkey,hkey,List.lookup_cons_self]
        rfl
      · simp [hkey,List.lookup_cons,beq_eq_false_iff_ne.mpr hkey]
  simpa [ofList] using hs []

theorem get_isSome {fields : Object} {key : String} :
    (get fields key).isSome ↔ ∃ v, (key,v) ∈ fields := by
  constructor
  · intro h
    obtain ⟨v,hv⟩ := Option.isSome_iff_exists.mp h
    exact ⟨v,mem_of_get hv⟩
  · rintro ⟨v,hv⟩
    rw [Option.isSome_iff_ne_none]
    exact fun hn => get_eq_none.mp hn (key,v) hv rfl

theorem exists_mem_iff {fields : Object} {key : String} :
    (∃ v, (key,v) ∈ fields) ↔ key ∈ fields.map (·.1) := by simp

/-- A sorted object is written by its own entries. -/
theorem Sorted.ofList {fields : Object} (h : Sorted fields) : ofList fields = fields := by
  have hn : (fields.map (·.1)).Nodup :=
    (List.pairwise_map.mpr h).imp fun hlt => hlt.ne
  exact (ofList_sorted fields).ext h fun key => get_ofList hn key

theorem sorted_pair {a b : String} (h : a < b) (x y : Json) : Sorted [(a,x),(b,y)] :=
  List.pairwise_pair.mpr h

theorem Sorted.eq_pair_of_length {fields : Object} (h : Sorted fields) (hl : fields.length = 2)
    {a b : String} (hab : a < b) {x y : Json} (hx : Object.get fields a = some x)
    (hy : Object.get fields b = some y) : fields = [(a,x),(b,y)] := by
  obtain ⟨e,f,rfl⟩ := List.length_eq_two.mp hl
  have hef : e.1 < f.1 := (List.pairwise_cons.mp h).1 f List.mem_cons_self
  have hxm := mem_of_get hx
  have hym := mem_of_get hy
  simp only [List.mem_cons,List.not_mem_nil,or_false] at hxm hym
  rcases hxm with rfl | rfl
  · rcases hym with hy | rfl
    · exact absurd (congrArg Prod.fst hy) hab.ne'
    · rfl
  · rcases hym with rfl | hy
    · exact absurd hab hef.asymm
    · exact absurd (congrArg Prod.fst hy) hab.ne'

theorem mem_ofList {entries : List (String × Json)} (h : (entries.map (·.1)).Nodup)
    {key : String} {v : Json} : (key,v) ∈ ofList entries ↔ (key,v) ∈ entries := by
  rw [← lookup_eq_some h,← get_ofList h]
  exact ⟨fun hm => (ofList_sorted entries).get hm,mem_of_get⟩

end Object

/-- Induction over documents, with every part of an array or an object at hand. -/
theorem induct {P : Json → Prop} (null : P .null) (bool : ∀ b, P (.bool b))
    (number : ∀ n, P (.number n)) (string : ∀ s, P (.string s))
    (array : ∀ items, (∀ x ∈ items, P x) → P (.array items))
    (object : ∀ fields : Object, (∀ e ∈ fields, P e.2) → P (.object fields)) (j : Json) : P j :=
  Json.rec (motive_1 := P) (motive_2 := fun items => ∀ x ∈ items, P x)
    (motive_3 := fun fields => ∀ e ∈ fields, P e.2) (motive_4 := fun e => P e.2)
    null bool number string array object (by simp) (by simp; intros; simp_all) (by simp)
    (by intro e rest he hr x hx; rcases List.mem_cons.mp hx with rfl | hx; exacts [he,hr x hx])
    (fun _ _ h => h) j

mutual
/-- Every object inside the document is sorted. -/
def wellFormed : Json → Bool
  | .array items => wellFormedItems items
  | .object fields => decide (Object.Sorted fields) && wellFormedFields fields
  | _ => true
def wellFormedItems : List Json → Bool
  | [] => true
  | x :: rest => wellFormed x && wellFormedItems rest
def wellFormedFields : List (String × Json) → Bool
  | [] => true
  | (_,x) :: rest => wellFormed x && wellFormedFields rest
end

@[simp] theorem wellFormed_array (items : List Json) :
    wellFormed (.array items) ↔ ∀ x ∈ items, wellFormed x := by
  rw [wellFormed]
  induction items with
  | nil => simp [wellFormedItems]
  | cons x rest ih => simp [wellFormedItems,ih]

@[simp] theorem wellFormed_object (fields : Object) :
    wellFormed (.object fields) ↔ fields.Sorted ∧ ∀ e ∈ fields, wellFormed e.2 := by
  have h : wellFormedFields fields ↔ ∀ e ∈ fields, wellFormed e.2 := by
    induction fields with
    | nil => simp [wellFormedFields]
    | cons e rest ih => simp [wellFormedFields,ih]
  rw [wellFormed,Bool.and_eq_true,h,decide_eq_true_iff]

def asObject : Json → Option Object
  | .object fields => some fields
  | _ => none

def asArray : Json → Option (List Json)
  | .array items => some items
  | _ => none

def asStr : Json → Option String
  | .string s => some s
  | _ => none

def asI64 : Json → Option Int64
  | .number n => n.asI64
  | _ => none

def asF64 : Json → Option F64
  | .number n => some n.asF64
  | _ => none

theorem asObject_eq_some {j : Json} {fields : Object} : j.asObject = some fields ↔ j = .object fields := by
  cases j <;> simp [asObject]

theorem asArray_eq_some {j : Json} {items : List Json} : j.asArray = some items ↔ j = .array items := by
  cases j <;> simp [asArray]

theorem asStr_eq_some {j : Json} {s : String} : j.asStr = some s ↔ j = .string s := by
  cases j <;> simp [asStr]

/-- `value.get(key)`, which is none for everything but objects. -/
def get (value : Json) (key : String) : Option Json := value.asObject.bind (Object.get · key)

/-- A document a parser can return. -/
abbrev Document := {value : Json // value.wellFormed}

end Json
end Nefor
