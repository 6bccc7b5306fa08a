import Mathlib.Data.List.Sort
import Mathlib.Data.String.Basic

/-! Maps with keys in order, as lists of their entries. -/
namespace Nefor.BTreeMap
variable {α : Type}

/-- Keep the entries sorted; a later value replaces an earlier one. -/
def insert (entries : List (String × α)) (key : String) (value : α) : List (String × α) :=
  match entries with
  | [] => [(key,value)]
  | (k,v) :: rest =>
    if key < k then (key,value) :: (k,v) :: rest
    else if key = k then (key,value) :: rest
    else (k,v) :: insert rest key value

/-- Strictly increasing keys. -/
def Sorted (entries : List (String × α)) : Prop := entries.Pairwise fun a b => a.1 < b.1

instance (entries : List (String × α)) : Decidable (Sorted entries) := by unfold Sorted; infer_instance

theorem lookup_cons (entry : String × α) (rest : List (String × α)) (key : String) :
    (entry :: rest).lookup key = if key = entry.1 then some entry.2 else rest.lookup key := by
  obtain ⟨k,v⟩ := entry
  by_cases h : key = k
  · simp [h]
  · simp [List.lookup_cons,beq_eq_false_iff_ne.mpr h,h]

theorem lookup_insert (entries : List (String × α)) (key other : String) (value : α) :
    (insert entries key value).lookup other = if other = key then some value else entries.lookup other := by
  induction entries with
  | nil => rw [insert,lookup_cons]
  | cons entry rest ih =>
    obtain ⟨k,v⟩ := entry
    unfold insert
    by_cases hlt : key < k
    · rw [if_pos hlt,lookup_cons]
    · rw [if_neg hlt]
      by_cases heq : key = k
      · subst heq
        rw [if_pos rfl,lookup_cons,lookup_cons]
        by_cases h : other = key <;> simp [h]
      · rw [if_neg heq,lookup_cons,lookup_cons,ih]
        by_cases h : other = key
        · subst h
          simp [heq]
        · simp [h]

theorem mem_insert {entries : List (String × α)} {key : String} {value : α} {entry : String × α}
    (h : entry ∈ insert entries key value) : entry = (key,value) ∨ entry ∈ entries := by
  induction entries with
  | nil => exact .inl (List.mem_singleton.mp h)
  | cons first rest ih =>
    obtain ⟨k,v⟩ := first
    unfold insert at h
    by_cases hlt : key < k
    · rw [if_pos hlt] at h
      exact List.mem_cons.mp h
    · rw [if_neg hlt] at h
      by_cases heq : key = k
      · rw [if_pos heq] at h
        exact (List.mem_cons.mp h).imp_right (List.mem_cons_of_mem _)
      · rw [if_neg heq] at h
        obtain rfl | hrest := List.mem_cons.mp h
        · exact .inr List.mem_cons_self
        · exact (ih hrest).imp_right (List.mem_cons_of_mem _)

/-- A key after all others goes to the end. -/
theorem insert_of_lt {entries : List (String × α)} {key : String} (h : ∀ entry ∈ entries, entry.1 < key)
    (value : α) : insert entries key value = entries ++ [(key,value)] := by
  induction entries with
  | nil => rfl
  | cons entry rest ih =>
    obtain ⟨hentry,hrest⟩ := List.forall_mem_cons.mp h
    unfold insert
    rw [if_neg hentry.asymm,if_neg hentry.ne',ih hrest]
    rfl

end Nefor.BTreeMap
