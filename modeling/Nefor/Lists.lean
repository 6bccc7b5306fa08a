import Mathlib.Data.List.Forall2
import Mathlib.Data.List.Induction
import Mathlib.Data.List.Sort
import Mathlib.Data.String.Basic

/-! Lists of related elements, and lists without repetitions up to a relation. -/
namespace Nefor
variable {α β γ : Type}

section Related
variable {R : α → β → Prop}

theorem exists_forall₂ {xs : List α} (h : ∀ x ∈ xs, ∃ y, R x y) : ∃ ys, List.Forall₂ R xs ys := by
  induction xs with
  | nil => exact ⟨[],.nil⟩
  | cons x rest ih =>
    obtain ⟨y,hy⟩ := h x List.mem_cons_self
    obtain ⟨ys,hys⟩ := ih fun x hx => h x (List.mem_cons_of_mem _ hx)
    exact ⟨y :: ys,.cons hy hys⟩

theorem forall₂_right {P : β → Prop} {xs : List α} {ys : List β} (h : List.Forall₂ R xs ys)
    (hp : ∀ x y, R x y → P y) : ∀ y ∈ ys, P y := by
  induction h with
  | nil => exact fun _ hy => nomatch hy
  | cons hxy _ ih => exact List.forall_mem_cons.mpr ⟨hp _ _ hxy,ih⟩

theorem forall₂_mem {xs : List α} {ys : List β} (h : List.Forall₂ R xs ys) {x : α} (hx : x ∈ xs) :
    ∃ y ∈ ys, R x y := by
  induction h with
  | nil => cases hx
  | @cons a b _ _ hab _ ih =>
    rcases List.mem_cons.mp hx with rfl | hx
    · exact ⟨b,List.mem_cons_self,hab⟩
    · obtain ⟨y,hy,hxy⟩ := ih hx
      exact ⟨y,List.mem_cons_of_mem _ hy,hxy⟩

/-- Elements of the left list have a property of their own besides the relation. -/
theorem forall₂_and_left {P : α → Prop} {xs : List α} {ys : List β} (h : List.Forall₂ R xs ys)
    (hp : ∀ x ∈ xs, P x) : List.Forall₂ (fun x y => P x ∧ R x y) xs ys := by
  induction h with
  | nil => exact .nil
  | cons hxy _ ih =>
    obtain ⟨hx,hrest⟩ := List.forall_mem_cons.mp hp
    exact .cons ⟨hx,hxy⟩ (ih hrest)

/-- A list without repetitions is related to lists without repetitions. -/
theorem forall₂_pairwise {P : α → α → Prop} {Q : β → β → Prop} {xs : List α} {ys : List β}
    (h : List.Forall₂ R xs ys) (hp : xs.Pairwise P)
    (hq : ∀ x y x' y', R x y → R x' y' → P x x' → Q y y') : ys.Pairwise Q := by
  induction h with
  | nil => exact .nil
  | cons hxy hrest ih =>
    obtain ⟨hx,hxs⟩ := List.pairwise_cons.mp hp
    refine List.pairwise_cons.mpr ⟨fun y' hy' => ?_,ih hxs⟩
    obtain ⟨x',hx',hxy'⟩ := forall₂_mem hrest.flip hy'
    exact hq _ _ _ _ hxy hxy' (hx x' hx')

end Related

theorem forall₂_names {xs : List (String × α)} {ys : List (String × β)}
    (h : List.Forall₂ (fun x y => y.1 = x.1) xs ys) : ys.map (·.1) = xs.map (·.1) := by
  induction h with
  | nil => rfl
  | cons hxy _ ih => rw [List.map_cons,List.map_cons,hxy,ih]

/-- Of two members with one name, where names are unique, both are the same. -/
theorem eq_of_name {ms : List (String × α)} (hn : (ms.map (·.1)).Nodup)
    {m n : String × α} (hm : m ∈ ms) (hm' : n ∈ ms) (h : m.1 = n.1) : m = n :=
  List.inj_on_of_nodup_map hn hm hm' h

theorem mem_of_lookup {ms : List (String × α)} {name : String} {a : α}
    (h : ms.lookup name = some a) : (name,a) ∈ ms := by
  obtain ⟨before,after,rfl,_⟩ := List.lookup_eq_some_iff.mp h
  simp

/-- Where names are unique, looking one up finds every member. -/
theorem lookup_eq_some {ms : List (String × α)} (h : (ms.map (·.1)).Nodup) {name : String} {a : α} :
    ms.lookup name = some a ↔ (name,a) ∈ ms := by
  refine ⟨mem_of_lookup,fun hm => ?_⟩
  induction ms with
  | nil => cases hm
  | cons m rest ih =>
    obtain ⟨hk,hrest⟩ := List.nodup_cons.mp h
    rcases List.mem_cons.mp hm with rfl | hm
    · exact List.lookup_cons_self
    · have hne : name ≠ m.1 := fun he => hk (List.mem_map.mpr ⟨(name,a),hm,he⟩)
      rw [List.lookup_cons,beq_eq_false_iff_ne.mpr hne]
      exact ih hrest hm

theorem mapIdx_flatten_eq_nil {items : List α} {f : Nat → α → List β} :
    (items.mapIdx f).flatten = [] ↔ ∀ i (h : i < items.length), f i items[i] = [] := by
  rw [List.flatten_eq_nil_iff]
  constructor
  · intro h i hi
    exact h _ (List.mem_mapIdx.mpr ⟨i,hi,rfl⟩)
  · intro h l hl
    obtain ⟨i,hi,rfl⟩ := List.mem_mapIdx.mp hl
    exact h i hi

theorem map_flatten_eq_nil {items : List α} {f : α → List β} :
    (items.map f).flatten = [] ↔ ∀ x ∈ items, f x = [] := by
  rw [List.flatten_eq_nil_iff,List.forall_mem_map]

/-- No element repeats an earlier one. -/
theorem pairwise_iff_take {same : α → α → Bool} {items : List α} :
    (items.Pairwise fun a b => same a b = false) ↔
      ∀ i (h : i < items.length), ((items.take i).any (same · items[i])) = false := by
  rw [List.pairwise_iff_getElem]
  constructor
  · intro h i hi
    rw [List.any_eq_false]
    intro a ha
    obtain ⟨j,hj,rfl⟩ := List.mem_take_iff_getElem.mp ha
    rw [h j i (by omega) hi (by omega)]
    simp
  · intro h i j hi hj hij
    have hf := List.any_eq_false.mp (h j hj) items[i]
      (List.mem_take_iff_getElem.mpr ⟨i,by omega,rfl⟩)
    simpa using hf

/-- Sorting by a key keeps the first element of each key first. -/
theorem find?_mergeSort (key : α → String) (xs : List α) (name : String) :
    (xs.mergeSort fun a b => decide (key a ≤ key b)).find? (fun a => key a == name) =
      xs.find? fun a => key a == name := by
  have hfilter : (xs.filter fun a => key a == name).Sublist
      ((xs.mergeSort fun a b => decide (key a ≤ key b)).filter fun a => key a == name) := by
    have hs : (xs.filter fun a => key a == name).Sublist
        (xs.mergeSort fun a b => decide (key a ≤ key b)) := by
      refine List.sublist_mergeSort (fun a b c => ?_) (fun a b => ?_) ?_ List.filter_sublist
      · simpa using fun h k => le_trans h k
      · simpa using le_total (key a) (key b)
      · refine List.pairwise_iff_forall_sublist.mpr fun {a b} hab => ?_
        have ha := List.of_mem_filter (hab.subset (by simp : a ∈ [a,b]))
        have hb := List.of_mem_filter (hab.subset (by simp : b ∈ [a,b]))
        simp only [beq_iff_eq] at ha hb
        simp [ha,hb]
    simpa using hs.filter fun a => key a == name
  have hlen := ((List.mergeSort_perm xs fun a b => decide (key a ≤ key b)).filter
    fun a => key a == name).length_eq
  rw [← List.head?_filter,← List.head?_filter,hfilter.eq_of_length hlen.symm]

section Keys
variable {κ : Type} [LinearOrder κ] {key : α → κ} {xs ys : List α}

/-- Lists in strict order of a key are told apart by their elements. -/
theorem eq_of_keys (key : α → κ) (hx : xs.Pairwise fun a b => key a < key b)
    (hy : ys.Pairwise fun a b => key a < key b) (hm : ∀ a, a ∈ xs ↔ a ∈ ys) : xs = ys := by
  have hnodup : ∀ {l : List α}, l.Pairwise (fun a b => key a < key b) → l.Nodup :=
    fun h => h.imp fun hab => by
      rintro rfl
      exact lt_irrefl _ hab
  refine List.Perm.eq_of_pairwise (fun a b _ _ hab hba => ?_) hx hy
    ((List.perm_ext_iff_of_nodup (hnodup hx) (hnodup hy)).mpr hm)
  exact absurd (lt_trans hab hba) (lt_irrefl _)

/-- Sorting by a comparison that compares distinct keys puts them in strict order. -/
theorem pairwise_mergeSort_keys (key : α → κ) {le : α → α → Bool} (hn : (xs.map key).Nodup)
    (hle : ∀ a ∈ xs, ∀ b ∈ xs, le a b = decide (key a ≤ key b)) :
    (xs.mergeSort le).Pairwise fun a b => key a < key b := by
  have hsort : xs.mergeSort le = xs.mergeSort fun a b => decide (key a ≤ key b) := by
    have hm := List.map_mergeSort (s := fun a b => decide (key a ≤ key b)) (f := id) hle
    simpa using hm
  have hp : (xs.mergeSort fun a b => decide (key a ≤ key b)).Pairwise
      fun a b => decide (key a ≤ key b) = true :=
    List.pairwise_mergeSort (fun a b c => by simpa using le_trans)
      (fun a b => by simpa using le_total (key a) (key b)) xs
  have hnodup : ((xs.mergeSort fun a b => decide (key a ≤ key b)).map key).Nodup :=
    ((List.mergeSort_perm xs _).map key).nodup_iff.mpr hn
  rw [hsort]
  refine (hp.and (List.pairwise_map.mp hnodup)).imp ?_
  rintro a b ⟨hab,hne⟩
  exact lt_of_le_of_ne (by simpa using hab) hne

end Keys

/-- The last element with a property decides what a fold that remembers it returns. -/
theorem foldl_last {f : α → β} {p : α → Prop} [DecidablePred p] (xs : List α) (b : β) :
    xs.foldl (fun b a => if p a then f a else b) b =
      ((xs.filter fun a => decide (p a)).getLast?.map f).getD b := by
  induction xs using List.reverseRecOn with
  | nil => rfl
  | append_singleton xs x ih =>
    rw [List.foldl_append,List.filter_append,ih]
    by_cases hp : p x <;> simp [hp]

end Nefor
