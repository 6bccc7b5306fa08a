import Mathlib.Data.List.Nodup
import Mathlib.Data.List.Count

/-! Lists that grow at the end and are changed in place: the map from keys to positions kept
beside such a list, and the counts of elements in it. -/
namespace Nefor
variable {α β κ : Type}

/-- The map finds exactly the listed keys, each at its position. -/
def Indexed (keys : List κ) (look : κ → Option Nat) : Prop :=
  ∀ k i, look k = some i ↔ keys[i]? = some k

namespace Indexed
variable {keys : List κ} {look : κ → Option Nat}

theorem nil : Indexed ([] : List κ) fun _ => none := by
  intro k i
  simp

/-- A key is listed once. -/
theorem inj (h : Indexed keys look) {i j : Nat} {k : κ} (hi : keys[i]? = some k)
    (hj : keys[j]? = some k) : i = j := by
  have hl := (h k i).mpr hi
  rw [(h k j).mpr hj] at hl
  exact (Option.some.inj hl).symm

theorem nodup (h : Indexed keys look) : keys.Nodup := by
  rw [List.nodup_iff_injective_get]
  intro i j hij
  apply Fin.ext
  refine h.inj (k := keys.get j) (List.getElem?_eq_some_iff.mpr ⟨i.isLt,hij⟩) ?_
  exact List.getElem?_eq_getElem j.isLt

theorem eq_none (h : Indexed keys look) {k : κ} : look k = none ↔ k ∉ keys := by
  rw [Option.eq_none_iff_forall_ne_some]
  constructor
  · intro hn hk
    obtain ⟨i,hi⟩ := List.mem_iff_getElem?.mp hk
    exact hn i ((h k i).mpr hi)
  · intro hk i hi
    exact hk (List.mem_of_getElem? ((h k i).mp hi))

theorem isSome (h : Indexed keys look) {k : κ} : (look k).isSome ↔ k ∈ keys := by
  rw [Option.isSome_iff_ne_none,ne_eq,h.eq_none,not_not]

/-- A fresh key is appended, and the map told where it stands. -/
theorem push [DecidableEq κ] (h : Indexed keys look) {k : κ} (hk : look k = none) {look' : κ → Option Nat}
    (hl : ∀ j, look' j = if j = k then some keys.length else look j) :
    Indexed (keys ++ [k]) look' := by
  have hfresh := h.eq_none.mp hk
  intro j i
  rw [hl]
  by_cases hj : j = k
  · subst hj
    rw [if_pos rfl]
    constructor
    · intro hi
      cases hi
      simp
    · intro hi
      rcases Nat.lt_trichotomy i keys.length with hlt | heq | hgt
      · rw [List.getElem?_append_left hlt] at hi
        exact absurd (List.mem_of_getElem? hi) hfresh
      · rw [heq]
      · rw [List.getElem?_eq_none (by simp; omega)] at hi
        cases hi
  · rw [if_neg hj,h j i]
    rcases Nat.lt_or_ge i keys.length with hlt | hge
    · rw [List.getElem?_append_left hlt]
    · rw [List.getElem?_append_right hge,List.getElem?_eq_none hge]
      constructor
      · intro hi; cases hi
      · intro hi
        exact absurd (List.mem_singleton.mp (List.mem_of_getElem? hi)) hj

end Indexed

theorem getElem?_prefix_mono {xs ys : List α} (h : xs <+: ys) {i : Nat} {x : α}
    (hx : xs[i]? = some x) : ys[i]? = some x := by
  obtain ⟨rest,rfl⟩ := h
  rw [List.getElem?_append_left (List.getElem?_eq_some_iff.mp hx).1,hx]

section Modify
variable {items : List α} {i : Nat} {x y : α}

/-- A change in place that keeps a field keeps the column of that field. -/
theorem map_modify_same {f : α → α} {g : α → β} (hf : ∀ x, items[i]? = some x → g (f x) = g x) :
    (items.modify i f).map g = items.map g := by
  apply List.ext_getElem?
  intro j
  rw [List.getElem?_map,List.getElem?_map,List.getElem?_modify]
  by_cases hij : i = j
  · subst hij
    cases hx : items[i]? with
    | none => rfl
    | some x => simp [hf x hx]
  · simp [hij]

theorem map_replace_same {g : α → β} (hx : items[i]? = some x) (hg : g y = g x) :
    (items.modify i fun _ => y).map g = items.map g :=
  map_modify_same fun z hz => by rw [hx] at hz; cases hz; exact hg

theorem countP_modify_same {f : α → α} {p : α → Bool}
    (hf : ∀ x, items[i]? = some x → p (f x) = p x) : (items.modify i f).countP p = items.countP p := by
  have hc : ∀ l : List α, l.countP p = (l.map p).countP id := by
    intro l
    rw [List.countP_map]
    rfl
  rw [hc,hc,map_modify_same hf]

/-- An element after a change in place is the changed one, or one at another position. -/
theorem mem_modify_cases {f : α → α} (h : y ∈ items.modify i f) :
    (∃ x, items[i]? = some x ∧ y = f x) ∨ ∃ j, j ≠ i ∧ items[j]? = some y := by
  obtain ⟨j,hj⟩ := List.mem_iff_getElem?.mp h
  rw [List.getElem?_modify] at hj
  by_cases hij : i = j
  · subst hij
    left
    obtain ⟨x,hx,he⟩ : ∃ x, items[i]? = some x ∧ f x = y := by simpa using hj
    exact ⟨x,hx,he.symm⟩
  · right
    exact ⟨j,Ne.symm hij,by simpa [hij] using hj⟩

/-- How a change in place changes a count. -/
theorem countP_replace {p : α → Bool} (hx : items[i]? = some x) :
    (items.modify i fun _ => y).countP p + (if p x then 1 else 0) =
      items.countP p + (if p y then 1 else 0) := by
  induction items generalizing i with
  | nil => cases hx
  | cons z rest ih =>
    cases i with
    | zero =>
      cases hx
      simp only [List.modify_zero_cons,List.countP_cons]
      omega
    | succ i =>
      have hr := ih (i := i) hx
      simp only [List.modify_succ_cons,List.countP_cons]
      omega

/-- An element that joins a filtered list when it is changed stands where it stood. -/
theorem filter_replace {p : α → Bool} (hx : items[i]? = some x) (hp : p x = false) (hq : p y) :
    items.filter p = (items.take i).filter p ++ (items.drop (i+1)).filter p ∧
      (items.modify i fun _ => y).filter p =
        (items.take i).filter p ++ y :: (items.drop (i+1)).filter p := by
  obtain ⟨hi,rfl⟩ := List.getElem?_eq_some_iff.mp hx
  constructor
  · conv_lhs => rw [← List.take_append_drop i items,List.drop_eq_getElem_cons hi]
    rw [List.filter_append,List.filter_cons_of_neg (by simp [hp])]
  · rw [List.modify_eq_take_cons_drop hi,List.filter_append,List.filter_cons_of_pos hq]

/-- An insertion leaves the first elements alone when it stands behind them. -/
theorem take_insert_iff {front back expected : List α} {n : Nat} (hy : y ∉ expected)
    (hl : n ≤ (front ++ back).length) :
    (front ++ y :: back).take n = expected ↔
      (front ++ back).take n = expected ∧ n ≤ front.length := by
  rcases Nat.lt_or_ge front.length n with hn | hn
  · refine ⟨fun h => absurd ?_ hy,fun h => by omega⟩
    rw [← h,List.mem_take_iff_getElem]
    rw [List.length_append] at hl
    exact ⟨front.length,by simp; omega,by simp⟩
  · rw [List.take_append_of_le_length hn,List.take_append_of_le_length hn]
    exact ⟨fun h => ⟨h,hn⟩,fun h => h.1⟩

end Modify

/-- When the elements of the narrower kind come first, they are the first of the wider kind. -/
theorem filter_prefix_filter {p q : α → Bool} {items : List α} (hpq : ∀ x ∈ items, p x → q x)
    (ho : items.Pairwise fun x y => q x → p y → p x) : items.filter p <+: items.filter q := by
  induction items with
  | nil => exact List.prefix_refl _
  | cons x rest ih =>
    obtain ⟨hx,hrest⟩ := List.pairwise_cons.mp ho
    have ih := ih (fun y hy => hpq y (List.mem_cons_of_mem _ hy)) hrest
    by_cases hp : p x
    · rw [List.filter_cons_of_pos hp,List.filter_cons_of_pos (hpq x List.mem_cons_self hp)]
      exact List.prefix_cons_inj x |>.mpr ih
    · rw [List.filter_cons_of_neg hp]
      by_cases hq : q x
      · have hn : rest.filter p = [] := List.filter_eq_nil_iff.mpr fun y hy hpy => hp (hx y hy hq hpy)
        rw [hn]
        exact List.nil_prefix
      · rwa [List.filter_cons_of_neg hq]

end Nefor
