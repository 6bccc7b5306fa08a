import Mathlib.Logic.Function.Basic
import Mathlib.Data.List.Nodup
import Mathlib.Data.List.Infix

/-! A tree that grows below a movable head. A node is the path of child numbers that leads to
it; every node keeps the greatest child number handed out below it, so that a number is never
handed out twice, also when the head has moved back. -/
namespace Nefor

@[ext] structure PathTree where
  paths : List (List Nat)
  head : List Nat
  count : List Nat → Nat

namespace PathTree
variable {t t' : PathTree} {p q : List Nat}

/-- The next child below the head. -/
def next (t : PathTree) : List Nat := t.head ++ [t.count t.head+1]

/-- The next child number is taken. -/
def taken (t : PathTree) : List Nat → Nat := Function.update t.count t.head (t.count t.head+1)

inductive Step : PathTree → PathTree → Prop
  | stay (t : PathTree) : Step t t
  | skip (t : PathTree) : Step t { t with count := t.taken }
  | grow (t : PathTree) : Step t ⟨t.paths ++ [t.next],t.next,t.taken⟩
  | back {t : PathTree} {p : List Nat} : p ∈ t.paths → p <+: t.head →
      Step t { t with head := p.dropLast }

/-- Every node was handed out below an earlier one. -/
structure Grown (t : PathTree) : Prop where
  head : t.head = [] ∨ t.head ∈ t.paths
  below : ∀ (i : Nat) p, t.paths[i]? = some p → ∃ q n, p = q ++ [n] ∧ n ≤ t.count q ∧
    (q = [] ∨ ∃ j, j < i ∧ t.paths[j]? = some q)
  distinct : t.paths.Nodup

theorem grown_root {count : List Nat → Nat} : Grown ⟨[],[],count⟩ where
  head := .inl rfl
  below := fun i p h => by simp at h
  distinct := List.nodup_nil

theorem count_le_taken (t : PathTree) (q : List Nat) : t.count q ≤ t.taken q := by
  unfold taken
  by_cases hq : q = t.head
  · subst hq; simp
  · rw [Function.update_of_ne hq]

namespace Grown

/-- The next node is new: no node carries its number yet. -/
theorem next_not_mem (h : Grown t) : t.next ∉ t.paths := by
  intro hm
  obtain ⟨i,hi⟩ := List.mem_iff_getElem?.mp hm
  obtain ⟨q,n,he,hn,_⟩ := h.below i _ hi
  obtain ⟨rfl,hs⟩ := List.append_inj' (he : t.head ++ [_] = q ++ [n]) rfl
  cases hs
  omega

/-- The nodes on the way to a node. -/
theorem mem_of_prefix (h : Grown t) {i : Nat} (hi : t.paths[i]? = some p) (hq : q ≠ [])
    (hp : q <+: p) : ∃ j, j ≤ i ∧ t.paths[j]? = some q := by
  induction i using Nat.strongRecOn generalizing p with
  | ind i ih =>
    obtain ⟨r,n,rfl,_,hr⟩ := h.below i p hi
    rcases List.prefix_concat_iff.mp hp with rfl | hp
    · exact ⟨i,le_refl i,hi⟩
    · rcases hr with rfl | ⟨j,hj,hr⟩
      · exact absurd (List.prefix_nil.mp hp) hq
      · obtain ⟨k,hk,hq⟩ := ih j hj hr hp
        exact ⟨k,by omega,hq⟩

theorem mem_of_prefix_head (h : Grown t) (hq : q ≠ []) (hp : q <+: t.head) : q ∈ t.paths := by
  rcases h.head with hh | hh
  · rw [hh] at hp
    exact absurd (List.prefix_nil.mp hp) hq
  · obtain ⟨i,hi⟩ := List.mem_iff_getElem?.mp hh
    obtain ⟨j,_,hj⟩ := h.mem_of_prefix hi hq hp
    exact List.mem_of_getElem? hj

theorem index_inj (h : Grown t) {i j : Nat} (hi : t.paths[i]? = some p)
    (hj : t.paths[j]? = some p) : i = j := by
  obtain ⟨hi',he⟩ := List.getElem?_eq_some_iff.mp hi
  obtain ⟨hj',he'⟩ := List.getElem?_eq_some_iff.mp hj
  exact h.distinct.getElem_inj_iff.mp (he.trans he'.symm)

/-- On one branch shorter paths come first. -/
theorem ordered (h : Grown t) {i j : Nat} (hi : t.paths[i]? = some p) (hj : t.paths[j]? = some q)
    (hp : p ≠ []) (hpq : p <+: q) (hne : p ≠ q) : i < j := by
  obtain ⟨k,hk,hpk⟩ := h.mem_of_prefix hj hp hpq
  have hik : i = k := h.index_inj hi hpk
  have hij : i ≠ j := by
    rintro rfl
    rw [hi] at hj
    exact hne (Option.some.inj hj)
  omega

/-- A node stands behind every node on the way to it. -/
theorem le_of_prefix (h : Grown t) {i j : Nat} (hi : t.paths[i]? = some p)
    (hj : t.paths[j]? = some q) (hq : q <+: p) : j ≤ i := by
  by_cases hpq : q = p
  · subst hpq
    exact le_of_eq (h.index_inj hj hi)
  · obtain ⟨r,n,rfl,_⟩ := h.below j q hj
    exact le_of_lt (h.ordered hj hi (by simp) hq hpq)

theorem step (h : Grown t) (hs : Step t t') : Grown t' := by
  cases hs with
  | stay => exact h
  | skip =>
    refine ⟨h.head,fun i p hp => ?_,h.distinct⟩
    obtain ⟨q,n,he,hn,hq⟩ := h.below i p hp
    exact ⟨q,n,he,le_trans hn (count_le_taken t q),hq⟩
  | grow =>
    refine ⟨.inr (by simp),fun i p hp => ?_,?_⟩
    · rcases Nat.lt_or_ge i t.paths.length with hi | hi
      · rw [List.getElem?_append_left hi] at hp
        obtain ⟨q,n,he,hn,hq⟩ := h.below i p hp
        refine ⟨q,n,he,le_trans hn (count_le_taken t q),hq.imp_right ?_⟩
        rintro ⟨j,hj,hjq⟩
        exact ⟨j,hj,by rw [List.getElem?_append_left (by omega),hjq]⟩
      · rw [List.getElem?_append_right hi] at hp
        have hp := List.mem_singleton.mp (List.mem_of_getElem? hp)
        refine ⟨t.head,t.count t.head+1,hp,by simp [taken],h.head.imp_right fun hh => ?_⟩
        obtain ⟨j,hj⟩ := List.mem_iff_getElem?.mp hh
        have hlt := (List.getElem?_eq_some_iff.mp hj).1
        exact ⟨j,by omega,by rw [List.getElem?_append_left hlt,hj]⟩
    · exact List.nodup_append.mpr ⟨h.distinct,by simp,by
        rintro p hp q hq rfl
        exact h.next_not_mem (List.mem_singleton.mp hq ▸ hp)⟩
  | back hp hpre =>
    refine ⟨?_,h.below,h.distinct⟩
    rename_i p
    by_cases hd : p.dropLast = []
    · exact .inl hd
    · exact .inr (h.mem_of_prefix_head hd ((List.dropLast_prefix p).trans hpre))

end Grown

/-- A node below whose parent the head never comes back to it. -/
structure Abandoned (t : PathTree) (p : List Nat) : Prop where
  off : ¬p <+: t.head
  used : ∃ q n, p = q ++ [n] ∧ n ≤ t.count q

namespace Abandoned

theorem step (h : Abandoned t p) (hs : Step t t') : Abandoned t' p := by
  obtain ⟨q,n,rfl,hn⟩ := h.used
  cases hs with
  | stay => exact h
  | skip => exact ⟨h.off,q,n,rfl,le_trans hn (count_le_taken t q)⟩
  | grow =>
    refine ⟨fun hp => ?_,q,n,rfl,le_trans hn (count_le_taken t q)⟩
    rcases List.prefix_concat_iff.mp hp with he | hp
    · -- the next child of the head has a number that the node cannot have
      obtain ⟨rfl,hs⟩ := List.append_inj' he rfl
      cases hs
      omega
    · exact h.off hp
  | back hp hpre =>
    exact ⟨fun hq => h.off (hq.trans ((List.dropLast_prefix _).trans hpre)),q,n,rfl,hn⟩

/-- Leaving a node by moving the head to its parent abandons it. -/
theorem back (h : Grown t) (hp : p ∈ t.paths) : Abandoned { t with head := p.dropLast } p := by
  obtain ⟨i,hi⟩ := List.mem_iff_getElem?.mp hp
  obtain ⟨q,n,rfl,hn,_⟩ := h.below i p hi
  refine ⟨fun hq => ?_,q,n,rfl,hn⟩
  have hl := hq.length_le
  simp only [List.length_append,List.length_singleton,List.length_dropLast] at hl
  omega

end Abandoned
end PathTree
end Nefor
