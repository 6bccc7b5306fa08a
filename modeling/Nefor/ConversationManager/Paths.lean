import Std.Data.String.ToNat
import Nefor.Lists
import Nefor.Lua.Table
import Nefor.ConversationManager.State

/-! Allocated paths. Their Lua tables are valid, comparing the tables compares the paths, and
the text of a path names it. -/
namespace Nefor.ConversationManager.HistoryPath
open Nefor.Lua

/-- Every component is a child number. -/
def Sound (p : HistoryPath) : Prop := ∀ n ∈ p, 1 ≤ n ∧ n ≤ maxComponent

theorem sound_nil : Sound [] := fun _ h => nomatch h

theorem Sound.of_initial {p q : HistoryPath} (h : Sound q) (hp : p <+: q) : Sound p :=
  fun n hn => h n (hp.subset hn)

/-- One component as a Lua value. -/
def component (n : Nat) : LuaValue := .num (.int n)

theorem toLua_eq (p : HistoryPath) : toLua p = .array (p.map component) := by
  have hmap : ∀ p : List Nat, (do let a ← p; pure (a : Int)) = p.map fun n : Nat => (n : Int) := by
    intro p
    simp [List.map_eq_flatMap]
  rw [toLua,hmap,List.map_map]
  rfl

theorem sequence_toLua (p : HistoryPath) : (toLua p).sequence = p.map component := by
  rw [toLua_eq]
  refine sequence_array fun v hv => ?_
  obtain ⟨n,_,rfl⟩ := List.mem_map.mp hv
  rfl

theorem validComponent_iff (n : Nat) : validComponent (component n) ↔ 1 ≤ n ∧ n ≤ maxComponent := by
  simp only [component,validComponent,LuaNum.integral,LuaNum.le,LuaNum.toRat,Bool.true_and,
    Bool.and_eq_true,decide_eq_true_eq]
  norm_cast

theorem valid_toLua (p : HistoryPath) : valid (toLua p) true ↔ Sound p := by
  have ht : (toLua p).isTable := by rw [toLua_eq]; rfl
  rw [valid,sequence_toLua,ht]
  simp [Sound,validComponent_iff]

@[simp] theorem component_rawEq (m n : Nat) : (component m).rawEq (component n) ↔ m = n := by
  simp only [component,LuaValue.rawEq,LuaNum.eq,LuaNum.toRat,decide_eq_true_eq]
  norm_cast

theorem zip_all_rawEq {p q : List Nat} (hl : p.length ≤ q.length) :
    ((p.map component).zip (q.map component)).all (fun p => p.1.rawEq p.2) ↔ p <+: q := by
  induction p generalizing q with
  | nil => simp
  | cons m rest ih =>
    cases q with
    | nil => cases hl
    | cons n q =>
      rw [List.map_cons,List.map_cons,List.zip_cons_cons,List.all_cons,Bool.and_eq_true,
        component_rawEq,ih (by simpa using hl),List.cons_prefix_cons]

theorem isPrefix_toLua {p q : HistoryPath} (hp : Sound p) (hq : Sound q) :
    isPrefix (toLua p) (toLua q) ↔ p <+: q := by
  rw [isPrefix,(valid_toLua p).mpr hp,(valid_toLua q).mpr hq,sequence_toLua,sequence_toLua,
    List.length_map,List.length_map]
  by_cases hl : p.length ≤ q.length
  · simp only [hl,decide_true,Bool.true_and]
    exact zip_all_rawEq hl
  · simp only [hl,decide_false,Bool.and_false,Bool.false_and,Bool.false_eq_true,false_iff]
    exact fun h => hl h.length_le

/-- The table holds the components of the path, be they integers or floats. -/
structure Denotes (v : LuaValue) (p : HistoryPath) : Prop where
  table : v.isTable
  components : List.Forall₂ (fun a n => a.rawEq (component n)) v.sequence p

theorem Denotes.toLua (p : HistoryPath) : Denotes (toLua p) p := by
  constructor
  · rw [toLua_eq]; rfl
  · rw [sequence_toLua]
    induction p with
    | nil => exact .nil
    | cons n rest ih => exact .cons ((component_rawEq n n).mpr rfl) ih

theorem rawEq_component {a : LuaValue} {n : Nat} :
    a.rawEq (component n) ↔ ∃ k, a = .num k ∧ k.toRat = some ((n : Int) : ℚ) := by
  cases a with
  | num k => cases k <;> simp [component,LuaValue.rawEq,LuaNum.eq,LuaNum.toRat]
  | _ => simp [component,LuaValue.rawEq]

theorem number_of_rawEq {a : LuaValue} {n : Nat} (h : a.rawEq (component n)) :
    ∃ k, a = .num k ∧ k.toRat = some ((n : Int) : ℚ) := rawEq_component.mp h

theorem validComponent_of {a : LuaValue} {n : Nat} (h : a.rawEq (component n))
    (hn : 1 ≤ n ∧ n ≤ maxComponent) : validComponent a := by
  obtain ⟨k,rfl,hk⟩ := number_of_rawEq h
  cases k with
  | int i =>
    have hi : i = n := by
      have := Option.some.inj hk
      exact_mod_cast this
    rw [hi]
    exact (validComponent_iff n).mpr hn
  | float q =>
    have hq : q = ((n : Int) : ℚ) := Option.some.inj hk
    subst hq
    simp only [validComponent,LuaNum.integral,LuaNum.le,LuaNum.toRat,Bool.and_eq_true,
      decide_eq_true_eq,Rat.den_intCast,true_and]
    exact_mod_cast hn
  | _ => cases hk

theorem Denotes.unique {v : LuaValue} {p q : HistoryPath} (hp : Denotes v p) (hq : Denotes v q) :
    p = q := by
  refine List.right_unique_forall₂' (fun a m n hm hn => ?_) hp.components hq.components
  obtain ⟨k,rfl,hk⟩ := number_of_rawEq hm
  obtain ⟨_,hk',hn⟩ := number_of_rawEq hn
  cases hk'
  rw [hk] at hn
  have he := Option.some.inj hn
  exact_mod_cast he

theorem zip_all_of_denotes {s : List LuaValue} {p : List Nat}
    (h : List.Forall₂ (fun a n => a.rawEq (component n)) s p) {q : List Nat} (hpq : p <+: q) :
    (s.zip (q.map component)).all fun e => e.1.rawEq e.2 := by
  obtain ⟨rest,rfl⟩ := hpq
  induction h with
  | nil => rfl
  | cons hn _ ih =>
    simp only [List.cons_append,List.map_cons,List.zip_cons_cons,List.all_cons,Bool.and_eq_true]
    exact ⟨hn,ih⟩

theorem denotes_of_zip {s : List LuaValue} {q : List Nat} (hl : s.length ≤ q.length)
    (h : (s.zip (q.map component)).all fun e => e.1.rawEq e.2) :
    List.Forall₂ (fun a n => a.rawEq (component n)) s (q.take s.length) := by
  induction s generalizing q with
  | nil => exact .nil
  | cons a rest ih =>
    cases q with
    | nil => cases hl
    | cons n q =>
      simp only [List.map_cons,List.zip_cons_cons,List.all_cons,Bool.and_eq_true] at h
      exact .cons h.1 (ih (by simpa using hl) h.2)

/-- A table is a prefix of an allocated path exactly when it denotes one. -/
theorem isPrefix_iff {v : LuaValue} {q : HistoryPath} (hq : Sound q) :
    isPrefix v (toLua q) ↔ ∃ p, Denotes v p ∧ p <+: q := by
  rw [isPrefix,(valid_toLua q).mpr hq,sequence_toLua,List.length_map]
  simp only [Bool.and_eq_true,decide_eq_true_eq,and_true]
  constructor
  · rintro ⟨⟨hv,hl⟩,hz⟩
    simp only [valid,Bool.and_eq_true] at hv
    exact ⟨q.take v.sequence.length,⟨hv.1.1,denotes_of_zip hl hz⟩,List.take_prefix _ _⟩
  · rintro ⟨p,hp,hpq⟩
    have hlen := hp.components.length_eq
    refine ⟨⟨?_,hlen ▸ hpq.length_le⟩,zip_all_of_denotes hp.components hpq⟩
    simp only [valid,Bool.and_eq_true,hp.table,Bool.true_or,true_and,List.all_eq_true]
    intro a ha
    obtain ⟨n,hn,han⟩ := forall₂_mem hp.components ha
    exact validComponent_of han (hq.of_initial hpq n hn)

theorem Denotes.isPrefix_iff {v : LuaValue} {p q : HistoryPath} (h : Denotes v p) (hq : Sound q) :
    isPrefix v (HistoryPath.toLua q) ↔ p <+: q := by
  rw [HistoryPath.isPrefix_iff hq]
  constructor
  · rintro ⟨p',hp',hpq⟩
    rwa [h.unique hp']
  · exact fun hpq => ⟨p,h,hpq⟩

theorem rawEq_component_of_equal {a b : LuaValue} {n : Nat} (h : a.rawEq (component n))
    (he : a.equal b) : b.rawEq (component n) := by
  obtain ⟨k,rfl,hk⟩ := number_of_rawEq h
  rw [rawEq_component]
  cases b with
  | num l =>
    have hkl : k.eq l := he
    refine ⟨l,rfl,?_⟩
    cases k <;> cases l <;> simp_all [LuaNum.eq,LuaNum.toRat]
  | _ => cases he

/-- A value that equals a table of a path denotes the path as well. -/
theorem Denotes.of_equal {v w : LuaValue} {p : HistoryPath} (h : Denotes v p) (he : v.equal w) :
    Denotes w p := by
  have hlists : ∀ {s t : List LuaValue} {p : List Nat}, List.Forall₂ (fun a b => a.equal b) s t →
      List.Forall₂ (fun a n => a.rawEq (component n)) s p →
      List.Forall₂ (fun a n => a.rawEq (component n)) t p := by
    intro s t p hst
    induction hst generalizing p with
    | nil => exact id
    | cons hab _ ih =>
      intro hp
      cases hp with
      | cons hn hrest => exact .cons (rawEq_component_of_equal hn hab) (ih hrest)
  cases v with
  | table marked xs =>
    cases w with
    | table marked' ys => exact ⟨rfl,hlists (equal_sequence he) h.components⟩
    | _ => cases he
  | _ => cases h.table

theorem toString_digits (n : Nat) : '.' ∉ (toString n).toList := by
  intro hn
  have hd := Nat.isDigit_of_mem_toDigits (c := '.') (n := n) (b := 10) (by decide) (by decide)
    (by simpa using hn)
  exact absurd hd (by decide)

/-- The key of a path splits into the texts of its components. -/
theorem splitOn_keyOf {p : HistoryPath} (hp : p ≠ []) :
    (keyOf p).toList.splitOn '.' = p.map fun n => (toString n).toList := by
  rw [keyOf,String.toList_intercalate,List.map_map]
  refine List.splitOn_intercalate '.' (fun l hl => ?_) (by simpa using hp)
  obtain ⟨n,_,rfl⟩ := List.mem_map.mp hl
  exact toString_digits n

theorem keyOf_eq_nil {p : HistoryPath} (h : keyOf p = keyOf []) : p = [] := by
  by_contra hp
  have hs := splitOn_keyOf hp
  rw [h] at hs
  cases p with
  | nil => exact hp rfl
  | cons n rest =>
    have hn : (toString n).toList = [] := (List.cons.inj hs).1.symm
    simp at hn

/-- The key of a path is a text that no other path has. -/
theorem keyOf_injective {p q : HistoryPath} (h : keyOf p = keyOf q) : p = q := by
  by_cases hp : p = []
  · subst hp
    exact (keyOf_eq_nil h.symm).symm
  by_cases hq : q = []
  · subst hq
    exact keyOf_eq_nil h
  have hs := splitOn_keyOf hp
  rw [h,splitOn_keyOf hq] at hs
  refine (List.map_injective_iff.mpr fun m n hmn => ?_) hs.symm
  exact Nat.repr_injective (String.toList_inj.mp hmn)

theorem allocate_sound {p q : HistoryPath} {m : ChildMax} (h : allocate p m = .ok q) :
    Sound p ∧ Sound q := by
  have hq := allocate_ok h
  simp only [allocate] at h
  split at h
  · rename_i hv
    split at h
    · cases h
    · rename_i hc
      have hp := (valid_toLua p).mp hv
      refine ⟨hp,fun n hn => ?_⟩
      rw [hq] at hn
      rcases List.mem_append.mp hn with hn | hn
      · exact hp n hn
      · rw [List.mem_singleton.mp hn]; omega
  · cases h

end Nefor.ConversationManager.HistoryPath

namespace Nefor.ConversationManager

theorem onHead_iff {c : Conversation} {p : HistoryPath} (hp : p.Sound) (hh : c.head.Sound) :
    c.onHead p ↔ p <+: c.head := HistoryPath.isPrefix_toLua hp hh

end Nefor.ConversationManager
