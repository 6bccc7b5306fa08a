import Mathlib.Data.List.Infix
import Mathlib.Data.Rat.Defs

/-! A log of notices. A notice is appended once, included in requests, and delivered with a
request that included it; until then it is outstanding. -/
namespace Nefor.NoticeLog

section Chained
variable {α : Type} {P Q : List α → α → Prop} {log : List α}

/-- Every entry follows the earlier ones as `P` allows. -/
def Chained (P : List α → α → Prop) (log : List α) : Prop :=
  ∀ earlier e rest, log = earlier ++ e :: rest → P earlier e

theorem chained_nil : Chained P [] := by
  intro earlier e rest h
  simp at h

theorem chained_concat {e : α} : Chained P (log ++ [e]) ↔ Chained P log ∧ P log e := by
  constructor
  · intro h
    refine ⟨fun earlier x rest he => h earlier x (rest ++ [e]) ?_,h log e [] rfl⟩
    rw [he,List.append_assoc,List.cons_append]
  · rintro ⟨h,he⟩ earlier x rest hs
    rcases List.eq_nil_or_concat rest with rfl | ⟨init,last,rfl⟩
    · obtain ⟨rfl,hx⟩ := List.append_inj' hs rfl
      cases hx
      exact he
    · rw [List.concat_eq_append,← List.cons_append,← List.append_assoc] at hs
      exact h earlier x init (List.append_inj' hs rfl).1

theorem Chained.mono (h : Chained P log) (hpq : ∀ earlier e, P earlier e → Q earlier e) :
    Chained Q log := fun earlier e rest hs => hpq _ _ (h earlier e rest hs)

/-- What allowed an entry that is logged. -/
theorem Chained.at_mem (h : Chained P log) {e : α} (he : e ∈ log) :
    ∃ earlier, (∀ x ∈ earlier, x ∈ log) ∧ P earlier e := by
  obtain ⟨earlier,rest,rfl⟩ := List.append_of_mem he
  exact ⟨earlier,fun x hx => List.mem_append_left _ hx,h earlier e rest rfl⟩

/-- What an entry keeps apart from every earlier one, two entries keep apart. -/
theorem Chained.pairwise (h : Chained P log) {R : α → α → Prop}
    (hr : ∀ earlier e, P earlier e → ∀ x ∈ earlier, R x e) : log.Pairwise R := by
  induction log using List.reverseRecOn with
  | nil => exact .nil
  | append_singleton log e ih =>
    obtain ⟨h,he⟩ := chained_concat.mp h
    refine List.pairwise_append.mpr ⟨ih h,List.pairwise_singleton _ _,fun x hx y hy => ?_⟩
    rw [List.mem_singleton.mp hy]
    exact hr log e he x hx

/-- The entries that are kept follow one another as `Q` allows. -/
theorem Chained.filter (h : Chained P log) {keep : α → Bool}
    (hpq : ∀ earlier e, (∀ x ∈ earlier, x ∈ log) → e ∈ log → keep e → P earlier e →
      Q (earlier.filter keep) e) : Chained Q (log.filter keep) := by
  induction log using List.reverseRecOn with
  | nil => exact chained_nil
  | append_singleton log e ih =>
    obtain ⟨h,he⟩ := chained_concat.mp h
    have ih := ih h fun earlier x hs hx => hpq earlier x
      (fun y hy => List.mem_append_left _ (hs y hy)) (List.mem_append_left _ hx)
    rw [List.filter_append]
    by_cases hk : keep e
    · rw [List.filter_cons_of_pos hk]
      exact chained_concat.mpr ⟨ih,hpq log e (fun x hx => List.mem_append_left _ hx) (by simp) hk he⟩
    · rw [List.filter_cons_of_neg hk,List.filter_nil,List.append_nil]
      exact ih

end Chained

/-- What an entry records about its notice. -/
inductive Step
  | appended
  | included (request : String)
  | delivered (request : String)
  deriving DecidableEq

/-- Whom a notice is for. -/
structure Scope where
  epoch : String
  provider : String
  model : String
  deriving DecidableEq

structure Entry where
  step : Step
  id : String
  scope : Scope
  path : List Nat
  sequence : ℚ

def Entry.Appends (e : Entry) (id : String) : Prop := e.step = .appended ∧ e.id = id
def Entry.Includes (e : Entry) (id request : String) : Prop := e.step = .included request ∧ e.id = id
def Entry.Delivers (e : Entry) (id : String) : Prop := (∃ r, e.step = .delivered r) ∧ e.id = id

/-- The notice was appended and is not delivered. -/
def Outstanding (log : List Entry) (id : String) : Prop :=
  (∃ a ∈ log, a.Appends id) ∧ ∀ d ∈ log, ¬d.Delivers id

/-- A notice is appended when no other one is outstanding, included after it was appended and
delivered after it was included. -/
def Allowed (earlier : List Entry) (e : Entry) : Prop :=
  match e.step with
  | .appended => (∀ x ∈ earlier, x.id ≠ e.id) ∧ ∀ id, ¬Outstanding earlier id
  | .included _ => ∃ a ∈ earlier, a.Appends e.id
  | .delivered r => (∃ a ∈ earlier, a.Appends e.id) ∧ ∃ i ∈ earlier, i.Includes e.id r

section Outstanding
variable {log : List Entry} {e : Entry} {id : String}

theorem outstanding_concat_appended (hs : e.step = .appended) (h : Allowed log e) :
    Outstanding (log ++ [e]) id ↔ id = e.id := by
  simp only [Allowed,hs] at h
  obtain ⟨hfresh,hnone⟩ := h
  constructor
  · rintro ⟨⟨a,ha,happ⟩,hd⟩
    rcases List.mem_append.mp ha with ha | ha
    · exact absurd ⟨⟨a,ha,happ⟩,fun d hd' => hd d (List.mem_append_left _ hd')⟩ (hnone id)
    · rw [← List.mem_singleton.mp ha,happ.2]
  · rintro rfl
    refine ⟨⟨e,by simp,hs,rfl⟩,fun d hd hdel => ?_⟩
    rcases List.mem_append.mp hd with hd | hd
    · exact hfresh d hd hdel.2
    · obtain ⟨r,hr⟩ := hdel.1
      rw [List.mem_singleton.mp hd,hs] at hr
      cases hr

theorem outstanding_concat_included {r : String} (hs : e.step = .included r) :
    Outstanding (log ++ [e]) id ↔ Outstanding log id := by
  simp [Outstanding,Entry.Appends,Entry.Delivers,or_and_right,exists_or,or_imp,forall_and,hs]

theorem outstanding_concat_delivered {r : String} (hs : e.step = .delivered r) :
    Outstanding (log ++ [e]) id ↔ Outstanding log id ∧ id ≠ e.id := by
  simp [Outstanding,Entry.Appends,Entry.Delivers,or_and_right,exists_or,or_imp,forall_and,hs,
    and_assoc,eq_comm]

end Outstanding
end Nefor.NoticeLog
