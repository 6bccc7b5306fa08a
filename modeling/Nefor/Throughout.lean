import Mathlib.Data.List.Infix

/-! Histories, that is lists that grow at the end, and conditions on each of their events that
look at what came before it. -/
namespace Nefor
variable {α : Type} {Q R : List α → α → Prop} {xs ys : List α} {x : α}

/-- Each element meets the condition after what stands before it. -/
def Throughout (Q : List α → α → Prop) (xs : List α) : Prop :=
  ∀ before x after, xs = before ++ x :: after → Q before x

namespace Throughout

theorem nil : Throughout Q ([] : List α) := by
  intro before x after h
  simp at h

theorem append : Throughout Q (xs ++ ys) ↔
    Throughout Q xs ∧ Throughout (fun before x => Q (xs ++ before) x) ys := by
  constructor
  · intro h
    constructor
    · rintro before x after rfl
      exact h before x (after ++ ys) (by simp)
    · rintro before x after rfl
      exact h (xs ++ before) x after (by simp)
  · rintro ⟨hx,hy⟩ before x after h
    obtain ⟨more,rfl,hr⟩ | ⟨more,rfl,hr⟩ := List.append_eq_append_iff.mp h
    · exact hy more x after hr
    · cases more with
      | nil => simpa using hy [] x after (by simpa using hr.symm)
      | cons y more =>
        obtain ⟨rfl,rfl⟩ := List.cons_eq_cons.mp hr
        exact hx before x more rfl

theorem singleton : Throughout Q [x] ↔ Q [] x := by
  constructor
  · intro h
    exact h [] x [] rfl
  · intro h before y after he
    obtain ⟨rfl,he⟩ | ⟨more,rfl,he⟩ := List.cons_eq_append_iff.mp he
    · cases he
      exact h
    · simp at he

theorem snoc : Throughout Q (xs ++ [x]) ↔ Throughout Q xs ∧ Q xs x := by
  rw [append,singleton,List.append_nil]

theorem cons : Throughout Q (x :: xs) ↔ Q [] x ∧ Throughout (fun before y => Q (x :: before) y) xs := by
  rw [← List.singleton_append,append,singleton]
  rfl

theorem of_prefix (h : Throughout Q ys) (hp : xs <+: ys) : Throughout Q xs := by
  obtain ⟨rest,rfl⟩ := hp
  exact (append.mp h).1

theorem mono (hq : ∀ before x, Q before x → R before x) (h : Throughout Q xs) : Throughout R xs :=
  fun before x after he => hq before x (h before x after he)

/-- A condition that holds after any elements of the list. -/
theorem of_forall (h : ∀ before, (∀ y ∈ before, y ∈ xs) → ∀ x ∈ xs, Q before x) :
    Throughout Q xs := by
  rintro before x after rfl
  exact h before (fun y hy => by simp [hy]) x (by simp)

theorem iff_getElem : Throughout Q xs ↔ ∀ i, ∀ h : i < xs.length, Q (xs.take i) xs[i] := by
  constructor
  · intro hq i h
    apply hq (xs.take i) xs[i] (xs.drop (i + 1))
    rw [List.getElem_cons_drop,List.take_append_drop]
  · rintro hq before x after rfl
    simpa using hq before.length (by simp)

end Throughout

instance [∀ before x, Decidable (Q before x)] : Decidable (Throughout Q xs) :=
  decidable_of_iff _ Throughout.iff_getElem.symm

end Nefor
