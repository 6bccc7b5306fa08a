import Mathlib.Data.List.Count
import Mathlib.Tactic.Common

/-! Openings and closings in a history. They balance when every opening is closed once, but for the
one that is still owed. -/
namespace Nefor
variable {α : Type} {opens closes : α → Bool} {h : List α} {owed owed' : Prop} {e : α}

structure Balance (opens closes : α → Bool) (h : List α) (owed : Prop) : Prop where
  owing : owed → h.countP opens = h.countP closes + 1
  even : ¬owed → h.countP opens = h.countP closes

namespace Balance

theorem nil : Balance opens closes [] False := ⟨False.elim,fun _ => rfl⟩

theorem le (b : Balance opens closes h owed) : h.countP closes ≤ h.countP opens := by
  by_cases ho : owed
  · have := b.owing ho
    omega
  · have := b.even ho
    omega

theorem le_succ (b : Balance opens closes h owed) : h.countP opens ≤ h.countP closes + 1 := by
  by_cases ho : owed
  · have := b.owing ho
    omega
  · have := b.even ho
    omega

/-- What is owed can be read off the history. -/
theorem even_iff (b : Balance opens closes h owed) : h.countP opens = h.countP closes ↔ ¬owed := by
  refine ⟨fun he ho => ?_,b.even⟩
  have := b.owing ho
  omega

theorem congr (b : Balance opens closes h owed) (ho : owed ↔ owed') : Balance opens closes h owed' :=
  ⟨fun h => b.owing (ho.mpr h),fun h => b.even (mt ho.mp h)⟩

/-- An entry that neither opens nor closes. -/
theorem quiet (b : Balance opens closes h owed) (ho : opens e = false) (hc : closes e = false) :
    Balance opens closes (h ++ [e]) owed := by
  constructor
  · intro hw
    simpa [List.countP_append,ho,hc] using b.owing hw
  · intro hw
    simpa [List.countP_append,ho,hc] using b.even hw

theorem opened (b : Balance opens closes h owed) (hw : ¬owed) (ho : opens e = true)
    (hc : closes e = false) : Balance opens closes (h ++ [e]) True := by
  refine ⟨fun _ => ?_,fun h => absurd trivial h⟩
  simpa [List.countP_append,ho,hc] using b.even hw

theorem closed (b : Balance opens closes h owed) (hw : owed) (ho : opens e = false)
    (hc : closes e = true) : Balance opens closes (h ++ [e]) False := by
  refine ⟨False.elim,fun _ => ?_⟩
  simpa [List.countP_append,ho,hc] using b.owing hw

end Balance

/-- An entry of a longer history stands in the shorter one or after it. -/
theorem append_eq_cases {xs ys h₁ h₂ : List α} (h : xs ++ ys = h₁ ++ e :: h₂) :
    (∃ more, xs = h₁ ++ e :: more) ∨ ∃ mid, h₁ = xs ++ mid ∧ ys = mid ++ e :: h₂ := by
  rcases List.append_eq_append_iff.mp h with ⟨mid,hh,hs⟩ | ⟨mid,hh,hs⟩
  · exact .inr ⟨mid,hh,hs⟩
  · cases mid with
    | nil => exact .inr ⟨[],by rw [hh,List.append_nil,List.append_nil],hs.symm⟩
    | cons first rest =>
      obtain ⟨rfl,-⟩ := List.cons_eq_cons.mp hs
      exact .inl ⟨rest,hh⟩

end Nefor
