import Mathlib.Tactic.Common

/-! Runs of a labelled transition system. -/
namespace Nefor
variable {σ ε : Type} {step step' : σ → ε → σ → Prop} {s t u : σ} {e : ε} {es fs : List ε}

/-- The steps lead from the first state to the last, one for each label. -/
inductive Trace (step : σ → ε → σ → Prop) : σ → List ε → σ → Prop
  | nil (s : σ) : Trace step s [] s
  | cons {s t u : σ} {e : ε} {es : List ε} :
      step s e t → Trace step t es u → Trace step s (e :: es) u

namespace Trace

theorem single (h : step s e t) : Trace step s [e] t := .cons h (.nil t)

theorem append (h : Trace step s es t) (k : Trace step t fs u) : Trace step s (es ++ fs) u := by
  induction h with
  | nil s => exact k
  | cons hs _ ih => exact .cons hs (ih k)

theorem split (h : Trace step s (es ++ fs) u) : ∃ t, Trace step s es t ∧ Trace step t fs u := by
  induction es generalizing s with
  | nil => exact ⟨s,.nil s,h⟩
  | cons e es ih =>
    cases h with
    | cons hs hr =>
      obtain ⟨t,h1,h2⟩ := ih hr
      exact ⟨t,.cons hs h1,h2⟩

theorem mono (hs : ∀ s e t, step s e t → step' s e t) (h : Trace step s es t) :
    Trace step' s es t := by
  induction h with
  | nil s => exact .nil s
  | cons h _ ih => exact .cons (hs _ _ _ h) ih

/-- What every step preserves, every run preserves. -/
theorem preserves {P : σ → Prop} (hs : ∀ s e t, P s → step s e t → P t)
    (h : Trace step s es t) (hp : P s) : P t := by
  induction h with
  | nil s => exact hp
  | cons h _ ih => exact ih (hs _ _ _ hp h)

/-- A relation that every step extends holds between the ends of a run. -/
theorem relates {R : σ → σ → Prop} (hr : ∀ s, R s s) (ht : ∀ s t u, R s t → R t u → R s u)
    (hs : ∀ s e t, step s e t → R s t) (h : Trace step s es t) : R s t := by
  induction h with
  | nil s => exact hr s
  | cons h _ ih => exact ht _ _ _ (hs _ _ _ h) ih

/-- A step that is guarded by the state it starts from; the guarded run also keeps `P`. -/
theorem guarded {P : σ → Prop} {guard : σ → ε → Prop}
    (hs : ∀ s e t, P s → guard s e → step s e t → P t)
    (h : Trace (fun s e t => guard s e ∧ step s e t) s es t) (hp : P s) : P t :=
  h.preserves (fun s e t hp hst => hs s e t hp hst.1 hst.2) hp

end Trace
end Nefor
