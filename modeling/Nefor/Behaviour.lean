import Mathlib.Data.List.Basic
import Mathlib.Tactic.Common

/-! What a party may do: a deterministic automaton over events. A log that many parties write to is
read party by party, and each of them has to follow its own automaton. -/
namespace Nefor

structure Behaviour (σ ε : Type) where
  start : σ
  next : σ → ε → Option σ

namespace Behaviour
variable {σ ε κ : Type} (b : Behaviour σ ε)

/-- The state after some events, if all of them are allowed. -/
def after (s : σ) (es : List ε) : Option σ := es.foldlM b.next s

@[simp] theorem after_nil (s : σ) : b.after s [] = some s := rfl

theorem after_cons (s : σ) (e : ε) (es : List ε) :
    b.after s (e :: es) = (b.next s e).bind fun t => b.after t es := rfl

theorem after_append (s : σ) (xs ys : List ε) :
    b.after s (xs ++ ys) = (b.after s xs).bind fun t => b.after t ys :=
  List.foldlM_append

theorem after_singleton (s : σ) (e : ε) : b.after s [e] = b.next s e := by
  rw [after_cons]
  cases b.next s e <;> rfl

variable [DecidableEq κ] (key : ε → Option κ)

/-- The events of a log that are about one party. -/
def about (k : κ) (log : List ε) : List ε := log.filter fun e => key e = some k

@[simp] theorem about_nil (k : κ) : about key k [] = [] := rfl

theorem about_append (k : κ) (xs ys : List ε) : about key k (xs ++ ys) = about key k xs ++ about key k ys :=
  List.filter_append _ _

theorem about_eq_nil {k : κ} {es : List ε} (h : ∀ e ∈ es, key e ≠ some k) : about key k es = [] := by
  rw [about,List.filter_eq_nil_iff]
  intro e he
  simpa using h e he

theorem about_singleton {k : κ} {e : ε} (h : key e = some k) : about key k [e] = [e] := by
  rw [about,List.filter_cons_of_pos (by simpa using h),List.filter_nil]

/-- One event for each party of a list. -/
theorem about_map {f : κ → ε} (hf : ∀ k, key (f k) = some k) {ks : List κ} (hks : ks.Nodup) {k : κ} (hk : k ∈ ks) :
    about key k (ks.map f) = [f k] := by
  obtain ⟨before,after,rfl⟩ := List.append_of_mem hk
  obtain ⟨_,hafter,hdisjoint⟩ := List.nodup_append.mp hks
  have hleft : about key k (before.map f) = [] := by
    apply about_eq_nil
    intro e he
    obtain ⟨j,hj,rfl⟩ := List.mem_map.mp he
    rw [hf]
    rintro ⟨⟩
    exact hdisjoint k hj k List.mem_cons_self rfl
  have hright : about key k (after.map f) = [] := by
    apply about_eq_nil
    intro e he
    obtain ⟨j,hj,rfl⟩ := List.mem_map.mp he
    rw [hf]
    rintro ⟨⟩
    exact (List.nodup_cons.mp hafter).1 hj
  rw [List.map_append,List.map_cons,about_append,hleft,List.nil_append,← List.singleton_append,about_append,
    about_singleton key (hf k),hright,List.append_nil]

/-- Every party has followed its automaton, and stands where the view says it does. -/
def Tracks (view : κ → σ → Prop) (log : List ε) : Prop :=
  ∀ k, ∃ s, b.after b.start (about key k log) = some s ∧ view k s

variable {b key} {view view' : κ → σ → Prop} {log : List ε}

theorem Tracks.nil (h : ∀ k, view k b.start) : Tracks b key view [] :=
  fun k => ⟨b.start,rfl,h k⟩

theorem Tracks.mono (h : Tracks b key view log) (hview : ∀ k s, view k s → view' k s) :
    Tracks b key view' log := by
  intro k
  obtain ⟨s,hs,hk⟩ := h k
  exact ⟨s,hs,hview k s hk⟩

theorem Tracks.append (h : Tracks b key view log) {es : List ε}
    (hview : ∀ k s, view k s → ∃ t, b.after s (about key k es) = some t ∧ view' k t) :
    Tracks b key view' (log ++ es) := by
  intro k
  obtain ⟨s,hs,hk⟩ := h k
  obtain ⟨t,ht,hk'⟩ := hview k s hk
  refine ⟨t,?_,hk'⟩
  rw [about_append,after_append,hs]
  exact ht

end Behaviour
end Nefor
