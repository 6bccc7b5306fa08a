import Mathlib.Data.List.Basic
import Mathlib.Tactic.Common

/-! Languages of words inside a whole, which are told whether nothing stands before a word and
whether nothing stands after it. -/
namespace Nefor

/-- The words of a language at the start of the whole, or not, and at its end, or not. -/
abbrev Anchored (α : Type*) := Prop → Prop → List α → Prop

namespace Anchored
variable {α : Type*} {L M : Anchored α} {start finish : Prop} {w : List α} {count : Nat}

def empty : Anchored α := fun _ _ w => w = []

def never : Anchored α := fun _ _ _ => False

def choice (L M : Anchored α) : Anchored α := fun start finish w => L start finish w ∨ M start finish w

def append (L M : Anchored α) : Anchored α := fun start finish w =>
  ∃ u v, w = u ++ v ∧ L start (finish ∧ v = []) u ∧ M (start ∧ u = []) finish v

/-- So many words of a language, one after the other. -/
def power (L : Anchored α) : Nat → Anchored α
  | 0 => empty
  | count + 1 => append L (power L count)

/-- The words of a language but the empty one. -/
def proper (L : Anchored α) : Anchored α := fun start finish w => w ≠ [] ∧ L start finish w

/-- Some word of a whole belongs to a language. -/
def Within (L : Anchored α) (whole : List α) : Prop :=
  ∃ before w after, whole = before ++ w ++ after ∧ L (before = []) (after = []) w

theorem append_mono {L' M' : Anchored α} (hL : ∀ s f w, L s f w → L' s f w) (hM : ∀ s f w, M s f w → M' s f w)
    (h : append L M start finish w) : append L' M' start finish w := by
  obtain ⟨u,v,hw,hu,hv⟩ := h
  exact ⟨u,v,hw,hL _ _ _ hu,hM _ _ _ hv⟩

theorem power_mono {L' : Anchored α} (hL : ∀ s f w, L s f w → L' s f w) (h : power L count start finish w) :
    power L' count start finish w := by
  induction count generalizing start finish w with
  | zero => exact h
  | succ count ih => exact append_mono hL (fun _ _ _ => ih) h

theorem Within.mono {whole : List α} (hL : ∀ s f w, L s f w → M s f w) (h : Within L whole) : Within M whole := by
  obtain ⟨before,w,after,hw,hmem⟩ := h
  exact ⟨before,w,after,hw,hL _ _ _ hmem⟩

theorem proper_le (h : proper L start finish w) : L start finish w := h.2

/-- Empty words can be left out. -/
theorem power_proper (h : power L count start finish w) : ∃ fewer ≤ count, power (proper L) fewer start finish w := by
  induction count generalizing start finish w with
  | zero => exact ⟨0,Nat.le_refl 0,h⟩
  | succ count ih =>
    obtain ⟨u,v,rfl,hu,hv⟩ := h
    obtain ⟨fewer,hfewer,hpower⟩ := ih hv
    by_cases hempty : u = []
    · subst hempty
      refine ⟨fewer,Nat.le_succ_of_le hfewer,?_⟩
      simpa using hpower
    · exact ⟨fewer + 1,Nat.succ_le_succ hfewer,u,v,rfl,⟨hempty,hu⟩,hpower⟩

/-- A language without the empty word has none to leave out. -/
theorem proper_of_no_empty (hL : ∀ s f, ¬ L s f []) (h : L start finish w) : proper L start finish w := by
  refine ⟨?_,h⟩
  rintro rfl
  exact hL _ _ h

/-- Words that are not empty are no more than the letters. -/
theorem power_proper_length (h : power (proper L) count start finish w) : count ≤ w.length := by
  induction count generalizing start finish w with
  | zero => exact Nat.zero_le _
  | succ count ih =>
    obtain ⟨u,v,rfl,hu,hv⟩ := h
    have hpos : 0 < u.length := List.length_pos_iff.mpr hu.1
    have hrest := ih hv
    rw [List.length_append]
    omega

end Anchored
end Nefor
