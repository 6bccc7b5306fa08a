import Mathlib.Data.List.Forall2
import Nefor.Except

/-! Computations with fuel. A computation that has run out of it is below every other one, and
more fuel only takes a computation up. -/
namespace Nefor

inductive Stop (ε : Type) where
  | outOfFuel
  | error (e : ε)
  deriving DecidableEq, Repr

abbrev Run (ε α : Type) := Except (Stop ε) α

namespace Run
variable {ε α β : Type}

def outOfFuel : Run ε α := .error .outOfFuel

def fail (e : ε) : Run ε α := .error (.error e)

def ofOption (o : Option α) (e : ε) : Run ε α :=
  match o with
  | some a => .ok a
  | none => fail e

@[simp] theorem ofOption_some (a : α) (e : ε) : ofOption (some a) e = .ok a := rfl
@[simp] theorem ofOption_none (e : ε) : ofOption (none : Option α) e = fail e := rfl

theorem ofOption_eq_ok {o : Option α} {e : ε} {a : α} : ofOption o e = .ok a ↔ o = some a := by
  cases o <;> simp [ofOption,fail]

/-- An error of the computation is a result; running out of fuel is not. -/
def attempt (r : Run ε α) : Run ε (Option α) :=
  match r with
  | .ok a => .ok (some a)
  | .error (.error _) => .ok none
  | .error .outOfFuel => outOfFuel

@[simp] theorem attempt_ok (a : α) : attempt (.ok a : Run ε α) = .ok (some a) := rfl

/-- The first computation is the second one, or it ran out of fuel. -/
def Le (r s : Run ε α) : Prop := r = outOfFuel ∨ r = s

theorem Le.refl (r : Run ε α) : Le r r := .inr rfl

theorem outOfFuel_le (s : Run ε α) : Le outOfFuel s := .inl rfl

theorem Le.trans {r s t : Run ε α} (h : Le r s) (k : Le s t) : Le r t := by
  rcases h with rfl | rfl
  · exact outOfFuel_le t
  · exact k

theorem Le.ok {r s : Run ε α} (h : Le r s) {a : α} (hr : r = .ok a) : s = .ok a := by
  rcases h with rfl | rfl
  · cases hr
  · exact hr

theorem Le.bind {r s : Run ε α} {f g : α → Run ε β} (h : Le r s) (hf : ∀ a, Le (f a) (g a)) :
    Le (r >>= f) (s >>= g) := by
  rcases h with rfl | rfl
  · exact outOfFuel_le _
  · cases r with
    | error e => exact Le.refl _
    | ok a => exact hf a

theorem Le.attempt {r s : Run ε α} (h : Le r s) : Le r.attempt s.attempt := by
  rcases h with rfl | rfl
  · exact outOfFuel_le _
  · exact Le.refl _

theorem Le.ite {c : Prop} [Decidable c] {r r' s : Run ε α} (h : Le r r') :
    Le (if c then r else s) (if c then r' else s) := by
  split
  · exact h
  · exact Le.refl _

section Lists
variable {f g : α → Run ε β} {p q : α → Run ε Bool}

theorem Le.mapM (l : List α) (h : ∀ a ∈ l, Le (f a) (g a)) : Le (l.mapM f) (l.mapM g) := by
  induction l with
  | nil => exact Le.refl _
  | cons a rest ih =>
    rw [List.mapM_cons,List.mapM_cons]
    refine (h a List.mem_cons_self).bind fun b => ?_
    exact (ih fun a ha => h a (List.mem_cons_of_mem _ ha)).bind fun bs => Le.refl _

theorem Le.anyM (l : List α) (h : ∀ a ∈ l, Le (p a) (q a)) : Le (l.anyM p) (l.anyM q) := by
  induction l with
  | nil => exact Le.refl _
  | cons a rest ih =>
    rw [List.anyM,List.anyM]
    refine (h a List.mem_cons_self).bind fun b => ?_
    cases b with
    | true => exact Le.refl _
    | false => exact ih fun a ha => h a (List.mem_cons_of_mem _ ha)

/-- A list is mapped when each of its elements is. -/
theorem mapM_eq_ok {l : List α} {bs : List β} :
    l.mapM f = .ok bs ↔ List.Forall₂ (fun a b => f a = .ok b) l bs := by
  induction l generalizing bs with
  | nil =>
    constructor
    · intro h; cases h; exact .nil
    · intro h; cases h; rfl
  | cons a rest ih =>
    rw [List.mapM_cons]
    constructor
    · intro h
      obtain ⟨b,hb,h⟩ := bind_eq_ok.mp h
      obtain ⟨bs',hbs,h⟩ := bind_eq_ok.mp h
      cases h
      exact .cons hb (ih.mp hbs)
    · intro h
      cases h with
      | cons hb hbs => rw [hb,ok_bind,ih.mpr hbs]; rfl

theorem fail_ne_ok {e : ε} {a : α} : (fail e : Run ε α) ≠ .ok a := nofun

/-- A search through values that are related to the elements of another list. -/
theorem anyM_eq {R : β → α → Prop} {bs : List β} {l : List α} (h : List.Forall₂ R bs l)
    {q : β → Bool} (hp : ∀ b a, R b a → p a = .ok (q b)) : l.anyM p = .ok (bs.any q) := by
  induction h with
  | nil => rfl
  | @cons b a _ _ hab _ ih =>
    rw [List.anyM,hp b a hab,ok_bind,List.any_cons]
    cases q b with
    | true => rfl
    | false => rw [ih]; rfl

end Lists
end Run
end Nefor
