import Nefor.Json.Value

/-! Equality of JSON documents is decidable. -/
namespace Nefor.Json

mutual
def beq : Json → Json → Bool
  | null, null => true
  | bool a, bool b => a == b
  | number m, number n => m == n
  | string s, string t => s == t
  | array xs, array ys => beqItems xs ys
  | object fs, object gs => beqFields fs gs
  | _, _ => false
def beqItems : List Json → List Json → Bool
  | [], [] => true
  | x :: xs, y :: ys => beq x y && beqItems xs ys
  | _, _ => false
def beqFields : List (String × Json) → List (String × Json) → Bool
  | [], [] => true
  | (k,x) :: fs, (l,y) :: gs => k == l && beq x y && beqFields fs gs
  | _, _ => false
end

theorem beqItems_iff {xs ys : List Json} (h : ∀ x ∈ xs, ∀ y, beq x y ↔ x = y) :
    beqItems xs ys ↔ xs = ys := by
  induction xs generalizing ys with
  | nil => cases ys <;> simp [beqItems]
  | cons x xs ih =>
    obtain ⟨hx,hxs⟩ := List.forall_mem_cons.mp h
    cases ys with
    | nil => simp [beqItems]
    | cons y ys => rw [beqItems,Bool.and_eq_true,hx,ih hxs,List.cons.injEq]

theorem beqFields_iff {fs gs : Object} (h : ∀ f ∈ fs, ∀ y, beq f.2 y ↔ f.2 = y) :
    beqFields fs gs ↔ fs = gs := by
  induction fs generalizing gs with
  | nil => cases gs <;> simp [beqFields]
  | cons f fs ih =>
    obtain ⟨hf,hfs⟩ := List.forall_mem_cons.mp h
    cases gs with
    | nil => simp [beqFields]
    | cons g gs =>
      rw [beqFields,Bool.and_eq_true,Bool.and_eq_true,hf,ih hfs,List.cons.injEq,Prod.ext_iff,beq_iff_eq]

theorem beq_iff (x y : Json) : beq x y ↔ x = y := by
  induction x using Json.induct generalizing y with
  | array items ih => cases y <;> simp [beq,beqItems_iff ih]
  | object fields ih => cases y <;> simp [beq,beqFields_iff ih]
  | _ => cases y <;> simp [beq]

instance : DecidableEq Json := fun x y => decidable_of_iff (beq x y) (beq_iff x y)

end Nefor.Json
