import Mathlib.Data.List.Infix
import Nefor.Throughout

/-! Lists in which some elements open a window and some close it. Each element is stamped with
whether the window is open at it: the one that opens the window is in it, the one that closes it
is not. -/
namespace Nefor
namespace Window
variable {α β : Type}

/-- The window after a list: an element that marks it opens or closes it. -/
def final (mark : α → Option Bool) (opened : Bool) (xs : List α) : Bool :=
  xs.foldl (fun opened x => (mark x).getD opened) opened

def stamped (mark : α → Option Bool) : Bool → List α → List (α × Bool)
  | _, [] => []
  | opened, x :: rest =>
    let opened := (mark x).getD opened
    (x,opened) :: stamped mark opened rest

variable {mark : α → Option Bool} {opened : Bool} {xs ys : List α} {x : α}

@[simp] theorem final_nil : final mark opened [] = opened := rfl

@[simp] theorem final_cons :
    final mark opened (x :: xs) = final mark ((mark x).getD opened) xs := rfl

theorem final_append : final mark opened (xs ++ ys) = final mark (final mark opened xs) ys :=
  List.foldl_append

theorem final_snoc : final mark opened (xs ++ [x]) = (mark x).getD (final mark opened xs) := by
  rw [final_append]
  rfl

@[simp] theorem stamped_nil : stamped mark opened [] = [] := rfl

@[simp] theorem stamped_cons : stamped mark opened (x :: xs) =
    (x,(mark x).getD opened) :: stamped mark ((mark x).getD opened) xs := rfl

theorem stamped_append : stamped mark opened (xs ++ ys) =
    stamped mark opened xs ++ stamped mark (final mark opened xs) ys := by
  induction xs generalizing opened with
  | nil => rfl
  | cons x xs ih => simp [ih]

theorem stamped_snoc : stamped mark opened (xs ++ [x]) =
    stamped mark opened xs ++ [(x,final mark opened (xs ++ [x]))] := by
  rw [stamped_append,final_snoc]
  rfl

/-- Stamping changes nothing else. -/
@[simp] theorem stamped_map_fst : (stamped mark opened xs).map Prod.fst = xs := by
  induction xs generalizing opened with
  | nil => rfl
  | cons x xs ih => simp [ih]

theorem filter_stamped_map_fst (p : α → Bool) :
    ((stamped mark opened xs).filter fun x => p x.1).map Prod.fst = xs.filter p := by
  induction xs generalizing opened with
  | nil => rfl
  | cons x xs ih =>
    by_cases hp : p x = true
    · simp [hp,ih]
    · simp [hp,ih]

/-- Elements that mark nothing may be left out. -/
theorem final_filter {p : α → Bool} (h : ∀ x ∈ xs, p x = false → mark x = none) :
    final mark opened (xs.filter p) = final mark opened xs := by
  induction xs generalizing opened with
  | nil => rfl
  | cons x xs ih =>
    have hrest : ∀ b, final mark b (xs.filter p) = final mark b xs :=
      fun _ => ih fun y hy => h y (List.mem_cons_of_mem _ hy)
    cases hp : p x with
    | true => simp [List.filter_cons_of_pos,hp,hrest]
    | false =>
      have hmark : mark x = none := h x List.mem_cons_self hp
      simp [hp,hmark,hrest]

/-- Whether an element shows the same window to one who reads `p` only. -/
def SameAt (mark : α → Option Bool) (opened : Bool) (p q : α → Bool) (before : List α) (x : α) :
    Prop :=
  q x = true → final mark opened ((before ++ [x]).filter p) = final mark opened (before ++ [x])

instance {p q : α → Bool} {before : List α} : Decidable (SameAt mark opened p q before x) :=
  inferInstanceAs (Decidable (_ → _))

/-- A reader of `p` alone, who looks at `q`, sees the stamps of the whole list exactly when the
windows are the same at each element looked at. -/
theorem filter_stamped_iff {p q : α → Bool} (hqp : ∀ x, q x = true → p x = true) :
    (stamped mark opened (xs.filter p)).filter (fun x => q x.1) =
        (stamped mark opened xs).filter (fun x => q x.1) ↔
      Throughout (SameAt mark opened p q) xs := by
  induction xs using List.reverseRecOn with
  | nil => simp [Throughout.nil]
  | append_singleton xs x ih =>
    rw [Throughout.snoc,← ih,stamped_snoc,List.filter_append,List.filter_append]
    cases hq : q x with
    | false =>
      have hsame : SameAt mark opened p q xs x := fun h => by simp [hq] at h
      cases hp : p x with
      | false => simp [hp,hq,hsame]
      | true => simp [hp,hq,hsame,stamped_snoc]
    | true =>
      have hp : p x = true := hqp x hq
      have hlast : ([x] : List α).filter p = [x] := by simp [hp]
      rw [hlast,stamped_snoc,List.filter_append]
      simp only [List.filter_cons,hq,if_true,List.filter_nil]
      have hsame : SameAt mark opened p q xs x ↔
          final mark opened (xs.filter p ++ [x]) = final mark opened (xs ++ [x]) := by
        simp [SameAt,hq,List.filter_append,hp]
      rw [hsame]
      constructor
      · intro h
        obtain ⟨hrest,hx⟩ := List.append_inj' h rfl
        refine ⟨hrest,?_⟩
        simpa using hx
      · rintro ⟨hrest,hx⟩
        rw [hrest,hx]

end Window
end Nefor
