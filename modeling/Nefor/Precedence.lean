import Mathlib.Tactic.Common

/-! Trees of infix operators, and which of them the precedences of the operators allow. -/
namespace Nefor

inductive Associativity
  | left
  | right
  | none
  deriving DecidableEq, Repr

/-- Operators between operands. -/
inductive Infix (ω α : Type)
  | leaf (operand : α)
  | node (operator : ω) (left right : Infix ω α)
  deriving DecidableEq, Repr

namespace Infix
variable {ω α : Type}

/-- The operands from left to right. -/
def leaves : Infix ω α → List α
  | leaf operand => [operand]
  | node _ left right => leaves left ++ leaves right

/-- The operators from left to right. -/
def nodes : Infix ω α → List ω
  | leaf _ => []
  | node operator left right => nodes left ++ operator :: nodes right

/-- The operator that is applied last. -/
def root? : Infix ω α → Option ω
  | leaf _ => none
  | node operator _ _ => some operator

theorem length_leaves (t : Infix ω α) : t.leaves.length = t.nodes.length + 1 := by
  induction t with
  | leaf operand => rfl
  | node operator left right ihl ihr =>
    simp only [leaves,nodes,List.length_append,List.length_cons,ihl,ihr]
    omega

section
variable (precedence : ω → Nat) (associativity : ω → Associativity)

/-- An operator may stand to the left of another, under it. -/
def LeftOf (child parent : ω) : Prop :=
  precedence parent < precedence child ∨ precedence child = precedence parent ∧
    associativity child = .left ∧ associativity parent = .left

/-- An operator may stand to the right of another, under it. -/
def RightOf (child parent : ω) : Prop :=
  precedence parent < precedence child ∨ precedence child = precedence parent ∧
    associativity child = .right ∧ associativity parent = .right

/-- Every operator may stand where it stands. -/
def Bound : Infix ω α → Prop
  | leaf _ => True
  | node operator left right => Bound left ∧ Bound right ∧
      (∀ child ∈ left.root?, LeftOf precedence associativity child operator) ∧
      ∀ child ∈ right.root?, RightOf precedence associativity child operator

/-- Two operators of one precedence that are not both left and not both right. -/
def Conflict (first second : ω) : Prop :=
  precedence first = precedence second ∧
    (associativity first ≠ associativity second ∨ associativity first = .none)

end

variable {precedence : ω → Nat} {associativity : ω → Associativity}

/-- What is under an operator binds at least as tight, and what binds as tight as it is of its
own associativity. -/
theorem Bound.under {t : Infix ω α} (h : t.Bound precedence associativity) {root : ω} (hr : t.root? = some root)
    {o : ω} (ho : o ∈ t.nodes) : precedence root ≤ precedence o ∧
      (precedence o = precedence root → associativity o = associativity root) := by
  induction t generalizing root with
  | leaf operand => cases hr
  | node operator left right ihl ihr =>
    cases hr
    obtain ⟨hleft,hright,hl,hrt⟩ := h
    obtain ho | ho := List.mem_append.mp ho
    · cases left with
      | leaf operand => cases ho
      | node child l r =>
        obtain ⟨hle,heq⟩ := ihl hleft rfl ho
        obtain hlt | ⟨hsame,h1,h2⟩ := hl child rfl
        · exact ⟨by omega,fun he => by omega⟩
        · exact ⟨by omega,fun he => by rw [heq (by omega),h1,h2]⟩
    · obtain rfl | ho := List.mem_cons.mp ho
      · exact ⟨Nat.le_refl _,fun _ => rfl⟩
      · cases right with
        | leaf operand => cases ho
        | node child l r =>
          obtain ⟨hle,heq⟩ := ihr hright rfl ho
          obtain hlt | ⟨hsame,h1,h2⟩ := hrt child rfl
          · exact ⟨by omega,fun he => by omega⟩
          · exact ⟨by omega,fun he => by rw [heq (by omega),h1,h2]⟩

theorem Bound.left_under {operator : ω} {left right : Infix ω α}
    (h : (node operator left right).Bound precedence associativity) {o : ω} (ho : o ∈ left.nodes) :
    LeftOf precedence associativity o operator := by
  obtain ⟨hleft,-,hl,-⟩ := h
  cases left with
  | leaf operand => cases ho
  | node child l r =>
    obtain ⟨hle,heq⟩ := hleft.under rfl ho
    obtain hlt | ⟨hsame,h1,h2⟩ := hl child rfl
    · exact .inl (by omega)
    · obtain he | hlt := Nat.eq_or_lt_of_le hle
      · exact .inr ⟨by omega,by rw [heq he.symm,h1],h2⟩
      · exact .inl (by omega)

theorem Bound.right_under {operator : ω} {left right : Infix ω α}
    (h : (node operator left right).Bound precedence associativity) {o : ω} (ho : o ∈ right.nodes) :
    RightOf precedence associativity o operator := by
  obtain ⟨-,hright,-,hr⟩ := h
  cases right with
  | leaf operand => cases ho
  | node child l r =>
    obtain ⟨hle,heq⟩ := hright.under rfl ho
    obtain hlt | ⟨hsame,h1,h2⟩ := hr child rfl
    · exact .inl (by omega)
    · obtain he | hlt := Nat.eq_or_lt_of_le hle
      · exact .inr ⟨by omega,by rw [heq he.symm,h1],h2⟩
      · exact .inl (by omega)

theorem not_leftOf_and_rightOf {a b : ω} (hl : LeftOf precedence associativity a b)
    (hr : RightOf precedence associativity b a) : False := by
  obtain hlt | ⟨he,h1,h2⟩ := hl
  · obtain hlt' | ⟨he',-,-⟩ := hr <;> omega
  · obtain hlt' | ⟨-,h3,-⟩ := hr
    · omega
    · rw [h2] at h3
      cases h3

/-- There is one tree at most for given operands and operators. -/
theorem Bound.unique {s t : Infix ω α} (hs : s.Bound precedence associativity)
    (ht : t.Bound precedence associativity) (hl : s.leaves = t.leaves) (hn : s.nodes = t.nodes) : s = t := by
  induction s generalizing t with
  | leaf operand =>
    cases t with
    | leaf other =>
      cases hl
      rfl
    | node operator left right => simp [nodes] at hn
  | node operator left right ihl ihr =>
    cases t with
    | leaf other => simp [nodes] at hn
    | node other left' right' =>
      simp only [nodes] at hn
      -- The operator applied last stands at one place only: one to its left or to its right would
      -- stand above it in the other tree.
      have hlength : left.nodes.length = left'.nodes.length := by
        obtain ⟨more,hmore,hrest⟩ | ⟨more,hmore,hrest⟩ := List.append_eq_append_iff.mp hn
        · cases more with
          | nil => rw [hmore,List.append_nil]
          | cons o more =>
            obtain ⟨rfl,hrest'⟩ := List.cons_eq_cons.mp hrest
            have h1 := ht.left_under (hmore ▸ List.mem_append_right _ List.mem_cons_self)
            have hmem : other ∈ right.nodes := by simp [hrest']
            exact (not_leftOf_and_rightOf h1 (hs.right_under hmem)).elim
        · cases more with
          | nil => rw [hmore,List.append_nil]
          | cons o more =>
            obtain ⟨rfl,hrest'⟩ := List.cons_eq_cons.mp hrest
            have h1 := hs.left_under (hmore ▸ List.mem_append_right _ List.mem_cons_self)
            have hmem : operator ∈ right'.nodes := by simp [hrest']
            exact (not_leftOf_and_rightOf h1 (ht.right_under hmem)).elim
      obtain ⟨hnl,hnr⟩ := List.append_inj hn hlength
      obtain ⟨rfl,hnr'⟩ := List.cons_eq_cons.mp hnr
      obtain ⟨hll,hlr⟩ := List.append_inj hl (by rw [length_leaves,length_leaves,hlength])
      rw [ihl hs.1 ht.1 hll hnl,ihr hs.2.1 ht.2.1 hlr hnr']

theorem Conflict.not_leftOf {first second : ω} (h : Conflict precedence associativity first second) :
    ¬ LeftOf precedence associativity first second := by
  obtain ⟨hsame,hassoc⟩ := h
  rintro (hlt | ⟨-,h1,h2⟩)
  · omega
  · rw [h1,h2] at hassoc
    simp at hassoc

theorem Conflict.not_rightOf {first second : ω} (h : Conflict precedence associativity first second) :
    ¬ RightOf precedence associativity second first := by
  obtain ⟨hsame,hassoc⟩ := h
  rintro (hlt | ⟨-,h1,h2⟩)
  · omega
  · rw [h1,h2] at hassoc
    simp at hassoc

/-- There is no tree when two operators conflict and all that stands between them binds tighter. -/
theorem Bound.no_conflict {t : Infix ω α} (h : t.Bound precedence associativity) {before between after : List ω}
    {first second : ω} (hn : t.nodes = before ++ first :: (between ++ second :: after))
    (hb : ∀ o ∈ between, precedence first < precedence o) :
    ¬ Conflict precedence associativity first second := by
  intro hc
  induction t generalizing before after with
  | leaf operand => simp [nodes] at hn
  | node operator left right ihl ihr =>
    simp only [nodes] at hn
    obtain ⟨more,hmore,hrest⟩ | ⟨more,hmore,hrest⟩ := List.append_eq_append_iff.mp hn
    · cases more with
      | nil =>
        obtain ⟨rfl,hright⟩ := List.cons_eq_cons.mp hrest
        exact hc.not_rightOf (h.right_under (hright ▸ List.mem_append_right _ List.mem_cons_self))
      | cons o more =>
        obtain ⟨rfl,hright⟩ := List.cons_eq_cons.mp hrest
        exact ihr h.2.1 hright
    · cases more with
      | nil =>
        obtain ⟨rfl,hright⟩ := List.cons_eq_cons.mp hrest
        exact hc.not_rightOf (h.right_under (hright ▸ List.mem_append_right _ List.mem_cons_self))
      | cons o more =>
        -- The first of the two stands in the left part; the second is there, at the top or beyond it.
        obtain ⟨rfl,hright⟩ := List.cons_eq_cons.mp hrest
        have hfirst := h.left_under (hmore ▸ List.mem_append_right _ List.mem_cons_self)
        obtain ⟨tail,htail,hafter⟩ | ⟨tail,htail,hafter⟩ := List.append_eq_append_iff.mp hright
        · cases tail with
          | nil =>
            obtain ⟨rfl,-⟩ := List.cons_eq_cons.mp hafter
            exact hc.not_leftOf hfirst
          | cons p tail =>
            obtain ⟨rfl,hafter'⟩ := List.cons_eq_cons.mp hafter
            exact ihl h.1 (hmore.trans (by rw [htail]))
        · cases tail with
          | nil =>
            obtain ⟨rfl,-⟩ := List.cons_eq_cons.mp hafter
            exact hc.not_leftOf hfirst
          | cons p tail =>
            obtain ⟨rfl,-⟩ := List.cons_eq_cons.mp hafter
            have hlt := hb operator (htail ▸ List.mem_append_right _ List.mem_cons_self)
            obtain hlt' | ⟨he,-,-⟩ := hfirst <;> omega

end Infix
end Nefor
