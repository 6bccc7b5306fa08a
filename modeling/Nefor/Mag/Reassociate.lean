import Nefor.Precedence

/-! Infix expressions are read with the operands and operators in a row, and made a tree by the
fixities of the operators (`new_syntax.rs`). -/
namespace Nefor.Mag.NewSyntax
variable {α : Type}

structure ByteSpan where
  start : Nat
  stop : Nat
  deriving DecidableEq, Repr

structure Fixity where
  precedence : UInt8
  associativity : Associativity
  span : ByteSpan
  deriving DecidableEq, Repr

/-- Expressions, with all that is no call and no name left as it is. -/
inductive Expr (α : Type)
  | other (expression : α)
  | name (name : String)
  | call (callee : Expr α) (typeArgs : Option (List α)) (args : List (Expr α))
  deriving Repr

structure ParseError where
  code : String
  message : String
  span : ByteSpan
  related : Option (String × ByteSpan)
  deriving DecidableEq, Repr

/-- The name of an operator, and where it stands. -/
abbrev Operator := String × ByteSpan

/-- An operator without a declaration is left, of the highest precedence. -/
def fixityOf (fixities : String → Option Fixity) (operator : Operator) : Fixity :=
  (fixities operator.1).getD ⟨9,.left,operator.2⟩

/-- `here`, with the span of the next token. -/
def internalError (peek : ByteSpan) (what : String) : ParseError :=
  ⟨"MAG2001","internal parser error: " ++ what,peek,none⟩

def conflictError (topName : String) (top : Fixity) (operator : Operator) (fixity : Fixity) : ParseError where
  code := "MAG2010"
  message := "conflicting fixities for '" ++ topName ++ "' and '" ++ operator.1 ++ "' at precedence " ++
    toString fixity.precedence.toNat
  span := operator.2
  related := some ("'" ++ topName ++ "' fixity declared here",top.span)

def applied (operator : String) (left right : Expr α) : Expr α := .call (.name operator) none [left,right]

/-- The stack of values has its top first. -/
def reduceOperator : List (Expr α) → String → Option (List (Expr α))
  | right :: left :: rest, operator => some (applied operator left right :: rest)
  | _, _ => none

abbrev Stacks (α : Type) := List (String × Fixity) × List (Expr α)

/-- The inner loop: the operators that bind tighter than the next one are applied. -/
def reduceTighter (peek : ByteSpan) (operator : Operator) (fixity : Fixity) :
    List (String × Fixity) → List (Expr α) → Except ParseError (Stacks α)
  | [], values => .ok ([],values)
  | (topName,top) :: rest, values =>
    if top.precedence = fixity.precedence ∧
        (top.associativity ≠ fixity.associativity ∨ top.associativity = .none) then
      .error (conflictError topName top operator fixity)
    else if fixity.precedence < top.precedence ∨
        top.precedence = fixity.precedence ∧ fixity.associativity = .left then
      match reduceOperator values topName with
      | none => .error (internalError peek "incomplete infix expression")
      | some values => reduceTighter peek operator fixity rest values
    else .ok ((topName,top) :: rest,values)

/-- The loop over the operators, from an index on. -/
def pushOperators (fixities : String → Option Fixity) (peek : ByteSpan) (operands : List (Expr α)) :
    Nat → List Operator → Stacks α → Except ParseError (Stacks α)
  | _, [], stacked => .ok stacked
  | index, operator :: rest, (stack,values) =>
    let fixity := fixityOf fixities operator
    match reduceTighter peek operator fixity stack values with
    | .error error => .error error
    | .ok (stack,values) =>
      match operands[index + 1]? with
      | none => .error (internalError peek "missing right operand")
      | some operand =>
        pushOperators fixities peek operands (index + 1) rest
          ((operator.1,fixity) :: stack,operand :: values)

/-- The last loop. -/
def reduceAll (peek : ByteSpan) : List (String × Fixity) → List (Expr α) → Except ParseError (List (Expr α))
  | [], values => .ok values
  | (operator,_) :: rest, values =>
    match reduceOperator values operator with
    | none => .error (internalError peek "incomplete infix expression")
    | some values => reduceAll peek rest values

def finish (peek : ByteSpan) (stacked : Stacks α) : Except ParseError (Expr α) :=
  match reduceAll peek stacked.1 stacked.2 with
  | .error error => .error error
  | .ok [] => .error (internalError peek "infix expression produced no value")
  | .ok (value :: _) => .ok value

def reassociate (fixities : String → Option Fixity) (peek : ByteSpan) (operands : List (Expr α))
    (operators : List Operator) : Except ParseError (Expr α) :=
  if operators = [] then
    match operands.head? with
    | none => .error (internalError peek "expression has no operand")
    | some operand => .ok operand
  else
    match operands.head? with
    | none => .error (internalError peek "infix expression has no operand")
    | some first =>
      match pushOperators fixities peek operands 0 operators ([],[first]) with
      | .error error => .error error
      | .ok stacked => finish peek stacked

/-! Trees of operators. -/

abbrev Tree (α : Type) := Infix Operator (Expr α)

def toExpr : Tree α → Expr α
  | .leaf operand => operand
  | .node operator left right => applied operator.1 (toExpr left) (toExpr right)

section
variable (fixities : String → Option Fixity)

def precedence (operator : Operator) : Nat := (fixityOf fixities operator).precedence.toNat

def associativity (operator : Operator) : Associativity := (fixityOf fixities operator).associativity

/-- A tree reads the operands and operators as they stand, and every operator may stand where it
stands in the tree. -/
structure Reads (operands : List (Expr α)) (operators : List Operator) (t : Tree α) : Prop where
  operands : t.leaves = operands
  operators : t.nodes = operators
  bound : t.Bound (precedence fixities) (associativity fixities)

abbrev LeftOf := Infix.LeftOf (precedence fixities) (associativity fixities)
abbrev RightOf := Infix.RightOf (precedence fixities) (associativity fixities)
abbrev Conflict := Infix.Conflict (precedence fixities) (associativity fixities)

def entry (operator : Operator) : String × Fixity := (operator.1,fixityOf fixities operator)

/-- The operators on the stack and the trees below the top of the values: each tree may stand to
the left of its operator, and all that is above an operator may stand to its right. -/
def Stacked : List Operator → List (Tree α) → Tree α → Prop
  | [], [], top => top.Bound (precedence fixities) (associativity fixities)
  | o :: os, t :: ts, top =>
    top.Bound (precedence fixities) (associativity fixities) ∧
      (∀ child ∈ t.root?, LeftOf fixities child o) ∧ (∀ child ∈ top.root?, RightOf fixities child o) ∧
      (∀ below ∈ os.head?, RightOf fixities o below) ∧ Stacked os ts t
  | _, _, _ => False

end

/-- The operands that have been read. -/
def readOperands : List (Tree α) → List (Expr α)
  | [] => []
  | t :: ts => readOperands ts ++ t.leaves

/-- The operators that have been read, without those in the tree at the top. -/
def readOperators : List Operator → List (Tree α) → List Operator
  | o :: os, t :: ts => readOperators os ts ++ t.nodes ++ [o]
  | _, _ => []

variable {fixities : String → Option Fixity}

theorem Stacked.top {os : List Operator} {ts : List (Tree α)} {top : Tree α}
    (h : Stacked fixities os ts top) : top.Bound (precedence fixities) (associativity fixities) := by
  cases os with
  | nil =>
    cases ts with
    | nil => exact h
    | cons t ts => exact h.elim
  | cons o os =>
    cases ts with
    | nil => exact h.elim
    | cons t ts => exact h.1

/-- The operator at the top is applied. -/
theorem Stacked.reduce {o : Operator} {os : List Operator} {t top : Tree α} {ts : List (Tree α)}
    (h : Stacked fixities (o :: os) (t :: ts) top) : Stacked fixities os ts (.node o t top) := by
  obtain ⟨htop,hl,hr,hbelow,hrest⟩ := h
  have hnode : (Infix.node o t top).Bound (precedence fixities) (associativity fixities) :=
    ⟨hrest.top,htop,hl,hr⟩
  cases os with
  | nil =>
    cases ts with
    | nil => exact hnode
    | cons t ts => exact hrest.elim
  | cons below os =>
    cases ts with
    | nil => exact hrest.elim
    | cons t' ts =>
      obtain ⟨-,hl',-,hbelow',hrest'⟩ := hrest
      refine ⟨hnode,hl',?_,hbelow',hrest'⟩
      rintro child ⟨⟩
      exact hbelow below rfl

/-- What the inner loop gives. -/
def Reduced (fixities : String → Option Fixity) (os : List Operator) (ts : List (Tree α)) (top : Tree α)
    (next : Operator) : Except ParseError (Stacks α) → Prop
  | .error error => ∃ before first between,
      readOperators os ts ++ top.nodes = before ++ first :: between ∧ Conflict fixities first next ∧
      (∀ o ∈ between, precedence fixities first < precedence fixities o) ∧
      error = conflictError first.1 (fixityOf fixities first) next (fixityOf fixities next)
  | .ok stacked => ∃ os' ts' top', stacked = (os'.map (entry fixities),(top' :: ts').map toExpr) ∧
      Stacked fixities os' ts' top' ∧ (∀ child ∈ top'.root?, LeftOf fixities child next) ∧
      (∀ o ∈ os'.head?, RightOf fixities next o) ∧
      readOperators os' ts' ++ top'.nodes = readOperators os ts ++ top.nodes ∧
      readOperands (top' :: ts') = readOperands (top :: ts)

theorem reduceTighter_spec (peek : ByteSpan) {os : List Operator} {ts : List (Tree α)} {top : Tree α}
    (next : Operator) (h : Stacked fixities os ts top) (hn : ∀ child ∈ top.root?, LeftOf fixities child next) :
    Reduced fixities os ts top next (reduceTighter peek next (fixityOf fixities next)
      (os.map (entry fixities)) ((top :: ts).map toExpr)) := by
  induction os generalizing ts top with
  | nil => exact ⟨[],ts,top,rfl,h,hn,by simp,rfl,rfl⟩
  | cons o os ih =>
    cases ts with
    | nil => exact h.elim
    | cons t ts =>
      have hred := h.reduce
      obtain ⟨htop,hl,hr,hbelow,hrest⟩ := h
      have hprec : ∀ a b : Operator, (fixityOf fixities a).precedence = (fixityOf fixities b).precedence ↔
          precedence fixities a = precedence fixities b := fun a b => UInt8.toNat_inj.symm
      have hlt : ∀ a b : Operator, (fixityOf fixities a).precedence < (fixityOf fixities b).precedence ↔
          precedence fixities a < precedence fixities b := fun a b => UInt8.lt_iff_toNat_lt
      rw [List.map_cons,entry,reduceTighter]
      simp only [hprec,hlt]
      split
      · rename_i hconflict
        refine ⟨readOperators os ts ++ t.nodes,o,top.nodes,by simp [readOperators],hconflict,?_,rfl⟩
        -- What is between the two stands right of the one and left of the other, which only a
        -- tighter operator may.
        intro p hp
        cases top with
        | leaf operand => cases hp
        | node child l r =>
          have hle := (htop.under rfl hp).1
          obtain hlt | ⟨he,h1,h2⟩ := hr child rfl
          · omega
          · obtain hlt | ⟨he',h3,h4⟩ := hn child rfl
            · have := hconflict.1
              omega
            · rw [h1] at h3
              cases h3
      · rename_i hno
        split
        · rename_i hreduce
          have hleft : LeftOf fixities o next := by
            obtain hlt | ⟨he,ha⟩ := hreduce
            · exact .inl hlt
            · refine .inr ⟨he,?_,ha⟩
              by_contra hne
              exact hno ⟨he,.inl fun hsame => hne (hsame.trans ha)⟩
          have hgo := ih hred (by
            rintro child ⟨⟩
            exact hleft)
          simp only [List.map_cons,toExpr] at hgo
          simp only [List.map_cons,reduceOperator]
          have hnodes : readOperators os ts ++ (Infix.node o t top).nodes =
              readOperators (o :: os) (t :: ts) ++ top.nodes := by
            simp [readOperators,Infix.nodes]
          have hleaves : readOperands (Infix.node o t top :: ts) = readOperands (top :: t :: ts) := by
            simp [readOperands,Infix.leaves]
          unfold Reduced at hgo ⊢
          rw [hnodes,hleaves] at hgo
          exact hgo
        · rename_i hkeep
          refine ⟨o :: os,t :: ts,top,rfl,⟨htop,hl,hr,hbelow,hrest⟩,hn,?_,rfl,rfl⟩
          rintro p ⟨⟩
          obtain hlt | he := Nat.lt_or_ge (precedence fixities o) (precedence fixities next)
          · exact .inl hlt
          · have hsame : precedence fixities o = precedence fixities next := by
              by_contra hne
              exact hkeep (.inl (by omega))
            have hnl : associativity fixities next ≠ .left := fun ha => hkeep (.inr ⟨hsame,ha⟩)
            have hso : associativity fixities o = associativity fixities next := by
              by_contra hne
              exact hno ⟨hsame,.inl hne⟩
            have hnn : associativity fixities o ≠ .none := fun ha => hno ⟨hsame,.inr ha⟩
            have hright : associativity fixities next = .right := by
              cases ha : associativity fixities next with
              | left => exact absurd ha hnl
              | right => rfl
              | none => exact absurd (hso.trans ha) hnn
            exact .inr ⟨hsame.symm,hright,hso.trans hright⟩

/-- Two operators of a row conflict, with only tighter ones between them. -/
def Clash (fixities : String → Option Fixity) (operators : List Operator) (error : ParseError) : Prop :=
  ∃ before first between second after, operators = before ++ first :: (between ++ second :: after) ∧
    Conflict fixities first second ∧ (∀ o ∈ between, precedence fixities first < precedence fixities o) ∧
    error = conflictError first.1 (fixityOf fixities first) second (fixityOf fixities second)

/-- What the loop over the operators gives. -/
def Pushed (fixities : String → Option Fixity) (operands : List (Expr α)) (operators : List Operator) :
    Except ParseError (Stacks α) → Prop
  | .error error => Clash fixities operators error
  | .ok stacked => ∃ os ts top, stacked = (os.map (entry fixities),(top :: ts).map toExpr) ∧
      Stacked fixities os ts top ∧ readOperators os ts ++ top.nodes = operators ∧
      readOperands (top :: ts) = operands

theorem pushOperators_spec (peek : ByteSpan) {operands rest : List (Expr α)} {operators : List Operator} {os : List Operator}
    {ts : List (Tree α)} {operand : Expr α} (h : Stacked fixities os ts (.leaf operand)) {index : Nat}
    (hl : readOperands (.leaf operand :: ts) ++ rest = operands) (hr : rest.length = operators.length)
    (hi : (readOperands (.leaf operand :: ts)).length = index + 1) :
    Pushed fixities operands (readOperators os ts ++ operators)
      (pushOperators fixities peek operands index operators
        (os.map (entry fixities),((.leaf operand : Tree α) :: ts).map toExpr)) := by
  induction operators generalizing rest os ts operand index with
  | nil =>
    rw [List.length_eq_zero_iff.mp hr,List.append_nil] at hl
    exact ⟨os,ts,.leaf operand,rfl,h,rfl,hl⟩
  | cons next operators ih =>
    have hred := reduceTighter_spec peek next h (by
      intro child hc
      cases hc)
    rw [pushOperators]
    split
    · rename_i error heq
      rw [heq] at hred
      obtain ⟨before,first,between,hnodes,hconflict,htight,rfl⟩ := hred
      refine ⟨before,first,between,next,operators,?_,hconflict,htight,rfl⟩
      rw [Infix.nodes,List.append_nil] at hnodes
      rw [hnodes]
      simp
    · rename_i stack values heq
      rw [heq] at hred
      obtain ⟨os',ts',top',hstacks,hstacked,hleft,hright,hnodes,hleaves⟩ := hred
      cases hstacks
      cases rest with
      | nil => cases hr
      | cons second rest =>
        have hget : operands[index + 1]? = some second := by
          rw [← hl,← hi]
          simp
        rw [hget]
        have hnext : Stacked fixities (next :: os') (top' :: ts') (.leaf second) :=
          ⟨trivial,hleft,fun _ hc => absurd hc (Option.not_mem_none _),hright,hstacked⟩
        have hpending : readOperators os ts ++ next :: operators =
            readOperators (next :: os') (top' :: ts') ++ operators := by
          rw [readOperators,hnodes]
          simp [Infix.nodes]
        rw [hpending]
        apply ih hnext
        · rw [← hl,readOperands,hleaves,List.append_assoc]
          rfl
        · exact Nat.succ.inj hr
        · rw [readOperands,hleaves,List.length_append,hi]
          rfl

theorem reduceAll_spec (peek : ByteSpan) {os : List Operator} {ts : List (Tree α)} {top : Tree α}
    (h : Stacked fixities os ts top) : ∃ t : Tree α,
      reduceAll peek (os.map (entry fixities)) ((top :: ts).map toExpr) = .ok [toExpr t] ∧
      Reads fixities (readOperands (top :: ts)) (readOperators os ts ++ top.nodes) t := by
  induction os generalizing ts top with
  | nil =>
    cases ts with
    | nil => exact ⟨top,rfl,by simp [readOperands],by simp [readOperators],h⟩
    | cons t ts => exact h.elim
  | cons o os ih =>
    cases ts with
    | nil => exact h.elim
    | cons t ts =>
      obtain ⟨whole,heq,hleaves,hnodes,hbound⟩ := ih h.reduce
      refine ⟨whole,heq,?_,?_,hbound⟩
      · rw [hleaves]
        simp [readOperands,Infix.leaves]
      · rw [hnodes]
        simp [readOperators,Infix.nodes]

/-- What reading a row of operands and operators gives: its tree, or two operators that clash. -/
theorem reassociate_spec (fixities : String → Option Fixity) (peek : ByteSpan) {operands : List (Expr α)}
    {operators : List Operator} (h : operands.length = operators.length + 1) :
    (∃ t, Reads fixities operands operators t ∧ reassociate fixities peek operands operators = .ok (toExpr t)) ∨
      ∃ error, Clash fixities operators error ∧ reassociate fixities peek operands operators = .error error := by
  cases operands with
  | nil => cases h
  | cons first rest =>
    have hr : rest.length = operators.length := Nat.succ.inj h
    unfold reassociate
    split
    · rename_i hnil
      subst hnil
      obtain rfl := List.length_eq_zero_iff.mp hr
      exact .inl ⟨.leaf first,⟨rfl,rfl,trivial⟩,rfl⟩
    · have hstart : Stacked fixities [] [] (.leaf first) := trivial
      have hpush : Pushed fixities (first :: rest) (readOperators [] ([] : List (Tree α)) ++ operators)
          (pushOperators fixities peek (first :: rest) 0 operators
            (([] : List Operator).map (entry fixities),([.leaf first] : List (Tree α)).map toExpr)) :=
        pushOperators_spec peek hstart rfl hr rfl
      simp only [List.head?_cons]
      simp only [List.map_nil,List.map_cons,toExpr] at hpush
      split
      · rename_i error heq
        rw [heq] at hpush
        exact .inr ⟨error,hpush,rfl⟩
      · rename_i stacked heq
        rw [heq] at hpush
        obtain ⟨os,ts,top,rfl,hstacked,hnodes,hleaves⟩ := hpush
        obtain ⟨t,hreduce,hreads⟩ := reduceAll_spec peek hstacked
        rw [hnodes,hleaves] at hreads
        refine .inl ⟨t,hreads,?_⟩
        rw [finish]
        simp only [hreduce]

/-- Reading succeeds exactly when one tree reads the row, and gives that tree; what else it gives
is the conflict of two operators. -/
theorem reassociate_exact (fixities : String → Option Fixity) (peek : ByteSpan) (operands : List (Expr α))
    (operators : List Operator) (h : operands.length = operators.length + 1) :
    ((∃ e, reassociate fixities peek operands operators = .ok e) ↔ ∃! t, Reads fixities operands operators t) ∧
    (∀ t, Reads fixities operands operators t → reassociate fixities peek operands operators = .ok (toExpr t)) ∧
    ∀ error, reassociate fixities peek operands operators = .error error → error.code = "MAG2010" ∧
      Clash fixities operators error := by
  have hunique : ∀ s t, Reads fixities operands operators s → Reads fixities operands operators t → s = t :=
    fun s t hs ht => hs.bound.unique ht.bound (hs.operands.trans ht.operands.symm)
      (hs.operators.trans ht.operators.symm)
  obtain ⟨t,ht,hok⟩ | ⟨error,hclash,herror⟩ := reassociate_spec fixities peek h
  · rw [hok]
    refine ⟨⟨fun _ => ⟨t,ht,fun s hs => hunique s t hs ht⟩,fun _ => ⟨_,rfl⟩⟩,?_,?_⟩
    · intro s hs
      rw [hunique s t hs ht]
    · intro error he
      cases he
  · have hnone : ∀ t, ¬ Reads fixities operands operators t := by
      intro t ht
      obtain ⟨before,first,between,second,after,hops,hconflict,htight,-⟩ := hclash
      exact ht.bound.no_conflict (ht.operators.trans hops) htight hconflict
    rw [herror]
    refine ⟨⟨?_,?_⟩,fun t ht => absurd ht (hnone t),?_⟩
    · rintro ⟨e,he⟩
      cases he
    · rintro ⟨t,ht,-⟩
      exact absurd ht (hnone t)
    · intro other he
      cases he
      obtain ⟨before,first,between,second,after,-,-,-,rfl⟩ := id hclash
      exact ⟨rfl,hclash⟩

/-- A declaration for one operator each: `*` binds tighter than `+`, which is left. -/
def arithmetic : String → Option Fixity
  | "+" => some ⟨6,.left,⟨0,0⟩⟩
  | "*" => some ⟨7,.left,⟨0,0⟩⟩
  | _ => none

/-- `a + b * c`. -/
theorem reassociate_exact_arithmetic :
    (∃ e, reassociate arithmetic ⟨9,9⟩ [.other "a",.other "b",.other "c"] [("+",⟨2,3⟩),("*",⟨6,7⟩)] = .ok e) ∧
      ∃! t, Reads arithmetic [.other "a",.other "b",.other "c"] [("+",⟨2,3⟩),("*",⟨6,7⟩)] t := by
  have h := reassociate_exact arithmetic ⟨9,9⟩ [.other "a",.other "b",.other "c"] [("+",⟨2,3⟩),("*",⟨6,7⟩)] rfl
  have hok : ∃ e, reassociate arithmetic ⟨9,9⟩ [.other "a",.other "b",.other "c"] [("+",⟨2,3⟩),("*",⟨6,7⟩)] =
      .ok e := ⟨_,rfl⟩
  exact ⟨hok,h.1.mp hok⟩

end Nefor.Mag.NewSyntax
