import Nefor.Tool.Pattern

/-! The documented grammar of patterns, as texts with what they stand for. -/
namespace Nefor.Tool

/-- The escapes by a letter. -/
def letterEscapes : List (UInt8 × Escaped) :=
  [(byte 'd',.test .digit false),(byte 'D',.test .digit true),(byte 'w',.test .word false),
    (byte 'W',.test .word true),(byte 's',.test .space false),(byte 'S',.test .space true),
    (byte 'n',.byte 10),(byte 'r',.byte 13),(byte 't',.byte 9)]

/-- What a byte stands for after a backslash. -/
def Escapes (char : UInt8) (escaped : Escaped) : Prop :=
  (char,escaped) ∈ letterEscapes ∨ isPunctuation char = true ∧ escaped = .byte char

/-! Classes. -/

/-- A byte of a class, but for some that must be escaped. -/
inductive Single (excluded : List UInt8) : Bytes → UInt8 → Prop
  | plain {char : UInt8} : char ≠ byte '\\' → char ∉ excluded → Single excluded [char] char
  | escaped {char b : UInt8} : Escapes char (.byte b) → Single excluded [byte '\\',char] b

/-- A dash that is not the last byte of a class. -/
def StartsRange (text : Bytes) : Prop := ∃ char rest, text = byte '-' :: char :: rest ∧ char ≠ byte ']'

inductive Members : Bytes → List Item → Prop
  | nil : Members [] []
  | test {char : UInt8} {kind : Kind} {negate : Bool} {rest : Bytes} {items : List Item} :
    Escapes char (.test kind negate) → Members rest items →
      Members (byte '\\' :: char :: rest) (.test kind negate :: items)
  | single {text rest : Bytes} {b : UInt8} {items : List Item} : Single [byte ']',byte '['] text b →
    ¬ StartsRange rest → Members rest items → Members (text ++ rest) (.range b b :: items)
  | range {text text' rest : Bytes} {low high : UInt8} {items : List Item} : Single [byte ']',byte '['] text low →
    Single [byte ']'] text' high → low ≤ high → Members rest items →
      Members (text ++ (byte '-' :: (text' ++ rest))) (.range low high :: items)

inductive CharClass : Bytes → Node → Prop
  | plain {text : Bytes} {items : List Item} : Members text items → text ≠ [] → text.head? ≠ some (byte '^') →
    CharClass (byte '[' :: (text ++ [byte ']'])) (.set (.items items) false)
  | negated {text : Bytes} {items : List Item} : Members text items → text ≠ [] →
    CharClass (byte '[' :: byte '^' :: (text ++ [byte ']'])) (.set (.items items) true)

/-! Quantifiers. -/

def Digits (text : Bytes) : Prop := text ≠ [] ∧ ∀ b ∈ text, isDigit b = true

inductive Quantifier : Bytes → Bound → Bound → Prop
  | star : Quantifier [byte '*'] 0 ⊤
  | plus : Quantifier [byte '+'] 1 ⊤
  | option : Quantifier [byte '?'] 0 1
  | exactly {n : Bytes} : Digits n →
    Quantifier (byte '{' :: (n ++ [byte '}'])) (Parser.toNumber n) (Parser.toNumber n)
  | atLeast {n : Bytes} : Digits n → Quantifier (byte '{' :: (n ++ [byte ',',byte '}'])) (Parser.toNumber n) ⊤
  | between {n m : Bytes} : Digits n → Digits m → Parser.toNumber n ≤ Parser.toNumber m →
    Quantifier (byte '{' :: (n ++ (byte ',' :: (m ++ [byte '}'])))) (Parser.toNumber n) (Parser.toNumber m)

/-- An atom with or without a quantifier. Anchors have none. -/
inductive Quantified (node : Node) : Bytes → Node → Prop
  | once : Quantified node [] node
  | times {text : Bytes} {min max : Bound} : Parser.isAnchor node = false → Quantifier text min max →
    Quantified node text (.repeated node min max)

/-! Patterns. -/

/-- The bytes that mean something in a pattern. -/
def special : List UInt8 :=
  [byte '(',byte ')',byte '[',byte ']',byte '{',byte '}',byte '*',byte '+',byte '?',byte '.',byte '^',byte '$',
    byte '|',byte '\\']

/-- Atoms but for groups. -/
inductive Simple : Bytes → Node → Prop
  | charClass {text : Bytes} {node : Node} : CharClass text node → Simple text node
  | any : Simple [byte '.'] (.set .notNewline false)
  | bol : Simple [byte '^'] .bol
  | eol : Simple [byte '$'] .eol
  | test {char : UInt8} {kind : Kind} {negate : Bool} : Escapes char (.test kind negate) →
    Simple [byte '\\',char] (.set (.kind kind) negate)
  | escaped {char b : UInt8} : Escapes char (.byte b) → Simple [byte '\\',char] (.set (.byte b) false)
  | literal {char : UInt8} : char ∉ special → Simple [char] (.set (.byte char) false)

mutual

inductive Atom : Bytes → Node → Prop
  | simple {text : Bytes} {node : Node} : Simple text node → Atom text node
  | group {text : Bytes} {node : Node} : Pattern text node → Atom (byte '(' :: (text ++ [byte ')'])) node
  | bare {text : Bytes} {node : Node} : Pattern text node →
    Atom (byte '(' :: byte '?' :: byte ':' :: (text ++ [byte ')'])) node

inductive Sequence : Bytes → List Node → Prop
  | nil : Sequence [] []
  | cons {atom quantifier rest : Bytes} {node item : Node} {items : List Node} : Atom atom node →
    Quantified node quantifier item → Sequence rest items → Sequence (atom ++ (quantifier ++ rest)) (item :: items)

/-- The branches after the first. -/
inductive Branches : Bytes → List Node → Prop
  | nil : Branches [] []
  | cons {text rest : Bytes} {items branches : List Node} : Sequence text items → Branches rest branches →
    Branches (byte '|' :: (text ++ rest)) (.seq items :: branches)

inductive Pattern : Bytes → Node → Prop
  | sequence {text : Bytes} {items : List Node} : Sequence text items → Pattern text (.seq items)
  | alternation {text rest : Bytes} {items branches : List Node} : Sequence text items → Branches rest branches →
    branches ≠ [] → Pattern (text ++ rest) (.alt (.seq items :: branches))

end

/-! What a parser reads. -/

/-- A parser moves on over a text. -/
def Reads (p : Parser) (text : Bytes) (q : Parser) : Prop := p.rest = text ++ q.rest ∧ q.pos = p.pos + text.length

theorem Parser.skip_skip (p : Parser) (count more : Nat) : (p.skip count).skip more = p.skip (count + more) := by
  rw [skip,skip,skip,List.drop_drop,Nat.add_assoc]

namespace Reads
variable {p q r : Parser} {text more : Bytes} {char : UInt8}

theorem nil (p : Parser) : Reads p [] p := ⟨rfl,rfl⟩

theorem append (h : Reads p text q) (h' : Reads q more r) : Reads p (text ++ more) r := by
  refine ⟨by rw [h.1,h'.1,List.append_assoc],?_⟩
  rw [h'.2,h.2,List.length_append,Nat.add_assoc]

theorem eq_of_nil (h : Reads p [] q) : q = p := by
  obtain ⟨hrest,hpos⟩ := h
  cases p
  cases q
  simp_all

theorem skip (h : p.rest = text ++ more) : Reads p text (p.skip text.length) := by
  refine ⟨?_,rfl⟩
  rw [Parser.skip,h,List.drop_left]

theorem skip_one (h : p.rest = char :: more) : Reads p [char] (p.skip 1) := @skip _ [char] _ h

theorem eq_skip (h : Reads p text q) : q = p.skip text.length := by
  obtain ⟨hrest,hpos⟩ := h
  cases q
  simp only at hrest hpos
  rw [Parser.skip,hrest,List.drop_left,hpos]

theorem eq (h : Reads p text q) (h' : Reads p text r) : q = r := h.eq_skip.trans h'.eq_skip.symm

/-- A text is read in two parts. -/
theorem split (h : Reads p (text ++ more) r) : ∃ q, Reads p text q ∧ Reads q more r := by
  have hrest := h.1
  rw [List.append_assoc] at hrest
  refine ⟨p.skip text.length,skip hrest,?_,?_⟩
  · rw [Parser.skip,hrest,List.drop_left]
  · rw [h.2,List.length_append,← Nat.add_assoc]
    rfl

theorem split_cons (h : Reads p (char :: more) r) : p.rest = char :: (more ++ r.rest) ∧ Reads (p.skip 1) more r := by
  obtain ⟨q,hq,hr⟩ := @split _ _ [char] _ h
  exact ⟨h.1,hq.eq_skip ▸ hr⟩

theorem head (h : Reads p (char :: more) r) : p.rest = char :: (p.skip 1).rest :=
  h.split_cons.1.trans (congrArg _ h.split_cons.2.1.symm)

theorem length_eq (h : Reads p text q) : p.rest.length = text.length + q.rest.length := by
  rw [h.1,List.length_append]

end Reads

/-- A computation that succeeds has a first part that succeeds. -/
theorem bind_ok {ε α β : Type} {x : Except ε α} {f : α → Except ε β} {b : β} :
    (x >>= f) = .ok b ↔ ∃ a, x = .ok a ∧ f a = .ok b := by
  cases x with
  | error e => simp [bind,Except.bind]
  | ok a => simp [bind,Except.bind]

/-- A computation that does not end with some error. -/
def Avoids {ε α : Type} (e : ε) (x : Except ε α) : Prop := x ≠ .error e

theorem avoids_ok {ε α : Type} (e : ε) (a : α) : Avoids e (.ok a) := by
  intro h
  cases h

theorem avoids_bind {ε α β : Type} {e : ε} {x : Except ε α} {f : α → Except ε β} (hx : Avoids e x)
    (hf : ∀ a, x = .ok a → Avoids e (f a)) : Avoids e (x >>= f) := by
  cases x with
  | error e' =>
    intro h
    exact hx (congrArg Except.error (Except.error.inj h))
  | ok a => exact hf a rfl

theorem avoids_ite {ε α : Type} {e : ε} {c : Prop} [Decidable c] {x y : Except ε α} (hx : Avoids e x)
    (hy : Avoids e y) : Avoids e (if c then x else y) := by
  split
  · exact hx
  · exact hy

end Nefor.Tool
