import Nefor.Json.Number
import Nefor.Utf8
import Mathlib.Order.WithBot

/-! The patterns of argument schemas: a parser for a subset of regular expressions, and a matcher
that backtracks (`pattern.lua`). Strings are bytes. -/
namespace Nefor.Tool

abbrev Bytes := List UInt8

abbrev byte (c : Char) : UInt8 := c.toUInt8

/-! Sets of bytes. -/

inductive Kind
  | digit
  | word
  | space
  deriving DecidableEq, Repr

def isDigit (b : UInt8) : Bool := 48 ≤ b && b ≤ 57

def Kind.test : Kind → UInt8 → Bool
  | digit, b => isDigit b
  | word, b => isDigit b || (65 ≤ b && b ≤ 90) || (97 ≤ b && b ≤ 122) || b == 95
  | space, b => b == 32 || (9 ≤ b && b ≤ 13)

def lower (b : UInt8) : UInt8 := if 65 ≤ b ∧ b ≤ 90 then b + 32 else b

/-- `class_test`. -/
def classTest (b : UInt8) : Option Kind :=
  if b = byte 'd' then some .digit
  else if b = byte 'w' then some .word
  else if b = byte 's' then some .space
  else none

/-- `CONTROL_ESCAPES`. -/
def controlEscape (b : UInt8) : Option UInt8 :=
  if b = byte 'n' then some 10 else if b = byte 'r' then some 13 else if b = byte 't' then some 9 else none

/-- `%p`. -/
def isPunctuation (b : UInt8) : Bool :=
  (33 ≤ b && b ≤ 47) || (58 ≤ b && b ≤ 64) || (91 ≤ b && b ≤ 96) || (123 ≤ b && b ≤ 126)

/-- What an escape stands for. -/
inductive Escaped
  | test (kind : Kind) (negate : Bool)
  | byte (b : UInt8)
  deriving DecidableEq, Repr

inductive Item
  | test (kind : Kind) (negate : Bool)
  | range (low high : UInt8)
  deriving DecidableEq, Repr

def Item.hits : Item → UInt8 → Bool
  | test kind negate, b => kind.test b != negate
  | range low high, b => low ≤ b && b ≤ high

inductive Test
  | kind (kind : Kind)
  | notNewline
  | byte (b : UInt8)
  | items (items : List Item)
  deriving DecidableEq, Repr

def Test.hits : Test → UInt8 → Bool
  | kind k, b => k.test b
  | notNewline, b => b != 10
  | byte b', b => b == b'
  | items is, b => is.any (·.hits b)

/-- The number of iterations, which may be `math.huge`. -/
abbrev Bound := WithTop Nat

inductive Node
  | set (test : Test) (negate : Bool)
  | seq (items : List Node)
  | alt (branches : List Node)
  | bol
  | eol
  | repeated (node : Node) (min max : Bound)

/-! The parser. -/

/-- The position of the next byte, counted from one, and the bytes from there on. -/
structure Parser where
  pos : Nat
  rest : Bytes
  deriving DecidableEq, Repr

/-- A `pattern_error`, or the end of the rounds that a loop of the model has. -/
inductive Failure
  | pattern (message : Bytes)
  | fuel
  deriving DecidableEq, Repr

namespace Parser

def fail {α : Type} (p : Parser) (message : Bytes) : Except Failure α :=
  .error (.pattern (message ++ ascii " at offset " ++ decimal (p.pos - 1)))

def peek (p : Parser) : Option UInt8 := p.rest.head?

def skip (p : Parser) (count : Nat) : Parser := ⟨p.pos + count,p.rest.drop count⟩

/-- `take`, which moves on at the end as well. -/
def take (p : Parser) : Option UInt8 × Parser := (p.rest.head?,p.skip 1)

def escape (p : Parser) : Except Failure (Escaped × Parser) :=
  match p.take with
  | (none,p) => p.fail (ascii "pattern ends with an incomplete escape")
  | (some char,p) =>
    match classTest (lower char) with
    | some kind => .ok (.test kind (char != lower char),p)
    | none =>
      match controlEscape char with
      | some b => .ok (.byte b,p)
      | none =>
        if isPunctuation char then .ok (.byte char,p)
        else p.fail (ascii "unsupported escape `\\" ++ [char] ++ ascii "`")

/-- The upper end of a range, after its first byte has been taken. -/
def rangeEnd (char : UInt8) (p : Parser) : Except Failure (UInt8 × Parser) :=
  if char = byte '\\' then do
    let (escaped,p) ← p.escape
    match escaped with
    | .test _ _ => p.fail (ascii "character class range cannot end in a class escape")
    | .byte high => .ok (high,p)
  else .ok (char,p)

/-- A byte of a class, or the range that begins with it. -/
def range (low : UInt8) (p : Parser) : Except Failure (Item × Parser) :=
  match p.rest with
  | dash :: char :: _ =>
    if dash = byte '-' ∧ char ≠ byte ']' then do
      let (high,p) ← rangeEnd char (p.skip 2)
      if high < low then p.fail (ascii "character class range is out of order")
      else .ok (.range low high,p)
    else .ok (.range low low,p)
  | _ => .ok (.range low low,p)

/-- The item that begins with a byte. -/
def item (char : UInt8) (p : Parser) : Except Failure (Item × Parser) :=
  if char = byte '\\' then do
    let (escaped,p) ← p.escape
    match escaped with
    | .test kind negate => .ok (.test kind negate,p)
    | .byte low => range low p
  else if char = byte '[' then p.fail (ascii "nested `[` in character class must be escaped")
  else range char p

/-- The loop of `class`. -/
def items : Nat → Bool → Parser → Except Failure (List Item × Parser)
  | 0, _, _ => .error .fuel
  | fuel + 1, first, p =>
    match p.take with
    | (none,p) => p.fail (ascii "unterminated character class")
    | (some char,p) =>
      if char = byte ']' then
        if first then p.fail (ascii "empty character class") else .ok ([],p)
      else do
        let (item,p) ← item char p
        let (rest,p) ← items fuel false p
        .ok (item :: rest,p)

/-- `class`. -/
def charClass (p : Parser) : Except Failure (Node × Parser) := do
  let negate := p.peek == some (byte '^')
  let p := if negate then p.skip 1 else p
  let (items,p) ← items (p.rest.length + 1) true p
  .ok (.set (.items items) negate,p)

/-- `tonumber` of digits: an integer of 64 bits, or else the nearest double. -/
def toNumber (digits : Bytes) : Bound :=
  let n : Nat := digits.foldl (fun n d => 10 * n + (d.toNat - 48)) 0
  if n < 2 ^ 63 then (n : Bound)
  else
    let rounded : Nat := F64.roundShift n (n.log2 - 52) * 2 ^ (n.log2 - 52)
    if rounded < 2 ^ 1024 then (rounded : Bound) else ⊤

def number (p : Parser) : Option Bound × Parser :=
  let digits := p.rest.takeWhile isDigit
  if digits = [] then (none,p) else (some (toNumber digits),p.skip digits.length)

/-- The upper bound in braces, after the lower one. -/
def upper (min : Bound) (p : Parser) : Bound × Parser :=
  if p.peek = some (byte ',') then ((p.skip 1).number.1.getD ⊤,(p.skip 1).number.2) else (min,p)

/-- The end of the braces. -/
def close (min max : Bound) (p : Parser) : Except Failure ((Bound × Bound) × Parser) :=
  if p.peek ≠ some (byte '}') then (p.skip 1).fail (ascii "unterminated `\x7b` quantifier")
  else if max < min then (p.skip 1).fail (ascii "quantifier maximum is below its minimum")
  else .ok ((min,max),p.skip 1)

/-- What stands in braces. -/
def braces (p : Parser) : Except Failure ((Bound × Bound) × Parser) :=
  match p.number with
  | (none,p) => p.fail (ascii "`\x7b` must start a `\x7bn\x7d`, `\x7bn,\x7d` or `\x7bn,m\x7d` quantifier")
  | (some min,p) => close min (upper min p).1 (upper min p).2

/-- The bounds of a quantifier, if there is one. -/
def bounds (p : Parser) : Except Failure (Option (Bound × Bound) × Parser) :=
  if p.peek = some (byte '*') then .ok (some (0,⊤),p.skip 1)
  else if p.peek = some (byte '+') then .ok (some (1,⊤),p.skip 1)
  else if p.peek = some (byte '?') then .ok (some (0,1),p.skip 1)
  else if p.peek = some (byte '{') then do
    let (b,p) ← (p.skip 1).braces
    .ok (some b,p)
  else .ok (none,p)

def isAnchor : Node → Bool
  | .bol => true
  | .eol => true
  | _ => false

def quantifier (atom : Node) (p : Parser) : Except Failure (Node × Parser) := do
  match ← p.bounds with
  | (none,p) => .ok (atom,p)
  | (some (min,max),p) =>
    if isAnchor atom then p.fail (ascii "anchors cannot be quantified")
    else if p.peek = some (byte '?') then p.fail (ascii "lazy quantifiers are not supported")
    else if p.peek = some (byte '*') ∨ p.peek = some (byte '+') ∨ p.peek = some (byte '{') then
      p.fail (ascii "nested quantifier")
    else .ok (.repeated atom min max,p)

/-- The `(` of a group has been taken. -/
def groupStart (p : Parser) : Except Failure Parser :=
  if p.peek = some (byte '?') then
    if p.rest[1]? = some (byte ':') then .ok (p.skip 2) else p.fail (ascii "only `(?:...)` groups are supported")
  else .ok p

/-- An atom of one byte, or of an escape or a class that begins with the byte. -/
def simple (char : UInt8) (p : Parser) : Except Failure (Node × Parser) :=
  if char = byte '[' then p.charClass
  else if char = byte '.' then .ok (.set .notNewline false,p)
  else if char = byte '^' then .ok (.bol,p)
  else if char = byte '$' then .ok (.eol,p)
  else if char = byte '\\' then do
    let (escaped,p) ← p.escape
    match escaped with
    | .test kind negate => .ok (.set (.kind kind) negate,p)
    | .byte b => .ok (.set (.byte b) false,p)
  else if char = byte '*' ∨ char = byte '+' ∨ char = byte '?' ∨ char = byte '{' then
    p.fail (ascii "quantifier `" ++ [char] ++ ascii "` has nothing to repeat")
  else if char = byte ']' ∨ char = byte '}' then p.fail (ascii "unescaped `" ++ [char] ++ ascii "`")
  else .ok (.set (.byte char) false,p)

mutual

/-- `atom`, whose first byte has been taken. -/
def atom : Nat → UInt8 → Parser → Except Failure (Node × Parser)
  | 0, _, _ => .error .fuel
  | fuel + 1, char, p =>
    if char = byte '(' then do
      let p ← p.groupStart
      let (node,p) ← alternation fuel p
      if p.peek ≠ some (byte ')') then (p.skip 1).fail (ascii "unterminated group")
      else .ok (node,p.skip 1)
    else simple char p

/-- The loop of `sequence`. -/
def sequence : Nat → Parser → Except Failure (List Node × Parser)
  | 0, _ => .error .fuel
  | fuel + 1, p =>
    match p.rest with
    | [] => .ok ([],p)
    | char :: _ =>
      if char = byte '|' ∨ char = byte ')' then .ok ([],p)
      else do
        let (node,p) ← atom fuel char (p.skip 1)
        let (item,p) ← quantifier node p
        let (rest,p) ← sequence fuel p
        .ok (item :: rest,p)

/-- The loop of `alternation`, for the branches after the first. -/
def branches : Nat → Parser → Except Failure (List Node × Parser)
  | 0, _ => .error .fuel
  | fuel + 1, p =>
    if p.peek = some (byte '|') then do
      let (items,p) ← sequence fuel (p.skip 1)
      let (rest,p) ← branches fuel p
      .ok (.seq items :: rest,p)
    else .ok ([],p)

def alternation : Nat → Parser → Except Failure (Node × Parser)
  | 0, _ => .error .fuel
  | fuel + 1, p => do
    let (items,p) ← sequence fuel p
    let (rest,p) ← branches fuel p
    .ok (if rest.isEmpty then .seq items else .alt (.seq items :: rest),p)

end

end Parser

/-- `compile`, up to the closure that it returns. -/
def compile (source : Bytes) : Except Failure Node := do
  let (node,p) ← Parser.alternation (3 * source.length + 3) ⟨1,source⟩
  if p.rest ≠ [] then p.fail (ascii "unbalanced `)`") else .ok node

/-! The matcher. Positions count from zero; `none` is a loop of the model that ends too early. -/

/-- A second try when the first one fails. -/
def either (first second : Option Bool) : Option Bool := first.bind fun found => if found then some true else second

/-- `attempt`, for a body that is matched from a position on. -/
def attempt (body : Nat → (Nat → Option Bool) → Option Bool) (min max : Bound) (next : Nat → Option Bool) :
    Nat → Nat → Nat → Option Bool
  | 0, _, _ => none
  | fuel + 1, count, position =>
    either
      (if (count : Bound) < max then
        body position fun after => if after = position then some false else attempt body min max next fuel (count + 1) after
      else some false)
      (if min ≤ (count : Bound) then next position else some false)

mutual

def matchNode (subject : Bytes) : Node → Nat → (Nat → Option Bool) → Option Bool
  | .set test negate, position, next =>
    match subject[position]? with
    | none => some false
    | some b => if test.hits b != negate then next (position + 1) else some false
  | .seq items, position, next => matchSeq subject items position next
  | .alt branches, position, next => matchAlt subject branches position next
  | .bol, position, next => if position = 0 then next position else some false
  | .eol, position, next => if position = subject.length then next position else some false
  | .repeated node min max, position, next =>
    attempt (fun position next => matchNode subject node position next) min max next (subject.length + 1) 0 position

def matchSeq (subject : Bytes) : List Node → Nat → (Nat → Option Bool) → Option Bool
  | [], position, next => next position
  | item :: items, position, next =>
    matchNode subject item position fun position => matchSeq subject items position next

/-- The loop over the branches. -/
def matchAlt (subject : Bytes) : List Node → Nat → (Nat → Option Bool) → Option Bool
  | [], _, _ => some false
  | branch :: branches, position, next =>
    either (matchNode subject branch position next) (matchAlt subject branches position next)

end

/-- The loop over the starts. -/
def searchFrom (root : Node) (subject : Bytes) : List Nat → Option Bool
  | [] => some false
  | start :: starts => either (matchNode subject root start fun _ => some true) (searchFrom root subject starts)

/-- What `compile` returns for a pattern. -/
def matcher (root : Node) (subject : Bytes) : Option Bool := searchFrom root subject (List.range (subject.length + 1))

end Nefor.Tool
