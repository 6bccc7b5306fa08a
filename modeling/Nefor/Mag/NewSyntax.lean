import Nefor.Mag.Lexer

/-! The tokens of sources in the new notation (`new_syntax.rs`). -/
namespace Nefor.Mag.NewSyntax
open SourceText
open Lexer (Diagnostic LexError slice parseI64)

inductive TokenKind (F : Type)
  | ident (name : List Char)
  | operator (name : List Char)
  | string (value : List Char)
  | int (n : Int)
  | float (x : F)
  | newline
  | punct (c : Char)
  | arrow
  | fatArrow
  | eof
  deriving DecidableEq, Repr

structure Token (F : Type) where
  kind : TokenKind F
  span : Span
  deriving DecidableEq, Repr

def tokenCanEndExpression {F : Type} : TokenKind F → Bool
  | .ident _ | .string _ | .int _ | .float _ => true
  | .punct c => [')',']','}'].contains c
  | _ => false

/-- `byte` is one of some characters. -/
def isByteOf (chars : List Char) (b : UInt8) : Bool := (chars.map byte).contains b

def isOperatorByte : UInt8 → Bool :=
  isByteOf ['!','#','$','%','&','*','+','-','/','<','=','>','?','@','\\','^','|','~']

def isDigitByte (b : UInt8) : Bool := decide (48 ≤ b.toNat) && decide (b.toNat ≤ 57)

def isAlphaByte (b : UInt8) : Bool :=
  decide (65 ≤ b.toNat) && decide (b.toNat ≤ 90) || decide (97 ≤ b.toNat) && decide (b.toNat ≤ 122)

def apostrophe : UInt8 := 39
def backtick : UInt8 := 96

def isIdentByte (b : UInt8) : Bool := isAlphaByte b || isDigitByte b || b == byte '_' || b == apostrophe

/-- `starts_with` on `text[pos..]`. -/
def startsWith (text pattern : List Char) (pos : Nat) : Except LexError Bool :=
  match suffix text pos with
  | some rest => .ok (decide (pattern <+: rest))
  | none => .error .panic

section
variable {F : Type} (parseFloat : List Char → Option F) (text : List Char)

def error (code message : String) (span : Span) : LexError := .diagnostic ⟨code,"lexer",message,span,none⟩

/-- `next_char`, with the cursor after it. -/
def nextChar (cursor : Nat) : Except LexError (Char × Nat) :=
  match suffix text cursor with
  | some rest =>
    let ch := rest.head?.getD (Char.ofNat 0)
    .ok (ch,cursor + ch.utf8Size)
  | none => .error .panic

def unescape : Char → Option Char
  | 'n' => some '\n'
  | 't' => some '\t'
  | '\\' => some '\\'
  | '"' => some '"'
  | _ => none

/-- The loop of `lex_string`. -/
def lexStringFrom (start : Nat) : Nat → List Char → Nat → Except LexError (Token F × Nat)
  | 0, _, _ => .error .stuck
  | rounds + 1, value, cursor =>
    if cursor < byteLen text then do
      let (ch,after) ← nextChar text cursor
      if ch = '"' then .ok (⟨.string value,⟨start,after⟩⟩,after)
      else if ch = '\n' then .error (error "MAG1003" "newline in quoted string" ⟨cursor,after⟩)
      else if ch = '\\' then
        if byteLen text ≤ after then .error (error "MAG1002" "unterminated string" ⟨start,byteLen text⟩)
        else do
          let (escaped,next) ← nextChar text after
          match unescape escaped with
          | some char => lexStringFrom start rounds (value ++ [char]) next
          | none => .error (error "MAG1004" ("unsupported string escape \\" ++ escaped.toString) ⟨cursor,next⟩)
      else lexStringFrom start rounds (value ++ [ch]) after
    else .error (error "MAG1002" "unterminated string" ⟨start,byteLen text⟩)

def lexString (start : Nat) : Except LexError (Token F × Nat) := do
  if ← startsWith text Lexer.quotes start then
    match suffix text (start + 3) with
    | none => .error .panic
    | some rest =>
      match find Lexer.quotes rest with
      | some offset => do
        let value ← slice text (start + 3) (start + 3 + offset)
        .ok (⟨.string value,⟨start,start + 3 + offset + 3⟩⟩,start + 3 + offset + 3)
      | none => .error (error "MAG1002" "unterminated raw string" ⟨start,byteLen text⟩)
  else lexStringFrom text start (byteLen text + 1) [] (start + 1)

/-- The loop of `lex_backtick`: the cursor at the closing backtick or at the end. -/
def backtickEnd (start : Nat) : Nat → Nat → Except LexError Nat
  | 0, _ => .error .stuck
  | rounds + 1, cursor =>
    match byteAt text cursor with
    | none => .ok cursor
    | some b =>
      if b = backtick then .ok cursor
      else if b = byte '\n' then .error (error "MAG1005" "newline in backtick identifier" ⟨start,cursor⟩)
      else match suffix text cursor with
        | none => .error .panic
        | some rest => backtickEnd start rounds (cursor + (rest.head?.map Char.utf8Size).getD 1)

def lexBacktick (start : Nat) : Except LexError (Token F × Nat) := do
  let cursor ← backtickEnd text start (byteLen text + 1) (start + 1)
  if cursor = byteLen text then .error (error "MAG1005" "unterminated backtick identifier" ⟨start,cursor⟩)
  else if cursor = start + 1 then .error (error "MAG1005" "backtick identifier cannot be empty" ⟨start,cursor + 1⟩)
  else do
    let value ← slice text (start + 1) cursor
    .ok (⟨.ident value,⟨start,cursor + 1⟩⟩,cursor + 1)

/-- The end of the number, and whether it has a point that a digit follows. -/
def numberEnd (start : Nat) (signed : Bool) : Nat × Bool :=
  let cursor := skipBytes text isDigitByte (byteLen text) (if signed then start + 1 else start)
  if byteAt text cursor = some (byte '.') && (byteAt text (cursor + 1)).any isDigitByte then
    (skipBytes text isDigitByte (byteLen text) (cursor + 1),true)
  else (cursor,false)

def lexNumber (signed : Bool) (start : Nat) : Except LexError (Token F × Nat) := do
  let (cursor,float) := numberEnd text start signed
  let digits ← slice text start cursor
  if float then
    match parseFloat digits with
    | some x => .ok (⟨.float x,⟨start,cursor⟩⟩,cursor)
    | none => .error (error "MAG1006" "invalid float" ⟨start,cursor⟩)
  else
    match parseI64 digits with
    | some n => .ok (⟨.int n,⟨start,cursor⟩⟩,cursor)
    | none => .error (error "MAG1006" "integer is outside the Int range" ⟨start,cursor⟩)

def lexIdent (start : Nat) : Except LexError (Token F × Nat) := do
  let cursor := skipBytes text isIdentByte (byteLen text) (start + 1)
  let name ← slice text start cursor
  .ok (⟨.ident name,⟨start,cursor⟩⟩,cursor)

/-- The loop of `lex_operator`. -/
def operatorEnd : Nat → Nat → Except LexError Nat
  | 0, _ => .error .stuck
  | rounds + 1, cursor =>
    match byteAt text cursor with
    | none => .ok cursor
    | some b =>
      if isOperatorByte b then do
        let comment ← startsWith text ['/','/'] cursor
        let arrow ← startsWith text ['-','>'] cursor
        let fatArrow ← startsWith text ['=','>'] cursor
        if comment || arrow || fatArrow then .ok cursor else operatorEnd rounds (cursor + 1)
      else .ok cursor

def lexOperator (start : Nat) : Except LexError (Token F × Nat) := do
  let cursor ← operatorEnd text (byteLen text + 1) start
  let name ← slice text start cursor
  .ok (⟨.operator name,⟨start,cursor⟩⟩,cursor)

/-- A token of one or two bytes. -/
def single (kind : TokenKind F) (start width : Nat) : Except LexError (Option (Token F) × Nat) :=
  .ok (some ⟨kind,⟨start,start + width⟩⟩,start + width)

def pushed (x : Except LexError (Token F × Nat)) : Except LexError (Option (Token F) × Nat) := do
  let (token,cursor) ← x
  .ok (some token,cursor)

/-- The token that a byte begins, after the last token and before the byte that follows. -/
def lexByte (last : Option (TokenKind F)) (start : Nat) (b : UInt8) (peek : Option UInt8) :
    Except LexError (Option (Token F) × Nat) :=
  if isByteOf [' ','\t','\r'] b then .ok (none,start + 1)
  else if b = byte '\n' then single .newline start 1
  else if b = byte '/' && peek = some (byte '/') then
    .ok (none,skipBytes text (fun b => b != byte '\n') (byteLen text) (start + 2))
  else if b = byte '"' then pushed (lexString text start)
  else if b = backtick then pushed (lexBacktick text start)
  else if isDigitByte b then pushed (lexNumber parseFloat text false start)
  else if b = byte '-' && peek.any isDigitByte && !last.any tokenCanEndExpression then
    pushed (lexNumber parseFloat text true start)
  else if isAlphaByte b || b = byte '_' then pushed (lexIdent text start)
  else if b = byte '-' && peek = some (byte '>') then single .arrow start 2
  else if b = byte '=' && peek = some (byte '>') then single .fatArrow start 2
  else if isByteOf ['(',')','[',']','{','}',',',':','.'] b then single (.punct (Char.ofNat b.toNat)) start 1
  else if isOperatorByte b then pushed (lexOperator text start)
  else match suffix text start with
    | none => .error .panic
    | some rest => .error (error "MAG1001" "unexpected character" ⟨start,start + (rest.head?.map Char.utf8Size).getD 1⟩)

/-- One round of the loop. -/
def lexOne (last : Option (TokenKind F)) (start : Nat) (b : UInt8) : Except LexError (Option (Token F) × Nat) :=
  lexByte parseFloat text last start b (byteAt text (start + 1))

def tokenizeFrom : Nat → Nat → List (Token F) → Except LexError (List (Token F))
  | 0, _, _ => .error .stuck
  | rounds + 1, cursor, tokens =>
    match byteAt text cursor with
    | some b => do
      let (token,next) ← lexOne parseFloat text (tokens.getLast?.map (·.kind)) cursor b
      tokenizeFrom rounds next (tokens ++ token.toList)
    | none => .ok (tokens ++ [⟨.eof,⟨cursor,cursor⟩⟩])

def tokenize : Except LexError (List (Token F)) := tokenizeFrom parseFloat text (byteLen text + 1) 0 []

end
end Nefor.Mag.NewSyntax
