import Nefor.SourceText

/-! The tokens of s-expression sources (`lexer.rs`). -/
namespace Nefor.Mag.Lexer
open SourceText

/-- What a diagnostic is made of. -/
structure Diagnostic where
  code : String
  stage : String
  message : String
  span : Span
  related : Option (String × Span)
  deriving DecidableEq, Repr

/-- An error that is returned, a slice that does not lie between characters, or a loop that does not
advance. -/
inductive LexError
  | diagnostic (d : Diagnostic)
  | panic
  | stuck
  deriving DecidableEq, Repr

inductive TokenKind (F : Type)
  | lParen
  | rParen
  | lBracket
  | rBracket
  | lBrace
  | rBrace
  | symbol (name : List Char)
  | keyword (name : List Char)
  | str (value : List Char)
  | int (n : Int)
  | float (x : F)
  | bool (b : Bool)
  | nil
  | arrow
  | pipe
  | plus
  | colon
  deriving DecidableEq, Repr

structure Token (F : Type) where
  kind : TokenKind F
  span : Span
  deriving DecidableEq, Repr

def isSymbolStart (c : Char) : Bool := c.isAlpha || ['_','?','!','*','=','<','>'].contains c

def isSymbolChar (c : Char) : Bool := c.isAlphanum || ['-','_','/','.','?','!','*','=','<','>'].contains c

def isBlank (c : Char) : Bool := [' ','\t','\n','\r',','].contains c

/-- The number that some digits denote. -/
def digitsValue (digits : List Char) : Nat := digits.foldl (fun n c => 10 * n + (c.toNat - '0'.toNat)) 0

def inI64 (n : Int) : Bool := decide (-9223372036854775808 ≤ n) && decide (n ≤ 9223372036854775807)

def parseDigits (negative : Bool) (digits : List Char) : Option Int :=
  let n : Int := if negative then -digitsValue digits else digitsValue digits
  if !digits.isEmpty && digits.all Char.isDigit && inI64 n then some n else none

/-- `str::parse::<i64>`. -/
def parseI64 : List Char → Option Int
  | '-' :: digits => parseDigits true digits
  | '+' :: digits => parseDigits false digits
  | digits => parseDigits false digits

def slice (input : List Char) (start finish : Nat) : Except LexError (List Char) :=
  match SourceText.slice input start finish with
  | some cs => .ok cs
  | none => .error .panic

section
variable {F : Type} (parseFloat : List Char → Option F) (zero : F) (input : List Char)

def lexError (message : String) (span : Span) (related : Option (String × Span)) : LexError :=
  .diagnostic ⟨"syntax_lex","lex","lexer: " ++ message,span,related⟩

def inputEnd : Span := ⟨byteLen input,byteLen input⟩

def readSymbol (pos : Nat) : Except LexError (List Char × Nat) := do
  let finish := skipChars input isSymbolChar (byteLen input) pos
  .ok (← slice input pos finish,finish)

/-- The digits and the first point from a position on. -/
def readNumberFrom : Nat → List Char → Bool → Nat → List Char × Bool × Nat
  | 0, value, float, pos => (value,float,pos)
  | rounds + 1, value, float, pos =>
    match charAt input pos with
    | some c =>
      if c.isDigit then readNumberFrom rounds (value ++ [c]) float (pos + 1)
      else if c == '.' && !float then readNumberFrom rounds (value ++ [c]) true (pos + 1)
      else (value,float,pos)
    | none => (value,float,pos)

def numberKind (value : List Char) (float : Bool) : TokenKind F :=
  if float then .float ((parseFloat value).getD zero) else .int ((parseI64 value).getD 0)

def readNumber (pos : Nat) (negative : Bool) : TokenKind F × Nat :=
  let (value,float,finish) := readNumberFrom input (byteLen input) (if negative then ['-'] else []) false pos
  (numberKind parseFloat zero value float,finish)

/-- The delimiter of raw strings. -/
def quotes : List Char := ['"','"','"']

def readRawMultilineString (pos opener : Nat) : Except LexError (List Char × Nat) :=
  match suffix input pos with
  | none => .error .panic
  | some rest =>
    match find quotes rest with
    | none => .error (lexError "unterminated raw multiline string" (inputEnd input)
        (some ("raw multiline string opened here",⟨opener,opener + 3⟩)))
    | some relativeEnd => do
      let value ← slice input pos (pos + relativeEnd)
      .ok (value,pos + relativeEnd + 3)

def unescape : Char → Option Char
  | 'n' => some '\n'
  | 't' => some '\t'
  | '\\' => some '\\'
  | '"' => some '"'
  | _ => none

def readString (opener : Nat) : Nat → List Char → Nat → Except LexError (List Char × Nat)
  | 0, _, _ => .error .stuck
  | rounds + 1, value, pos =>
    match charAt input pos with
    | none => .error (lexError "unterminated string" (inputEnd input) (some ("string opened here",⟨opener,opener + 1⟩)))
    | some c =>
      if c = '"' then .ok (value,pos + c.utf8Size)
      else if c = '\\' then
        match charAt input (pos + c.utf8Size) with
        | none => .error (lexError "unterminated escape in string" (inputEnd input)
            (some ("string opened here",⟨opener,opener + 1⟩)))
        | some escaped =>
          match unescape escaped with
          | some char => readString opener rounds (value ++ [char]) (pos + c.utf8Size + escaped.utf8Size)
          | none => .error (lexError ("unknown string escape \\" ++ escaped.toString ++
              "; use \\\\ for a literal backslash") ⟨pos,pos + c.utf8Size + escaped.utf8Size⟩ none)
      else readString opener rounds (value ++ [c]) (pos + c.utf8Size)

def punctuation : Char → Option (TokenKind F)
  | '(' => some .lParen
  | ')' => some .rParen
  | '[' => some .lBracket
  | ']' => some .rBracket
  | '{' => some .lBrace
  | '}' => some .rBrace
  | '|' => some .pipe
  | '+' => some .plus
  | _ => none

def wordKind (symbol : List Char) : TokenKind F :=
  if symbol = "true".toList then .bool true
  else if symbol = "false".toList then .bool false
  else if symbol = "nil".toList then .nil
  else .symbol symbol

/-- The token that a character begins, if there is one, and where the next round starts. -/
def lexChar (pos : Nat) (rest : List Char) (ch : Char) : Except LexError (Option (Token F) × Nat) :=
  if isBlank ch then .ok (none,pos + ch.utf8Size)
  else if ch = ';' then .ok (none,skipBytes input (fun b => b != byte '\n') (byteLen input) (pos + ch.utf8Size))
  else match punctuation ch with
    | some kind => .ok (some ⟨kind,⟨pos,pos + 1⟩⟩,pos + 1)
    | none =>
      if ch = ':' then
        if (charAt input (pos + 1)).any isSymbolStart then do
          let (value,finish) ← readSymbol input (pos + 1)
          .ok (some ⟨.keyword value,⟨pos,finish⟩⟩,finish)
        else .ok (some ⟨.colon,⟨pos,pos + 1⟩⟩,pos + 1)
      else if ch = '-' then
        if charAt input (pos + 1) = some '>' then .ok (some ⟨.arrow,⟨pos,pos + 1 + 1⟩⟩,pos + 1 + 1)
        else if (charAt input (pos + 1)).any Char.isDigit then
          let (kind,finish) := readNumber parseFloat zero input (pos + 1) true
          .ok (some ⟨kind,⟨pos,finish⟩⟩,finish)
        else do
          let (symbol,finish) ← readSymbol input (pos + 1)
          .ok (some ⟨.symbol ('-' :: symbol),⟨pos,finish⟩⟩,finish)
      else if ch = '"' then
        if quotes <+: rest then do
          let (value,finish) ← readRawMultilineString input (pos + 3) pos
          .ok (some ⟨.str value,⟨pos,finish⟩⟩,finish)
        else do
          let (value,finish) ← readString input pos (byteLen input + 1) [] (pos + 1)
          .ok (some ⟨.str value,⟨pos,finish⟩⟩,finish)
      else if ch.isDigit then
        let (kind,finish) := readNumber parseFloat zero input pos false
        .ok (some ⟨kind,⟨pos,finish⟩⟩,finish)
      else if isSymbolStart ch then do
        let (symbol,finish) ← readSymbol input pos
        .ok (some ⟨wordKind symbol,⟨pos,finish⟩⟩,finish)
      else .error (lexError ("unexpected character: '" ++ ch.toString ++ "'") ⟨pos,pos + ch.utf8Size⟩ none)

/-- One round of the loop. -/
def lexOne (pos : Nat) : Except LexError (Option (Token F) × Nat) :=
  match suffix input pos with
  | none => .error .panic
  | some rest => lexChar parseFloat zero input pos rest (rest.head?.getD (Char.ofNat 0))

def tokenizeFrom : Nat → Nat → List (Token F) → Except LexError (List (Token F))
  | 0, _, _ => .error .stuck
  | rounds + 1, pos, tokens =>
    if pos < byteLen input then do
      let (token,next) ← lexOne parseFloat zero input pos
      tokenizeFrom rounds next (tokens ++ token.toList)
    else .ok tokens

def tokenizeSource : Except LexError (List (Token F)) := tokenizeFrom parseFloat zero input (byteLen input + 1) 0 []

end
end Nefor.Mag.Lexer
