import Mathlib.Algebra.Order.Ring.Nat
import Mathlib.Algebra.BigOperators.Group.List.Basic
import Nefor.ToolGate.Frames
import Nefor.Tui.Description

/-! Wrapping of plain and of styled text into rows (`layout.rs`): the two families of loops, one over
the characters of a string and one over styled characters. -/
namespace Nefor.Tui.Layout
open ToolGate (isWhitespace)

/-- The rows that a loop has pushed, and the one that it is filling, `col` columns wide so far. -/
structure Filling (α : Type) where
  out : List (List α)
  current : List α
  col : Nat
  deriving DecidableEq, Repr

namespace Filling
variable {α : Type}

def empty : Filling α := ⟨[],[],0⟩

/-- `out.push(std::mem::take(&mut current))` and `col = 0`. -/
def flush (f : Filling α) : Filling α := ⟨f.out ++ [f.current],[],0⟩

/-- After the loop, what is left is a row. -/
def finish (f : Filling α) : List (List α) := if f.current = [] then f.out else f.out ++ [f.current]

end Filling

/-- `UnicodeWidthChar::width(c).unwrap_or(0)` is taken from the Unicode tables. -/
abbrev CharWidth := Char → Nat

variable (charWidth : CharWidth)

/-! Plain text. -/

def stringWidth (s : List Char) : Nat := (s.map charWidth).sum

def takeColumnsLoop (limit : Nat) : List Char → (taken : Nat) → List Char
  | [], _ => []
  | ch :: rest, taken =>
    if limit < taken + charWidth ch then [] else ch :: takeColumnsLoop limit rest (taken + charWidth ch)

def takeColumns (s : List Char) (width : UInt16) : List Char := takeColumnsLoop charWidth width.toNat s 0

def takeColumnsWithEllipsis (s : List Char) (width : UInt16) : List Char :=
  let limit := width.toNat
  if stringWidth charWidth s ≤ limit then s
  else
    let ellipsisWidth := charWidth '…'
    if limit < ellipsisWidth then []
    else takeColumns charWidth s (.ofNat (limit - ellipsisWidth)) ++ ['…']

/-- The loop goes from the end, and `kept` is the slice from `start` on. -/
def takeTailColumnsLoop (limit : Nat) : List Char → (taken : Nat) → (kept : List Char) → List Char
  | [], _, kept => kept
  | ch :: rest, taken, kept =>
    if limit < taken + charWidth ch then kept
    else takeTailColumnsLoop limit rest (taken + charWidth ch) (ch :: kept)

def takeTailColumns (s : List Char) (width : UInt16) : List Char :=
  takeTailColumnsLoop charWidth width.toNat s.reverse 0 []

def takeTailColumnsWithEllipsis (s : List Char) (width : UInt16) : List Char :=
  let limit := width.toNat
  if stringWidth charWidth s ≤ limit then s
  else
    let ellipsisWidth := charWidth '…'
    if limit < ellipsisWidth then []
    else '…' :: takeTailColumns charWidth s (.ofNat (limit - ellipsisWidth))

def wrapCharStep (limit : Nat) (f : Filling Char) (ch : Char) : Filling Char :=
  let w := charWidth ch
  let f := if limit < f.col + w ∧ f.current ≠ [] then f.flush else f
  if limit < w then
    let f := if f.current ≠ [] then f.flush else f
    ⟨f.out ++ [[ch]],[],0⟩
  else ⟨f.out,f.current ++ [ch],f.col + w⟩

def wrapChar (line : List Char) (width : UInt16) : List (List Char) :=
  (line.foldl (wrapCharStep charWidth width.toNat) .empty).finish

/-- The runs of white and of other characters; the run that began at `start` is `run` so far. -/
def splitKeepingSpacesLoop : (inSpace : Bool) → (run : List Char) → List Char → List (List Char)
  | _, run, [] => if run = [] then [] else [run]
  | inSpace, run, c :: rest =>
    let cw := isWhitespace c
    if cw ≠ inSpace then run :: splitKeepingSpacesLoop cw [c] rest
    else splitKeepingSpacesLoop inSpace (run ++ [c]) rest

def splitKeepingSpaces (s : List Char) : List (List Char) :=
  splitKeepingSpacesLoop (s.head?.any isWhitespace) [] s

def wrapWordStep (width : UInt16) (f : Filling Char) (word : List Char) : Filling Char :=
  let limit := width.toNat
  let ww := stringWidth charWidth word
  let isWs := word.all isWhitespace
  if 0 < f.col ∧ limit < f.col + ww ∧ isWs then f.flush
  else
    let f := if 0 < f.col ∧ limit < f.col + ww then f.flush else f
    -- What is left in `current` at column 0 is cleared.
    if f.col = 0 ∧ limit < ww then ⟨f.out ++ wrapChar charWidth word width,[],0⟩
    else ⟨f.out,f.current ++ word,f.col + ww⟩

def wrapWord (line : List Char) (width : UInt16) : List (List Char) :=
  ((splitKeepingSpaces line).foldl (wrapWordStep charWidth width) .empty).finish

/-- The rows of a line. -/
def wrapLine (width : UInt16) (wrap : WrapMode) (rawLine : List Char) : List (List Char) :=
  match wrap with
  | .none => [takeColumns charWidth rawLine width]
  | .ellipsis => [takeColumnsWithEllipsis charWidth rawLine width]
  | .tail => [takeTailColumns charWidth rawLine width]
  | .tailEllipsis => [takeTailColumnsWithEllipsis charWidth rawLine width]
  | .char => wrapChar charWidth rawLine width
  | .word => wrapWord charWidth rawLine width

def wrapText (content : List Char) (width : UInt16) (wrap : WrapMode) : List (List Char) :=
  if width = 0 then [] else (content.splitOn '\n').flatMap (wrapLine charWidth width wrap)

/-! Styled text. -/

structure LinkTarget where
  raw : String
  deriving DecidableEq, Repr

structure StyledChar where
  ch : Char
  style : Style
  link : Option LinkTarget
  deriving DecidableEq, Repr

def styledCharsFromStr (s : List Char) (style : Style) : List StyledChar := s.map fun ch => ⟨ch,style,none⟩

def styledWidth (line : List StyledChar) : Nat := (line.map fun c => charWidth c.ch).sum

def takeStyledColumnsLoop (limit : Nat) : List StyledChar → (taken : Nat) → List StyledChar
  | [], _ => []
  | c :: rest, taken =>
    let w := charWidth c.ch
    if limit < taken + w then [] else c :: takeStyledColumnsLoop limit rest (taken + w)

def takeStyledColumns (line : List StyledChar) (limit : Nat) : List StyledChar :=
  takeStyledColumnsLoop charWidth limit line 0

def takeStyledColumnsWithEllipsis (line : List StyledChar) (limit : Nat) : List StyledChar :=
  if styledWidth charWidth line ≤ limit then line
  else
    let ellipsisWidth := charWidth '…'
    if limit < ellipsisWidth then []
    else takeStyledColumns charWidth line (limit - ellipsisWidth) ++
      [⟨'…',line.getLast?.elim .empty StyledChar.style,line.getLast?.bind StyledChar.link⟩]

/-- The loop goes from the end: `index` elements are before those left, and the slice begins at `start`. -/
def styledTailStart (limit : Nat) : List StyledChar → (taken start : Nat) → Nat
  | [], _, start => start
  | c :: rest, taken, start =>
    let width := charWidth c.ch
    if limit < taken + width then start else styledTailStart limit rest (taken + width) rest.length

def takeStyledTailColumns (line : List StyledChar) (limit : Nat) : List StyledChar :=
  line.drop (styledTailStart charWidth limit line.reverse 0 line.length)

def takeStyledTailColumnsWithEllipsis (line : List StyledChar) (limit : Nat) : List StyledChar :=
  if styledWidth charWidth line ≤ limit then line
  else
    let ellipsisWidth := charWidth '…'
    if limit < ellipsisWidth then []
    else ⟨'…',line.head?.elim .empty StyledChar.style,line.head?.bind StyledChar.link⟩ ::
      takeStyledTailColumns charWidth line (limit - ellipsisWidth)

def wrapStyledCharStep (limit : Nat) (f : Filling StyledChar) (c : StyledChar) : Filling StyledChar :=
  let w := charWidth c.ch
  let f := if limit < f.col + w ∧ f.current ≠ [] then f.flush else f
  if limit < w then
    let f := if f.current ≠ [] then f.flush else f
    ⟨f.out ++ [[c]],[],0⟩
  else ⟨f.out,f.current ++ [c],f.col + w⟩

def wrapStyledChar (line : List StyledChar) (limit : Nat) : List (List StyledChar) :=
  (line.foldl (wrapStyledCharStep charWidth limit) .empty).finish

def splitStyledWordsLoop : (inSpace : Bool) → (word : List StyledChar) → List StyledChar → List (List StyledChar)
  | _, word, [] => if word = [] then [] else [word]
  | inSpace, word, c :: rest =>
    let cw := isWhitespace c.ch
    if cw ≠ inSpace then word :: splitStyledWordsLoop cw [c] rest
    else splitStyledWordsLoop inSpace (word ++ [c]) rest

def splitStyledWords (line : List StyledChar) : List (List StyledChar) :=
  match line with
  | [] => []
  | c :: rest => splitStyledWordsLoop (isWhitespace c.ch) [] (c :: rest)

def wrapStyledWordStep (limit : Nat) (f : Filling StyledChar) (word : List StyledChar) : Filling StyledChar :=
  let ww := styledWidth charWidth word
  let isWs := word.all fun c => isWhitespace c.ch
  if 0 < f.col ∧ limit < f.col + ww ∧ isWs then f.flush
  else
    let f := if 0 < f.col ∧ limit < f.col + ww then f.flush else f
    if f.col = 0 ∧ limit < ww then ⟨f.out ++ wrapStyledChar charWidth word limit,[],0⟩
    else ⟨f.out,f.current ++ word,f.col + ww⟩

def wrapStyledWord (line : List StyledChar) (limit : Nat) : List (List StyledChar) :=
  ((splitStyledWords line).foldl (wrapStyledWordStep charWidth limit) .empty).finish

/-- The lines so far, and the one that is being read. -/
def logicalStep (sofar : List (List StyledChar) × List StyledChar) (c : StyledChar) :
    List (List StyledChar) × List StyledChar :=
  if c.ch = '\n' then (sofar.1 ++ [sofar.2],[]) else (sofar.1,sofar.2 ++ [c])

def logicalLines (chars : List StyledChar) : List (List StyledChar) :=
  let (logical,line) := chars.foldl logicalStep ([],[])
  if line ≠ [] ∨ chars ≠ [] then logical ++ [line] else logical

/-- The rows of a line; an empty one stays an empty row. -/
def wrapStyledLine (limit : Nat) (wrap : WrapMode) (raw : List StyledChar) : List (List StyledChar) :=
  if raw = [] then [[]]
  else
    match wrap with
    | .none => [takeStyledColumns charWidth raw limit]
    | .ellipsis => [takeStyledColumnsWithEllipsis charWidth raw limit]
    | .tail => [takeStyledTailColumns charWidth raw limit]
    | .tailEllipsis => [takeStyledTailColumnsWithEllipsis charWidth raw limit]
    | .char => wrapStyledChar charWidth raw limit
    | .word => wrapStyledWord charWidth raw limit

def wrapStyled (chars : List StyledChar) (width : UInt16) (wrap : WrapMode) : List (List StyledChar) :=
  if width = 0 then [] else (logicalLines chars).flatMap (wrapStyledLine charWidth width.toNat wrap)

end Nefor.Tui.Layout
