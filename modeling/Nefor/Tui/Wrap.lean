import Nefor.TextOffsets
import Nefor.ToolGate.Frames

/-! Soft wrapping of a text input's value, and the mapping between offsets and visual positions
(`text_input.rs`). A slice of the value that is not on character boundaries panics: it is `none`. -/
namespace Nefor.Tui
open SourceText
open ToolGate (isWhitespace)

/-- What is taken from the Unicode tables. -/
structure Glyphs where
  /-- `UnicodeWidthChar::width(c).unwrap_or(0)`. -/
  charCellWidth : Char → Nat
  isAlphanumeric : Char → Bool

/-- `chars().map(char_cell_width).sum()`. -/
def Glyphs.cells (glyphs : Glyphs) (cs : List Char) : Nat := (cs.map glyphs.charCellWidth).sum

structure WrappedRow where
  startByte : Nat
  endByte : Nat
  width : Nat
  terminatedByNewline : Bool
  deriving DecidableEq

/-- The runs of white and of other characters. -/
def splitKeepingSpaces (s : List Char) : List (List Char) := s.splitBy fun a b => isWhitespace a == isWhitespace b

/-- The rows of a run from `byte` on, where the row that is being filled began at `start` and is `col` wide. -/
def charWrapRun (glyphs : Glyphs) (sliceOrigin limit : Nat) : List Char → (start byte col : Nat) → List WrappedRow
  | [], start, byte, col => if start < byte then [⟨sliceOrigin + start,sliceOrigin + byte,col,false⟩] else []
  | ch :: rest, start, byte, col =>
    let w := glyphs.charCellWidth ch
    let next := byte + ch.utf8Size
    if limit < w then
      (if start < byte then [⟨sliceOrigin + start,sliceOrigin + byte,col,false⟩] else []) ++
        ⟨sliceOrigin + byte,sliceOrigin + next,w,false⟩ :: charWrapRun glyphs sliceOrigin limit rest next next 0
    else if limit < col + w then
      ⟨sliceOrigin + start,sliceOrigin + byte,col,false⟩ :: charWrapRun glyphs sliceOrigin limit rest byte next w
    else charWrapRun glyphs sliceOrigin limit rest start next (col + w)

/-- The rows of the runs from `cursor` on, where the row that is being filled began at `rowStart` and is `col`
wide. -/
def wrapRuns (glyphs : Glyphs) (sliceOrigin limit : Nat) (terminatorIsNewline : Bool) :
    List (List Char) → (rowStart cursor col : Nat) → List WrappedRow
  | [], rowStart, cursor, col => [⟨sliceOrigin + rowStart,sliceOrigin + cursor,col,terminatorIsNewline⟩]
  | run :: rest, rowStart, cursor, col =>
    let runW := glyphs.cells run
    let next := cursor + byteLen run
    if col = 0 ∧ limit < runW then
      charWrapRun glyphs (sliceOrigin + cursor) limit run 0 0 0 ++
        wrapRuns glyphs sliceOrigin limit terminatorIsNewline rest next next 0
    else if limit < col + runW then
      ⟨sliceOrigin + rowStart,sliceOrigin + cursor,col,false⟩ ::
        if run.all isWhitespace then wrapRuns glyphs sliceOrigin limit terminatorIsNewline rest next next 0
        else wrapRuns glyphs sliceOrigin limit terminatorIsNewline rest cursor next runW
    else wrapRuns glyphs sliceOrigin limit terminatorIsNewline rest rowStart next (col + runW)

def wrapLogicalLine (glyphs : Glyphs) (line : List Char) (sliceOrigin limit : Nat) (terminatorIsNewline : Bool) :
    List WrappedRow :=
  if line = [] then [⟨sliceOrigin,sliceOrigin,0,terminatorIsNewline⟩]
  else wrapRuns glyphs sliceOrigin limit terminatorIsNewline (splitKeepingSpaces line) 0 0 0

/-- The walk over the value: `i` is where the characters left begin, `logicalStart` where their line does. -/
def wrapLines (glyphs : Glyphs) (value : List Char) (limit : Nat) : List Char → (i logicalStart : Nat) → Option (List WrappedRow)
  | [], i, logicalStart => do
    let line ← range value logicalStart i
    some (wrapLogicalLine glyphs line logicalStart limit false)
  | ch :: rest, i, logicalStart =>
    if ch = '\n' then do
      let line ← range value logicalStart i
      let rows := wrapLogicalLine glyphs line logicalStart limit true
      if i + 1 = byteLen value then
        -- A trailing newline leaves a row for the cursor to sit on.
        some (rows ++ [⟨byteLen value,byteLen value,0,false⟩])
      else
        let more ← wrapLines glyphs value limit rest (i + 1) (i + 1)
        some (rows ++ more)
    else wrapLines glyphs value limit rest (i + ch.utf8Size) logicalStart

def wrapValue (glyphs : Glyphs) (value : List Char) (width : Nat) : Option (List WrappedRow) :=
  if width = 0 then some [⟨0,byteLen value,0,false⟩]
  else (wrapLines glyphs value width value 0 0).map fun out => if out.isEmpty then [⟨0,0,0,false⟩] else out

/-- The first row that takes a cursor: one that contains it, unless the next row starts where it ends. -/
def coveringRow (cursor : Nat) : List WrappedRow → Option (Nat × WrappedRow)
  | [] => none
  | row :: rest =>
    let nextStartsHere := rest.head?.any fun next => next.startByte = cursor ∧ cursor = row.endByte
    if row.startByte ≤ cursor ∧ cursor ≤ row.endByte ∧ ¬ (nextStartsHere ∧ row.terminatedByNewline = false) then
      some (0,row)
    else (coveringRow cursor rest).map fun (i,row) => (i + 1,row)

def cursorInWrapFor (glyphs : Glyphs) (value : List Char) (rows : List WrappedRow) (cursor : Nat) : Option (Nat × Nat) :=
  match rows.getLast?, coveringRow cursor rows with
  | none, _ => some (0,0)
  | some _, some (i,row) => do
    let localEnd := min cursor (byteLen value)
    let slice ← range value (min row.startByte localEnd) localEnd
    some (i,glyphs.cells slice)
  | some last, none => some (rows.length - 1,last.width)

/-- The offset, from `lastByte` on, of the character that passes the column. -/
def offsetOfCol (glyphs : Glyphs) (targetCol endByte : Nat) : List Char → (col lastByte : Nat) → Nat
  | [], _, _ => endByte
  | ch :: rest, col, lastByte =>
    let w := glyphs.charCellWidth ch
    if targetCol < col + w then lastByte else offsetOfCol glyphs targetCol endByte rest (col + w) (lastByte + ch.utf8Size)

def byteOffsetForVisual (glyphs : Glyphs) (value : List Char) (rows : List WrappedRow) (visualRow targetCol : Nat) :
    Option Nat :=
  match rows[visualRow]? with
  | none => some (rows.getLast?.elim (byteLen value) WrappedRow.endByte)
  | some row =>
    if targetCol = 0 then some row.startByte
    else do
      let slice ← range value row.startByte row.endByte
      some (offsetOfCol glyphs targetCol row.endByte slice 0 row.startByte)

end Nefor.Tui
