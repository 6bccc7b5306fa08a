import Nefor.Tui.Wrap

/-! The editing state of a text input and its operations (`text_input.rs`). An operation that panics is `none`. -/
namespace Nefor.Tui
open SourceText

def historyCap : Nat := 128

structure ImeComposition where
  text : List Char
  anchor : Nat
  deriving DecidableEq

structure Snapshot where
  value : List Char
  cursor : Nat
  selectionAnchor : Option Nat
  deriving DecidableEq

/-- The most recent snapshots stand last. -/
structure TextInputState where
  lastValue : List Char
  cursor : Nat
  selectionAnchor : Option Nat
  scrollY : Nat
  viewportWidth : Nat
  composing : Option ImeComposition
  undo : List Snapshot
  redo : List Snapshot
  focused : Bool
  manualScroll : Bool
  deriving DecidableEq

structure EditOutcome where
  newValue : Option (List Char)
  submitted : Bool
  deriving DecidableEq

def EditOutcome.default : EditOutcome := ⟨none,false⟩

/-- The difference of two `usize`, which panics below zero. -/
def usizeSub (a b : Nat) : Option Nat := if b ≤ a then some (a - b) else none

def prevCharBoundary (s : List Char) (idx : Nat) : Nat := floorCharBoundary s (idx - 1)

def nextCharBoundary (s : List Char) (idx : Nat) : Nat :=
  if byteLen s ≤ idx then byteLen s else ceilCharBoundary s (byteLen s) (idx + 1)

/-- `while i > 0 && bytes[i - 1] != b'\n' { i -= 1 }`. -/
def lineStartFrom (s : List Char) : Nat → Nat
  | 0 => 0
  | i + 1 => if byteAt s i = some (byte '\n') then i + 1 else lineStartFrom s i

def lineStart (s : List Char) (idx : Nat) : Nat := lineStartFrom s (min idx (byteLen s))

def lineEnd (s : List Char) (idx : Nat) : Nat := skipBytes s (fun b => b ≠ byte '\n') (byteLen s) (min idx (byteLen s))

def isWordChar (glyphs : Glyphs) (c : Char) : Bool := glyphs.isAlphanumeric c || c == '_'

/-- `while i > 0` over the characters before `i` for which `p` holds. -/
def skipLeft (s : List Char) (p : Char → Bool) : Nat → Nat → Option Nat
  | 0, i => some i
  | rounds + 1, i =>
    if 0 < i then
      let prev := prevCharBoundary s i
      match range s prev i with
      | none => none
      | some slice => if p (slice.head?.getD ' ') then skipLeft s p rounds prev else some i
    else some i

/-- `while i < s.len()` over the characters from `i` on for which `p` holds. -/
def skipRight (s : List Char) (p : Char → Bool) : Nat → Nat → Option Nat
  | 0, i => some i
  | rounds + 1, i =>
    if i < byteLen s then
      match suffix s i with
      | none => none
      | some slice => if p (slice.head?.getD ' ') then skipRight s p rounds (nextCharBoundary s i) else some i
    else some i

def wordBoundaryLeft (glyphs : Glyphs) (s : List Char) (idx : Nat) : Option Nat := do
  let i ← skipLeft s (fun c => !isWordChar glyphs c) (byteLen s) (min idx (byteLen s))
  skipLeft s (isWordChar glyphs) (byteLen s) i

def wordBoundaryRight (glyphs : Glyphs) (s : List Char) (idx : Nat) : Option Nat := do
  let i ← skipRight s (fun c => !isWordChar glyphs c) (byteLen s) (min idx (byteLen s))
  skipRight s (isWordChar glyphs) (byteLen s) i

namespace TextInputState

def default : TextInputState where
  lastValue := []
  cursor := 0
  selectionAnchor := none
  scrollY := 0
  viewportWidth := 0
  composing := none
  undo := []
  redo := []
  focused := false
  manualScroll := false

def syncWithDesc (value : List Char) (focused : Bool) (state : TextInputState) : TextInputState :=
  if state.lastValue ≠ value then
    let lines := (value.count '\n' + 1) % 2 ^ 16
    { state with
      focused := focused
      lastValue := value
      cursor := byteLen value
      selectionAnchor := none
      manualScroll := false
      scrollY := if lines ≤ state.scrollY then lines - 1 else state.scrollY }
  else { state with focused := focused }

def snapshot (state : TextInputState) : Snapshot := ⟨state.lastValue,state.cursor,state.selectionAnchor⟩

/-- `if deque.len() == HISTORY_CAP { deque.pop_front() }; deque.push_back(snap)`. -/
def pushCapped (deque : List Snapshot) (snap : Snapshot) : List Snapshot :=
  (if deque.length = historyCap then deque.tail else deque) ++ [snap]

def pushUndo (state : TextInputState) : TextInputState :=
  { state with undo := pushCapped state.undo state.snapshot, redo := [] }

def restore (snap : Snapshot) (state : TextInputState) : TextInputState :=
  { state with lastValue := snap.value, cursor := snap.cursor, selectionAnchor := snap.selectionAnchor }

def selectionRange (state : TextInputState) : Option (Nat × Nat) :=
  state.selectionAnchor.map fun anchor => (min anchor state.cursor,max anchor state.cursor)

def clearSelection (state : TextInputState) : TextInputState := { state with selectionAnchor := none }

/-- `value.replace_range(lo..hi, s)` on the last value, with the cursor left at `cursor` and no selection. -/
def splice (lo hi : Nat) (s : List Char) (cursor : Nat) (state : TextInputState) : Option (TextInputState × EditOutcome) := do
  let value ← replaceRange state.lastValue lo hi s
  some ({ state with lastValue := value, cursor := cursor, selectionAnchor := none },⟨some value,false⟩)

def insertStr (s : List Char) (state : TextInputState) : Option (TextInputState × EditOutcome) :=
  if s = [] then some (state,.default)
  else
    let (lo,hi) := state.selectionRange.getD (state.cursor,state.cursor)
    state.pushUndo.splice lo hi s (lo + byteLen s)

def insertChar (ch : Char) (state : TextInputState) : Option (TextInputState × EditOutcome) := state.insertStr [ch]

def deleteSelection (state : TextInputState) : Option (TextInputState × EditOutcome) :=
  match state.selectionRange with
  | none => some (state,.default)
  | some (lo,hi) =>
    if lo = hi then some ({ state with selectionAnchor := none },.default)
    else state.pushUndo.splice lo hi [] lo

def backspace (state : TextInputState) : Option (TextInputState × EditOutcome) :=
  if state.selectionRange.isSome then state.deleteSelection
  else if state.cursor = 0 then some (state,.default)
  else
    let prev := prevCharBoundary state.lastValue state.cursor
    do
      let value ← replaceRange state.lastValue prev state.cursor []
      some ({ state.pushUndo with lastValue := value, cursor := prev },⟨some value,false⟩)

def deleteForward (state : TextInputState) : Option (TextInputState × EditOutcome) :=
  if state.selectionRange.isSome then state.deleteSelection
  else if byteLen state.lastValue ≤ state.cursor then some (state,.default)
  else
    let next := nextCharBoundary state.lastValue state.cursor
    do
      let value ← replaceRange state.lastValue state.cursor next []
      some ({ state.pushUndo with lastValue := value },⟨some value,false⟩)

def updateSelectionAnchor (extend : Bool) (state : TextInputState) : TextInputState :=
  if extend && state.selectionAnchor.isNone then { state with selectionAnchor := some state.cursor } else state

/-- The cursor at a new place, without the selection unless it is extended. -/
def moveTo (cursor : Nat) (extend : Bool) (state : TextInputState) : TextInputState × EditOutcome :=
  ({ state with cursor := cursor, selectionAnchor := if extend then state.selectionAnchor else none },.default)

def moveLeft (extend : Bool) (state : TextInputState) : Option (TextInputState × EditOutcome) :=
  let state := state.updateSelectionAnchor extend
  some (state.moveTo (prevCharBoundary state.lastValue state.cursor) extend)

def moveRight (extend : Bool) (state : TextInputState) : Option (TextInputState × EditOutcome) :=
  let state := state.updateSelectionAnchor extend
  some (state.moveTo (nextCharBoundary state.lastValue state.cursor) extend)

def moveToLineStart (extend : Bool) (state : TextInputState) : Option (TextInputState × EditOutcome) :=
  let state := state.updateSelectionAnchor extend
  some (state.moveTo (lineStart state.lastValue state.cursor) extend)

def moveToLineEnd (extend : Bool) (state : TextInputState) : Option (TextInputState × EditOutcome) :=
  let state := state.updateSelectionAnchor extend
  some (state.moveTo (lineEnd state.lastValue state.cursor) extend)

def moveUp (glyphs : Glyphs) (extend : Bool) (state : TextInputState) : Option (TextInputState × EditOutcome) :=
  let state := state.updateSelectionAnchor extend
  if 0 < state.viewportWidth then do
    let rows ← wrapValue glyphs state.lastValue state.viewportWidth
    let (visualRow,col) ← cursorInWrapFor glyphs state.lastValue rows state.cursor
    if visualRow = 0 then some (state,.default)
    else
      let cursor ← byteOffsetForVisual glyphs state.lastValue rows (visualRow - 1) col
      some (state.moveTo cursor extend)
  else
    let curLineStart := lineStart state.lastValue state.cursor
    if curLineStart = 0 then some (state,.default)
    else do
      let col ← usizeSub state.cursor curLineStart
      let prevLineEnd := curLineStart - 1
      let prevLineStart := lineStart state.lastValue prevLineEnd
      let prevLineLen ← usizeSub prevLineEnd prevLineStart
      some (state.moveTo (floorCharBoundary state.lastValue (prevLineStart + min col prevLineLen)) extend)

def moveDown (glyphs : Glyphs) (extend : Bool) (state : TextInputState) : Option (TextInputState × EditOutcome) :=
  let state := state.updateSelectionAnchor extend
  if 0 < state.viewportWidth then do
    let rows ← wrapValue glyphs state.lastValue state.viewportWidth
    let (visualRow,col) ← cursorInWrapFor glyphs state.lastValue rows state.cursor
    if rows.length ≤ visualRow + 1 then some (state,.default)
    else
      let cursor ← byteOffsetForVisual glyphs state.lastValue rows (visualRow + 1) col
      some (state.moveTo cursor extend)
  else
    let curLineStart := lineStart state.lastValue state.cursor
    let curLineEnd := lineEnd state.lastValue state.cursor
    if curLineEnd = byteLen state.lastValue then some (state,.default)
    else do
      let col ← usizeSub state.cursor curLineStart
      let nextLineStart := curLineEnd + 1
      let nextLineEnd := lineEnd state.lastValue nextLineStart
      let nextLineLen ← usizeSub nextLineEnd nextLineStart
      some (state.moveTo (floorCharBoundary state.lastValue (nextLineStart + min col nextLineLen)) extend)

def selectAll (state : TextInputState) : Option (TextInputState × EditOutcome) :=
  if state.lastValue = [] then some (state,.default)
  else some ({ state with selectionAnchor := some 0, cursor := byteLen state.lastValue },.default)

/-- The deletion of what lies between the cursor and a target before it. -/
def deleteBack (target : Nat) (state : TextInputState) : Option (TextInputState × EditOutcome) :=
  if target = state.cursor then some (state,.default) else state.pushUndo.splice target state.cursor [] target

/-- The deletion of what lies between the cursor and a target after it. -/
def deleteAhead (target : Nat) (state : TextInputState) : Option (TextInputState × EditOutcome) :=
  if target = state.cursor then some (state,.default) else state.pushUndo.splice state.cursor target [] state.cursor

def deleteToLineStart (state : TextInputState) : Option (TextInputState × EditOutcome) :=
  state.deleteBack (lineStart state.lastValue state.cursor)

def deleteToLineEnd (state : TextInputState) : Option (TextInputState × EditOutcome) :=
  state.deleteAhead (lineEnd state.lastValue state.cursor)

def deleteWordBackward (glyphs : Glyphs) (state : TextInputState) : Option (TextInputState × EditOutcome) := do
  let target ← wordBoundaryLeft glyphs state.lastValue state.cursor
  state.deleteBack target

def deleteWordForward (glyphs : Glyphs) (state : TextInputState) : Option (TextInputState × EditOutcome) := do
  let target ← wordBoundaryRight glyphs state.lastValue state.cursor
  state.deleteAhead target

def moveWordLeft (glyphs : Glyphs) (extend : Bool) (state : TextInputState) : Option (TextInputState × EditOutcome) := do
  let state := state.updateSelectionAnchor extend
  let target ← wordBoundaryLeft glyphs state.lastValue state.cursor
  some (state.moveTo target extend)

def moveWordRight (glyphs : Glyphs) (extend : Bool) (state : TextInputState) : Option (TextInputState × EditOutcome) := do
  let state := state.updateSelectionAnchor extend
  let target ← wordBoundaryRight glyphs state.lastValue state.cursor
  some (state.moveTo target extend)

def undoEdit (state : TextInputState) : Option (TextInputState × EditOutcome) :=
  match state.undo.getLast? with
  | none => some (state,.default)
  | some snap =>
    let restored := { state with undo := state.undo.dropLast, redo := pushCapped state.redo state.snapshot }.restore snap
    some (restored,⟨some restored.lastValue,false⟩)

def redoEdit (state : TextInputState) : Option (TextInputState × EditOutcome) :=
  match state.redo.getLast? with
  | none => some (state,.default)
  | some snap =>
    let restored := { state with redo := state.redo.dropLast, undo := pushCapped state.undo state.snapshot }.restore snap
    some (restored,⟨some restored.lastValue,false⟩)

def beginIme (text : List Char) (state : TextInputState) : TextInputState :=
  { state with composing := some ⟨text,state.cursor⟩ }

def updateIme (text : List Char) (state : TextInputState) : TextInputState :=
  match state.composing with
  | some composition => { state with composing := some { composition with text := text } }
  | none => state.beginIme text

def commitIme (state : TextInputState) : Option (TextInputState × EditOutcome) :=
  match state.composing with
  | none => some (state,.default)
  | some composition =>
    if composition.text = [] then some ({ state with composing := none },.default)
    else { state with composing := none, cursor := min composition.anchor (byteLen state.lastValue) }.insertStr composition.text

def cancelIme (state : TextInputState) : TextInputState := { state with composing := none }

end TextInputState

/-- What may be done to a text input; the layout pass sets the viewport's width. -/
inductive Edit
  | syncWithDesc (value : List Char) (focused : Bool)
  | viewport (width : Nat)
  | pushUndo
  | clearSelection
  | insertChar (ch : Char)
  | insertStr (s : List Char)
  | backspace
  | deleteForward
  | deleteSelection
  | moveLeft (extend : Bool)
  | moveRight (extend : Bool)
  | moveToLineStart (extend : Bool)
  | moveToLineEnd (extend : Bool)
  | moveUp (extend : Bool)
  | moveDown (extend : Bool)
  | selectAll
  | deleteToLineStart
  | deleteToLineEnd
  | deleteWordBackward
  | deleteWordForward
  | moveWordLeft (extend : Bool)
  | moveWordRight (extend : Bool)
  | undo
  | redo
  | beginIme (text : List Char)
  | updateIme (text : List Char)
  | commitIme
  | cancelIme

def Edit.apply (glyphs : Glyphs) (state : TextInputState) : Edit → Option (TextInputState × EditOutcome)
  | syncWithDesc value focused => some (state.syncWithDesc value focused,.default)
  | viewport width => some ({ state with viewportWidth := width },.default)
  | pushUndo => some (state.pushUndo,.default)
  | clearSelection => some (state.clearSelection,.default)
  | insertChar ch => state.insertChar ch
  | insertStr s => state.insertStr s
  | backspace => state.backspace
  | deleteForward => state.deleteForward
  | deleteSelection => state.deleteSelection
  | moveLeft extend => state.moveLeft extend
  | moveRight extend => state.moveRight extend
  | moveToLineStart extend => state.moveToLineStart extend
  | moveToLineEnd extend => state.moveToLineEnd extend
  | moveUp extend => state.moveUp glyphs extend
  | moveDown extend => state.moveDown glyphs extend
  | selectAll => state.selectAll
  | deleteToLineStart => state.deleteToLineStart
  | deleteToLineEnd => state.deleteToLineEnd
  | deleteWordBackward => state.deleteWordBackward glyphs
  | deleteWordForward => state.deleteWordForward glyphs
  | moveWordLeft extend => state.moveWordLeft glyphs extend
  | moveWordRight extend => state.moveWordRight glyphs extend
  | undo => state.undoEdit
  | redo => state.redoEdit
  | beginIme text => some (state.beginIme text,.default)
  | updateIme text => some (state.updateIme text,.default)
  | commitIme => state.commitIme
  | cancelIme => some (state.cancelIme,.default)

/-- A run of edits, which ends at the first panic. -/
def Edit.run (glyphs : Glyphs) (state : TextInputState) : List Edit → Option TextInputState
  | [] => some state
  | edit :: rest => do
    let (after,_) ← edit.apply glyphs state
    run glyphs after rest

end Nefor.Tui
