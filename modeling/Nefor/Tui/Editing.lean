import Nefor.Tui.TextInput
import Nefor.Tui.WrapRows

/-! Edits keep the cursor, the selection and the histories inside the text. -/
namespace Nefor.Tui
open SourceText

variable {glyphs : Glyphs} {s value : List Char} {idx : Nat}

/-! Where the movements end. -/

theorem prevCharBoundary_boundary (s : List Char) (idx : Nat) : Boundary s (prevCharBoundary s idx) :=
  floorCharBoundary_boundary s (idx - 1)

theorem prevCharBoundary_le (s : List Char) (idx : Nat) : prevCharBoundary s idx ≤ idx :=
  (floorCharBoundary_le s (idx - 1)).trans (Nat.sub_le idx 1)

theorem nextCharBoundary_boundary (s : List Char) (idx : Nat) : Boundary s (nextCharBoundary s idx) := by
  unfold nextCharBoundary
  split
  · exact boundary_byteLen s
  · apply ceilCharBoundary_boundary <;> omega

theorem le_nextCharBoundary (h : idx ≤ byteLen s) : idx ≤ nextCharBoundary s idx := by
  unfold nextCharBoundary
  split
  · exact h
  · have hle := @le_ceilCharBoundary s (idx + 1) (byteLen s)
    omega

theorem lineStartFrom_spec (s : List Char) (i : Nat) : Boundary s (lineStartFrom s i) ∧ lineStartFrom s i ≤ i := by
  induction i with
  | zero => exact ⟨boundary_zero s,Nat.le_refl 0⟩
  | succ i ih =>
    rw [lineStartFrom]
    split
    · next h =>
      obtain ⟨c,rest,hat,hc,hbyte⟩ := at_of_byteAt h (by decide)
      have hnext := hat.next
      rw [utf8Size_ascii hc] at hnext
      exact ⟨⟨rest,hnext⟩,Nat.le_refl _⟩
    · exact ⟨ih.1,ih.2.trans (Nat.le_succ i)⟩

theorem lineStart_boundary (s : List Char) (idx : Nat) : Boundary s (lineStart s idx) := (lineStartFrom_spec s _).1

theorem lineStart_le (s : List Char) (idx : Nat) : lineStart s idx ≤ idx :=
  (lineStartFrom_spec s _).2.trans (Nat.min_le_left idx (byteLen s))

/-- The end of a line lies at a newline or at the end of the text. -/
theorem lineEnd_spec (h : Boundary s idx) : Boundary s (lineEnd s idx) ∧ idx ≤ lineEnd s idx ∧
    (lineEnd s idx ≠ byteLen s → Boundary s (lineEnd s idx + 1)) := by
  have hle := h.le
  obtain ⟨rest,hat⟩ := h
  have heq : lineEnd s idx = idx + byteLen (rest.takeWhile fun c => c ≠ '\n') := by
    rw [lineEnd,min_eq_left hle]
    apply hat.skipBytes
    · intro c hc b hb
      rw [decide_eq_true_eq]
      rintro rfl
      by_cases hascii : c.toNat < 128
      · rw [utf8EncodeChar_ascii hascii,List.mem_singleton] at hb
        obtain rfl := (byte_inj (by decide) hascii).mp hb
        simp at hc
      · have hhigh := le_of_mem_utf8EncodeChar hascii hb
        simp [byte] at hhigh
    · intro c hc b hb
      obtain rfl : c = '\n' := by simpa using hc
      rw [utf8EncodeChar_ascii (by decide),List.head?_cons,Option.some.injEq] at hb
      simp [hb]
    · rw [hat.byteLen]
      omega
  obtain ⟨after,hsplit,-,hstop⟩ := takeWhile_split (fun c => decide (c ≠ '\n')) rest
  have hend := At.advance (hsplit ▸ hat)
  rw [← heq] at hend
  refine ⟨⟨after,hend⟩,by omega,fun hne => ?_⟩
  cases after with
  | nil => exact absurd (by simpa using hend.byteLen.symm) hne
  | cons c after =>
    obtain rfl : c = '\n' := by simpa using hstop c rfl
    exact ⟨after,hend.next⟩

theorem skipLeft_spec (p : Char → Bool) (rounds : Nat) (h : Boundary s idx) :
    ∃ i, skipLeft s p rounds idx = some i ∧ Boundary s i ∧ i ≤ idx := by
  induction rounds generalizing idx with
  | zero => exact ⟨idx,rfl,h,Nat.le_refl idx⟩
  | succ rounds ih =>
    rw [skipLeft]
    split
    · have hprev := prevCharBoundary_boundary s idx
      have hle := prevCharBoundary_le s idx
      obtain ⟨slice,hslice⟩ := hprev.range h hle
      simp only [hslice]
      split
      · obtain ⟨i,hi,hboundary,hi_le⟩ := ih hprev
        exact ⟨i,hi,hboundary,hi_le.trans hle⟩
      · exact ⟨idx,rfl,h,Nat.le_refl idx⟩
    · exact ⟨idx,rfl,h,Nat.le_refl idx⟩

theorem skipRight_spec (p : Char → Bool) (rounds : Nat) (h : Boundary s idx) :
    ∃ i, skipRight s p rounds idx = some i ∧ Boundary s i ∧ idx ≤ i := by
  induction rounds generalizing idx with
  | zero => exact ⟨idx,rfl,h,Nat.le_refl idx⟩
  | succ rounds ih =>
    rw [skipRight]
    split
    · obtain ⟨rest,hat⟩ := h
      simp only [hat.suffix]
      split
      · obtain ⟨i,hi,hboundary,hle⟩ := ih (nextCharBoundary_boundary s idx)
        exact ⟨i,hi,hboundary,(le_nextCharBoundary (Boundary.le ⟨rest,hat⟩)).trans hle⟩
      · exact ⟨idx,rfl,⟨rest,hat⟩,Nat.le_refl idx⟩
    · exact ⟨idx,rfl,h,Nat.le_refl idx⟩

theorem wordBoundaryLeft_spec (glyphs : Glyphs) (h : Boundary s idx) :
    ∃ i, wordBoundaryLeft glyphs s idx = some i ∧ Boundary s i ∧ i ≤ idx := by
  obtain ⟨i,hi,hboundary,hle⟩ := skipLeft_spec (fun c => !isWordChar glyphs c) (byteLen s) h
  obtain ⟨j,hj,hboundary',hle'⟩ := skipLeft_spec (isWordChar glyphs) (byteLen s) hboundary
  rw [wordBoundaryLeft,min_eq_left h.le,hi]
  exact ⟨j,hj,hboundary',hle'.trans hle⟩

theorem wordBoundaryRight_spec (glyphs : Glyphs) (h : Boundary s idx) :
    ∃ i, wordBoundaryRight glyphs s idx = some i ∧ Boundary s i ∧ idx ≤ i := by
  obtain ⟨i,hi,hboundary,hle⟩ := skipRight_spec (fun c => !isWordChar glyphs c) (byteLen s) h
  obtain ⟨j,hj,hboundary',hle'⟩ := skipRight_spec (isWordChar glyphs) (byteLen s) hboundary
  rw [wordBoundaryRight,min_eq_left h.le,hi]
  exact ⟨j,hj,hboundary',hle.trans hle'⟩

/-! Rows. -/

theorem coveringRow_mem {rows : List WrappedRow} {i : Nat} {row : WrappedRow} (h : coveringRow idx rows = some (i,row)) :
    row ∈ rows ∧ row.startByte ≤ idx ∧ idx ≤ row.endByte := by
  induction rows generalizing i with
  | nil => cases h
  | cons first rest ih =>
    rw [coveringRow] at h
    split at h
    · next hcovers =>
      cases h
      exact ⟨List.mem_cons_self,hcovers.1,hcovers.2.1⟩
    · obtain ⟨⟨j,found⟩,hfound,heq⟩ := Option.map_eq_some_iff.mp h
      cases heq
      obtain ⟨hmem,hcovers⟩ := ih hfound
      exact ⟨List.mem_cons_of_mem first hmem,hcovers⟩

theorem offsetOfCol_boundary {targetCol endByte : Nat} {slice rest : List Char} (hend : Boundary value endByte) (col : Nat)
    (hat : At value idx (slice ++ rest)) : Boundary value (offsetOfCol glyphs targetCol endByte slice col idx) := by
  induction slice generalizing col idx with
  | nil => exact hend
  | cons ch slice ih =>
    rw [offsetOfCol]
    split
    · exact ⟨_,hat⟩
    · exact ih _ hat.next

/-- The cursor has a visual position, and every visual position has an offset. -/
theorem visual_spec {rows : List WrappedRow}
    (hrows : ∀ row ∈ rows, Boundary value row.startByte ∧ Boundary value row.endByte ∧ row.startByte ≤ row.endByte) :
    (∀ cursor, Boundary value cursor → ∃ position, cursorInWrapFor glyphs value rows cursor = some position) ∧
    ∀ visualRow targetCol, ∃ offset, byteOffsetForVisual glyphs value rows visualRow targetCol = some offset ∧
      Boundary value offset := by
  refine ⟨fun cursor hcursor => ?_,fun visualRow targetCol => ?_⟩
  · unfold cursorInWrapFor
    split
    · exact ⟨_,rfl⟩
    · next i row _ hcovering =>
      obtain ⟨hmem,hle,-⟩ := coveringRow_mem hcovering
      obtain ⟨slice,hslice⟩ := (hrows row hmem).1.range hcursor hle
      simp only [min_eq_left hcursor.le,min_eq_left hle,hslice]
      exact ⟨_,rfl⟩
    · exact ⟨_,rfl⟩
  · unfold byteOffsetForVisual
    split
    · refine ⟨_,rfl,?_⟩
      cases hlast : rows.getLast? with
      | none => exact boundary_byteLen value
      | some last => exact (hrows last (List.mem_of_getLast? hlast)).2.1
    · next row hrow =>
      obtain ⟨hstart,hend,hle⟩ := hrows row (List.mem_of_getElem? hrow)
      split
      · exact ⟨_,rfl,hstart⟩
      · obtain ⟨before,middle,after,rfl,hbefore,hmiddle⟩ := hstart.cut hend hle
        rw [hbefore,hmiddle,range_append]
        refine ⟨_,rfl,?_⟩
        apply @offsetOfCol_boundary _ _ _ _ _ _ after (hmiddle ▸ hend)
        exact ⟨before,by simp,rfl⟩

/-! The state. -/

structure Snapshot.Valid (snap : Snapshot) : Prop where
  cursor : Boundary snap.value snap.cursor
  anchor : ∀ anchor ∈ snap.selectionAnchor, Boundary snap.value anchor

/-- The cursor and the selection lie on character boundaries of the last value, now and in every snapshot, and
the histories keep to their cap. -/
structure TextInputState.Valid (state : TextInputState) : Prop where
  now : state.snapshot.Valid
  undo : ∀ snap ∈ state.undo, snap.Valid
  redo : ∀ snap ∈ state.redo, snap.Valid
  undoCap : state.undo.length ≤ historyCap
  redoCap : state.redo.length ≤ historyCap

/-- The edit goes through, and keeps the state valid. -/
def Keeps (result : Option (TextInputState × EditOutcome)) : Prop :=
  ∃ after outcome, result = some (after,outcome) ∧ after.Valid

namespace TextInputState
variable {state : TextInputState}

theorem default_valid : default.Valid :=
  ⟨⟨boundary_zero [],nofun⟩,nofun,nofun,Nat.zero_le _,Nat.zero_le _⟩

theorem Valid.keeps (h : state.Valid) (outcome : EditOutcome) : Keeps (some (state,outcome)) := ⟨state,outcome,rfl,h⟩

theorem Valid.boundary (h : state.Valid) : Boundary state.lastValue state.cursor := h.now.cursor

/-- What the state shows may be replaced. -/
theorem Valid.shows (h : state.Valid) {after : TextInputState} (hcursor : Boundary after.lastValue after.cursor)
    (hanchor : ∀ anchor ∈ after.selectionAnchor, Boundary after.lastValue anchor) (hundo : after.undo = state.undo)
    (hredo : after.redo = state.redo) : after.Valid :=
  ⟨⟨hcursor,hanchor⟩,hundo ▸ h.undo,hredo ▸ h.redo,hundo ▸ h.undoCap,hredo ▸ h.redoCap⟩

theorem pushCapped_valid {deque : List Snapshot} {snap : Snapshot} (hdeque : ∀ snap ∈ deque, snap.Valid)
    (hcap : deque.length ≤ historyCap) (hsnap : snap.Valid) :
    (∀ found ∈ pushCapped deque snap, found.Valid) ∧ (pushCapped deque snap).length ≤ historyCap := by
  unfold pushCapped
  split
  · constructor
    · intro found hfound
      obtain hfound | hfound := List.mem_append.mp hfound
      · exact hdeque found (List.mem_of_mem_tail hfound)
      · rw [List.mem_singleton.mp hfound]
        exact hsnap
    · rw [List.length_append,List.length_tail,List.length_singleton]
      unfold historyCap at *
      omega
  · constructor
    · intro found hfound
      obtain hfound | hfound := List.mem_append.mp hfound
      · exact hdeque found hfound
      · rw [List.mem_singleton.mp hfound]
        exact hsnap
    · rw [List.length_append,List.length_singleton]
      omega

theorem Valid.pushUndo (h : state.Valid) : state.pushUndo.Valid := by
  have hpushed := pushCapped_valid h.undo h.undoCap h.now
  exact ⟨h.now,hpushed.1,nofun,hpushed.2,Nat.zero_le _⟩

theorem Valid.updateSelectionAnchor (h : state.Valid) (extend : Bool) : (state.updateSelectionAnchor extend).Valid := by
  unfold TextInputState.updateSelectionAnchor
  split
  · refine h.shows h.boundary (fun anchor hanchor => ?_) rfl rfl
    cases hanchor
    exact h.boundary
  · exact h

theorem Valid.moveTo (h : state.Valid) {cursor : Nat} (hcursor : Boundary state.lastValue cursor) (extend : Bool) :
    Keeps (some (state.moveTo cursor extend)) := by
  refine ⟨_,_,rfl,h.shows hcursor (fun anchor hanchor => ?_) rfl rfl⟩
  cases extend with
  | false => cases hanchor
  | true => exact h.now.anchor anchor hanchor

theorem Valid.splice (h : state.Valid) {lo hi : Nat} (hlo : Boundary state.lastValue lo) (hhi : Boundary state.lastValue hi)
    (hle : lo ≤ hi) (s : List Char) : Keeps (state.splice lo hi s lo) ∧ Keeps (state.splice lo hi s (lo + byteLen s)) := by
  obtain ⟨value,hvalue,hstart,hend⟩ := hlo.replaceRange hhi hle s
  unfold TextInputState.splice
  rw [hvalue]
  exact ⟨⟨_,_,rfl,h.shows hstart nofun rfl rfl⟩,⟨_,_,rfl,h.shows hend nofun rfl rfl⟩⟩

theorem Valid.selectionRange (h : state.Valid) {lo hi : Nat} (hrange : state.selectionRange = some (lo,hi)) :
    Boundary state.lastValue lo ∧ Boundary state.lastValue hi ∧ lo ≤ hi := by
  obtain ⟨anchor,hanchor,heq⟩ := Option.map_eq_some_iff.mp hrange
  have hboundary := h.now.anchor anchor hanchor
  have hcursor := h.boundary
  cases heq
  obtain hle | hle := Nat.le_total anchor state.cursor
  · rw [min_eq_left hle,max_eq_right hle]
    exact ⟨hboundary,hcursor,hle⟩
  · rw [min_eq_right hle,max_eq_left hle]
    exact ⟨hcursor,hboundary,hle⟩

theorem Valid.insertStr (h : state.Valid) (s : List Char) : Keeps (state.insertStr s) := by
  unfold TextInputState.insertStr
  split
  · exact h.keeps _
  · cases hrange : state.selectionRange with
    | none => exact (h.pushUndo.splice h.boundary h.boundary (Nat.le_refl _) s).2
    | some range =>
      obtain ⟨hlo,hhi,hle⟩ := h.selectionRange hrange
      exact (h.pushUndo.splice hlo hhi hle s).2

theorem Valid.deleteSelection (h : state.Valid) : Keeps state.deleteSelection := by
  unfold TextInputState.deleteSelection
  split
  · exact h.keeps _
  · next lo hi hrange =>
    split
    · exact ⟨_,_,rfl,h.shows h.boundary nofun rfl rfl⟩
    · obtain ⟨hlo,hhi,hle⟩ := h.selectionRange hrange
      exact (h.pushUndo.splice hlo hhi hle []).1

theorem Valid.backspace (h : state.Valid) : Keeps state.backspace := by
  unfold TextInputState.backspace
  split
  · exact h.deleteSelection
  · next hnone =>
    have hanchor : state.selectionAnchor = none := by simpa [TextInputState.selectionRange] using hnone
    split
    · exact h.keeps _
    · obtain ⟨value,hvalue,hstart,-⟩ := (prevCharBoundary_boundary state.lastValue state.cursor).replaceRange h.boundary
        (prevCharBoundary_le _ _) []
      simp only [hvalue]
      refine ⟨_,_,rfl,h.pushUndo.shows hstart (fun anchor hmem => ?_) rfl rfl⟩
      change anchor ∈ state.selectionAnchor at hmem
      rw [hanchor] at hmem
      cases hmem

theorem Valid.deleteForward (h : state.Valid) : Keeps state.deleteForward := by
  unfold TextInputState.deleteForward
  split
  · exact h.deleteSelection
  · next hnone =>
    have hanchor : state.selectionAnchor = none := by simpa [TextInputState.selectionRange] using hnone
    split
    · exact h.keeps _
    · obtain ⟨value,hvalue,hstart,-⟩ := h.boundary.replaceRange (nextCharBoundary_boundary state.lastValue state.cursor)
        (le_nextCharBoundary h.boundary.le) []
      simp only [hvalue]
      refine ⟨_,_,rfl,h.pushUndo.shows hstart (fun anchor hmem => ?_) rfl rfl⟩
      change anchor ∈ state.selectionAnchor at hmem
      rw [hanchor] at hmem
      cases hmem

theorem Valid.deleteBack (h : state.Valid) {target : Nat} (htarget : Boundary state.lastValue target) (hle : target ≤ state.cursor) :
    Keeps (state.deleteBack target) := by
  unfold TextInputState.deleteBack
  split
  · exact h.keeps _
  · exact (h.pushUndo.splice htarget h.boundary hle []).1

theorem Valid.deleteAhead (h : state.Valid) {target : Nat} (htarget : Boundary state.lastValue target) (hle : state.cursor ≤ target) :
    Keeps (state.deleteAhead target) := by
  unfold TextInputState.deleteAhead
  split
  · exact h.keeps _
  · exact (h.pushUndo.splice h.boundary htarget hle []).1

theorem rows_spec (state : TextInputState) (glyphs : Glyphs) (hwidth : 0 < state.viewportWidth) :
    ∃ rows, wrapValue glyphs state.lastValue state.viewportWidth = some rows ∧
      ∀ row ∈ rows, Boundary state.lastValue row.startByte ∧ Boundary state.lastValue row.endByte ∧
        row.startByte ≤ row.endByte := by
  obtain ⟨hrows,hcontent⟩ := @wrapValue_eq glyphs state.viewportWidth state.lastValue (by omega)
  refine ⟨_,hrows,fun row hrow => ?_⟩
  have hboundary := boundary_of_mem_place hrow
  rwa [hcontent] at hboundary

theorem Valid.moveUp (h : state.Valid) (glyphs : Glyphs) (extend : Bool) : Keeps (state.moveUp glyphs extend) := by
  have hupdated := h.updateSelectionAnchor extend
  unfold TextInputState.moveUp
  dsimp only
  generalize state.updateSelectionAnchor extend = state at hupdated ⊢
  split
  · next hwidth =>
    obtain ⟨rows,hrows,hboundary⟩ := rows_spec state glyphs hwidth
    obtain ⟨hcursor,hoffset⟩ := @visual_spec glyphs _ _ hboundary
    obtain ⟨⟨visualRow,col⟩,hposition⟩ := hcursor state.cursor hupdated.boundary
    obtain ⟨offset,heq,hboundary⟩ := hoffset (visualRow - 1) col
    simp only [hrows,hposition,Option.bind_eq_bind,Option.bind_some,heq]
    split
    · exact hupdated.keeps _
    · exact hupdated.moveTo hboundary extend
  · split
    · exact hupdated.keeps _
    · have hline := lineStart_le state.lastValue state.cursor
      have hprev := lineStart_le state.lastValue (lineStart state.lastValue state.cursor - 1)
      simp only [usizeSub,hline,hprev,if_true,Option.bind_eq_bind,Option.bind_some]
      exact hupdated.moveTo (floorCharBoundary_boundary _ _) extend

theorem Valid.moveDown (h : state.Valid) (glyphs : Glyphs) (extend : Bool) : Keeps (state.moveDown glyphs extend) := by
  have hupdated := h.updateSelectionAnchor extend
  unfold TextInputState.moveDown
  dsimp only
  generalize state.updateSelectionAnchor extend = state at hupdated ⊢
  split
  · next hwidth =>
    obtain ⟨rows,hrows,hboundary⟩ := rows_spec state glyphs hwidth
    obtain ⟨hcursor,hoffset⟩ := @visual_spec glyphs _ _ hboundary
    obtain ⟨⟨visualRow,col⟩,hposition⟩ := hcursor state.cursor hupdated.boundary
    obtain ⟨offset,heq,hboundary⟩ := hoffset (visualRow + 1) col
    simp only [hrows,hposition,Option.bind_eq_bind,Option.bind_some,heq]
    split
    · exact hupdated.keeps _
    · exact hupdated.moveTo hboundary extend
  · split
    · exact hupdated.keeps _
    · next hnotlast =>
      have hline := lineStart_le state.lastValue state.cursor
      obtain ⟨-,hle,hnext⟩ := lineEnd_spec hupdated.boundary
      obtain ⟨-,hnextLe,-⟩ := lineEnd_spec (hnext hnotlast)
      simp only [usizeSub,hline,hnextLe,if_true,Option.bind_eq_bind,Option.bind_some]
      exact hupdated.moveTo (floorCharBoundary_boundary _ _) extend

theorem Valid.selectAll (h : state.Valid) : Keeps state.selectAll := by
  unfold TextInputState.selectAll
  split
  · exact h.keeps _
  · refine ⟨_,_,rfl,h.shows (boundary_byteLen _) (fun anchor hanchor => ?_) rfl rfl⟩
    cases hanchor
    exact boundary_zero _

theorem Valid.deleteWordBackward (h : state.Valid) (glyphs : Glyphs) : Keeps (state.deleteWordBackward glyphs) := by
  obtain ⟨target,htarget,hboundary,hle⟩ := wordBoundaryLeft_spec glyphs h.boundary
  unfold TextInputState.deleteWordBackward
  rw [htarget]
  exact h.deleteBack hboundary hle

theorem Valid.deleteWordForward (h : state.Valid) (glyphs : Glyphs) : Keeps (state.deleteWordForward glyphs) := by
  obtain ⟨target,htarget,hboundary,hle⟩ := wordBoundaryRight_spec glyphs h.boundary
  unfold TextInputState.deleteWordForward
  rw [htarget]
  exact h.deleteAhead hboundary hle

theorem Valid.moveWordLeft (h : state.Valid) (glyphs : Glyphs) (extend : Bool) : Keeps (state.moveWordLeft glyphs extend) := by
  have hupdated := h.updateSelectionAnchor extend
  obtain ⟨target,htarget,hboundary,-⟩ := wordBoundaryLeft_spec glyphs hupdated.boundary
  unfold TextInputState.moveWordLeft
  dsimp only
  rw [htarget]
  exact hupdated.moveTo hboundary extend

theorem Valid.moveWordRight (h : state.Valid) (glyphs : Glyphs) (extend : Bool) : Keeps (state.moveWordRight glyphs extend) := by
  have hupdated := h.updateSelectionAnchor extend
  obtain ⟨target,htarget,hboundary,-⟩ := wordBoundaryRight_spec glyphs hupdated.boundary
  unfold TextInputState.moveWordRight
  dsimp only
  rw [htarget]
  exact hupdated.moveTo hboundary extend

theorem restore_valid {snap : Snapshot} {undo redo : List Snapshot} (hsnap : snap.Valid)
    (hundo : (∀ snap ∈ undo, snap.Valid) ∧ undo.length ≤ historyCap)
    (hredo : (∀ snap ∈ redo, snap.Valid) ∧ redo.length ≤ historyCap) :
    ({ state with undo := undo, redo := redo }.restore snap).Valid :=
  ⟨hsnap,hundo.1,hredo.1,hundo.2,hredo.2⟩

theorem dropLast_valid {deque : List Snapshot} (hdeque : ∀ snap ∈ deque, snap.Valid) (hcap : deque.length ≤ historyCap) :
    (∀ snap ∈ deque.dropLast, snap.Valid) ∧ deque.dropLast.length ≤ historyCap :=
  ⟨fun snap hsnap => hdeque snap (List.mem_of_mem_dropLast hsnap),by rw [List.length_dropLast]; omega⟩

theorem Valid.undoEdit (h : state.Valid) : Keeps state.undoEdit := by
  unfold TextInputState.undoEdit
  split
  · exact h.keeps _
  · next snap hsnap =>
    exact ⟨_,_,rfl,restore_valid (h.undo snap (List.mem_of_getLast? hsnap)) (dropLast_valid h.undo h.undoCap)
      (pushCapped_valid h.redo h.redoCap h.now)⟩

theorem Valid.redoEdit (h : state.Valid) : Keeps state.redoEdit := by
  unfold TextInputState.redoEdit
  split
  · exact h.keeps _
  · next snap hsnap =>
    exact ⟨_,_,rfl,restore_valid (h.redo snap (List.mem_of_getLast? hsnap)) (pushCapped_valid h.undo h.undoCap h.now)
      (dropLast_valid h.redo h.redoCap)⟩

theorem Valid.syncWithDesc (h : state.Valid) (value : List Char) (focused : Bool) : (state.syncWithDesc value focused).Valid := by
  unfold TextInputState.syncWithDesc
  split
  · exact h.shows (boundary_byteLen value) nofun rfl rfl
  · exact h.shows h.boundary h.now.anchor rfl rfl

theorem Valid.updateIme (h : state.Valid) (text : List Char) : (state.updateIme text).Valid := by
  unfold TextInputState.updateIme
  split <;> exact h.shows h.boundary h.now.anchor rfl rfl

/-- Nothing can be put in at a cursor inside a character. -/
theorem insertStr_eq_none {s : List Char} (hs : s ≠ []) (hcursor : ¬ Boundary state.lastValue state.cursor) :
    state.insertStr s = none := by
  unfold TextInputState.insertStr
  rw [if_neg hs]
  have hsplice {lo hi : Nat} (cursor : Nat) (h : lo = state.cursor ∨ hi = state.cursor) :
      state.pushUndo.splice lo hi s cursor = none := by
    unfold TextInputState.splice
    rw [replaceRange_eq_none]
    · rfl
    · obtain rfl | rfl := h
      · exact Or.inl hcursor
      · exact Or.inr hcursor
  cases hanchor : state.selectionAnchor with
  | none =>
    simp only [selectionRange,hanchor,Option.map_none,Option.getD_none]
    exact hsplice _ (Or.inl rfl)
  | some anchor =>
    simp only [selectionRange,hanchor,Option.map_some,Option.getD_some]
    apply hsplice
    obtain hle | hle := Nat.le_total anchor state.cursor
    · exact Or.inr (max_eq_right hle)
    · exact Or.inl (min_eq_right hle)

/-- The anchor of a composition that is committed lies on a boundary of what is then the last value. -/
def Anchored (state : TextInputState) : Edit → Prop
  | .commitIme => ∀ composition ∈ state.composing, composition.text ≠ [] →
      isCharBoundary state.lastValue (min composition.anchor (byteLen state.lastValue)) = true
  | _ => True

theorem Valid.commitIme (h : state.Valid) (hanchored : state.Anchored .commitIme) : Keeps state.commitIme := by
  unfold TextInputState.commitIme
  split
  · exact h.keeps _
  · next composition hcomposing =>
    split
    · exact ⟨_,_,rfl,h.shows h.boundary h.now.anchor rfl rfl⟩
    · next htext =>
      apply Valid.insertStr
      exact h.shows (isCharBoundary_iff.mp (hanchored composition hcomposing htext)) h.now.anchor rfl rfl

theorem anchored_of_commitIme (h : state.commitIme ≠ none) : state.Anchored .commitIme := by
  intro composition hcomposing htext
  by_contra hnot
  apply h
  unfold TextInputState.commitIme
  rw [Option.mem_def.mp hcomposing]
  simp only [if_neg htext]
  exact insertStr_eq_none htext fun hboundary => hnot (isCharBoundary_iff.mpr hboundary)

/-- One edit. -/
theorem Valid.apply (h : state.Valid) (edit : Edit) (hanchored : state.Anchored edit) : Keeps (edit.apply glyphs state) := by
  have hupdated := h.updateSelectionAnchor
  cases edit with
  | syncWithDesc value focused => exact (h.syncWithDesc value focused).keeps _
  | viewport width => exact ⟨_,_,rfl,h.shows h.boundary h.now.anchor rfl rfl⟩
  | pushUndo => exact h.pushUndo.keeps _
  | clearSelection => exact ⟨_,_,rfl,h.shows h.boundary nofun rfl rfl⟩
  | insertChar ch => exact h.insertStr [ch]
  | insertStr s => exact h.insertStr s
  | backspace => exact h.backspace
  | deleteForward => exact h.deleteForward
  | deleteSelection => exact h.deleteSelection
  | moveLeft extend => exact (hupdated extend).moveTo (prevCharBoundary_boundary _ _) extend
  | moveRight extend => exact (hupdated extend).moveTo (nextCharBoundary_boundary _ _) extend
  | moveToLineStart extend => exact (hupdated extend).moveTo (lineStart_boundary _ _) extend
  | moveToLineEnd extend => exact (hupdated extend).moveTo (lineEnd_spec (hupdated extend).boundary).1 extend
  | moveUp extend => exact h.moveUp glyphs extend
  | moveDown extend => exact h.moveDown glyphs extend
  | selectAll => exact h.selectAll
  | deleteToLineStart => exact h.deleteBack (lineStart_boundary _ _) (lineStart_le _ _)
  | deleteToLineEnd =>
    obtain ⟨hboundary,hle,-⟩ := lineEnd_spec h.boundary
    exact h.deleteAhead hboundary hle
  | deleteWordBackward => exact h.deleteWordBackward glyphs
  | deleteWordForward => exact h.deleteWordForward glyphs
  | moveWordLeft extend => exact h.moveWordLeft glyphs extend
  | moveWordRight extend => exact h.moveWordRight glyphs extend
  | undo => exact h.undoEdit
  | redo => exact h.redoEdit
  | beginIme text => exact ⟨_,_,rfl,h.shows h.boundary h.now.anchor rfl rfl⟩
  | updateIme text => exact (h.updateIme text).keeps _
  | commitIme => exact h.commitIme hanchored
  | cancelIme => exact ⟨_,_,rfl,h.shows h.boundary h.now.anchor rfl rfl⟩

end TextInputState

theorem run_append (state : TextInputState) (before after : List Edit) :
    Edit.run glyphs state (before ++ after) = (Edit.run glyphs state before).bind fun reached => Edit.run glyphs reached after := by
  induction before generalizing state with
  | nil => rfl
  | cons edit before ih =>
    rw [List.cons_append,Edit.run,Edit.run]
    cases edit.apply glyphs state with
    | none => rfl
    | some applied => exact ih applied.1

theorem run_singleton (state : TextInputState) (edit : Edit) :
    Edit.run glyphs state [edit] = (edit.apply glyphs state).map Prod.fst := by
  rw [Edit.run]
  cases edit.apply glyphs state <;> rfl

/-- A run of edits goes through and keeps every state valid, if and only if each composition that it commits has
its anchor on a boundary. -/
theorem editing_keeps (glyphs : Glyphs) (edits : List Edit) :
    (∀ before, before <+: edits → ∃ state, Edit.run glyphs .default before = some state ∧ state.Valid) ↔
    ∀ before edit after state, edits = before ++ edit :: after → Edit.run glyphs .default before = some state →
      state.Anchored edit := by
  constructor
  · intro hkeeps before edit after state heq hstate
    obtain ⟨reached,hreached,-⟩ := hkeeps (before ++ [edit]) ⟨after,by simp [heq]⟩
    rw [run_append,hstate,Option.bind_some,run_singleton] at hreached
    cases edit with
    | commitIme =>
      apply TextInputState.anchored_of_commitIme
      intro hnone
      rw [Edit.apply,hnone] at hreached
      cases hreached
    | _ => trivial
  · intro hanchored before hbefore
    induction before using List.reverseRecOn with
    | nil => exact ⟨_,rfl,TextInputState.default_valid⟩
    | append_singleton before edit ih =>
      obtain ⟨after,rfl⟩ := hbefore
      obtain ⟨state,hstate,hvalid⟩ := ih ⟨edit :: after,by simp⟩
      obtain ⟨reached,outcome,happly,hreached⟩ :=
        @TextInputState.Valid.apply glyphs _ hvalid edit (hanchored before edit after state (by simp) hstate)
      refine ⟨reached,?_,hreached⟩
      rw [run_append,hstate,Option.bind_some,run_singleton,happly]
      rfl

/-- A composition that begins inside "ab" and is committed once the value is "é". -/
theorem editing_keeps_fails : ¬ ∀ glyphs edits, ∀ before, before <+: edits →
    ∃ state, Edit.run glyphs .default before = some state ∧ state.Valid := by
  intro h
  obtain ⟨state,hstate,-⟩ := h ⟨fun _ => 1,fun _ => false⟩
    [.syncWithDesc ['a','b'] true,.moveLeft false,.beginIme ['x'],.syncWithDesc ['é'] true,.commitIme] _ (List.prefix_refl _)
  have hnone : Edit.run ⟨fun _ => 1,fun _ => false⟩ .default
      [.syncWithDesc ['a','b'] true,.moveLeft false,.beginIme ['x'],.syncWithDesc ['é'] true,.commitIme] = none := by
    decide
  rw [hnone] at hstate
  cases hstate

end Nefor.Tui
