import Mathlib.Data.List.SplitBy
import Nefor.Tui.Wrap

/-! The rows of a wrapped value as the texts they show, with what lies between them. -/
namespace Nefor.Tui
open SourceText
open ToolGate (isWhitespace)

/-- A row: what is passed over before it, and what it shows. -/
structure Segment where
  gap : List Char
  text : List Char
  newline : Bool

/-- The text that some segments make up. -/
def content (segments : List Segment) : List Char := segments.flatMap fun segment => segment.gap ++ segment.text

/-- The rows of segments that begin at an offset. -/
def place (glyphs : Glyphs) : Nat → List Segment → List WrappedRow
  | _, [] => []
  | pos, ⟨gap,text,newline⟩ :: rest =>
    ⟨pos + byteLen gap,pos + byteLen gap + byteLen text,glyphs.cells text,newline⟩ ::
      place glyphs (pos + byteLen gap + byteLen text) rest

/-- Something more is passed over before the first segment. -/
def withGap (gap : List Char) : List Segment → List Segment
  | [] => []
  | segment :: rest => { segment with gap := gap ++ segment.gap } :: rest

/-- Segments that follow each other closely. -/
def soft (texts : List (List Char)) : List Segment := texts.map fun text => ⟨[],text,false⟩

variable (glyphs : Glyphs) (limit : Nat)

/-- The texts of the rows that `charWrapRun` makes, where `row` is being filled. -/
def charRows : List Char → List Char → List (List Char)
  | row, [] => if row = [] then [] else [row]
  | row, ch :: rest =>
    if limit < glyphs.charCellWidth ch then (if row = [] then [] else [row]) ++ [ch] :: charRows [] rest
    else if limit < glyphs.cells row + glyphs.charCellWidth ch then row :: charRows [ch] rest
    else charRows (row ++ [ch]) rest

/-- The segments that `wrapRuns` makes of a line, where `row` is being filled. -/
def lineSegments (newline : Bool) : List Char → List (List Char) → List Segment
  | row, [] => [⟨[],row,newline⟩]
  | row, run :: rest =>
    if glyphs.cells row = 0 ∧ limit < glyphs.cells run then
      withGap row (soft (charRows glyphs limit [] run)) ++ lineSegments newline [] rest
    else if limit < glyphs.cells row + glyphs.cells run then
      ⟨[],row,false⟩ ::
        if run.all isWhitespace then withGap run (lineSegments newline [] rest) else lineSegments newline run rest
    else lineSegments newline (row ++ run) rest

/-- The segments of a value, of whose present line `line` has been read. -/
def valueSegments : List Char → List Char → List Segment
  | line, [] => lineSegments glyphs limit false [] (splitKeepingSpaces line)
  | line, ch :: rest =>
    if ch = '\n' then
      lineSegments glyphs limit true [] (splitKeepingSpaces line) ++ withGap ['\n'] (valueSegments [] rest)
    else valueSegments (line ++ [ch]) rest

variable {glyphs limit} {row run line : List Char} {newline : Bool} {pos : Nat} {segments : List Segment}

@[simp] theorem cells_nil : glyphs.cells [] = 0 := rfl

@[simp] theorem cells_append (a b : List Char) : glyphs.cells (a ++ b) = glyphs.cells a + glyphs.cells b := by
  simp [Glyphs.cells]

@[simp] theorem cells_singleton (c : Char) : glyphs.cells [c] = glyphs.charCellWidth c := by
  simp [Glyphs.cells]

@[simp] theorem content_nil : content [] = [] := rfl

@[simp] theorem content_cons (segment : Segment) (rest : List Segment) :
    content (segment :: rest) = segment.gap ++ segment.text ++ content rest := by
  simp [content]

@[simp] theorem content_append (a b : List Segment) : content (a ++ b) = content a ++ content b := by
  simp [content]

@[simp] theorem content_soft (texts : List (List Char)) : content (soft texts) = texts.flatten := by
  induction texts with
  | nil => rfl
  | cons text rest ih =>
    rw [soft,List.map_cons,content_cons,List.flatten_cons,← ih]
    rfl

theorem soft_append (a b : List (List Char)) : soft (a ++ b) = soft a ++ soft b := List.map_append

theorem content_withGap (gap : List Char) (h : segments ≠ []) : content (withGap gap segments) = gap ++ content segments := by
  cases segments with
  | nil => exact absurd rfl h
  | cons segment rest => simp [withGap]

theorem place_append (pos : Nat) (a b : List Segment) :
    place glyphs pos (a ++ b) = place glyphs pos a ++ place glyphs (pos + byteLen (content a)) b := by
  induction a generalizing pos with
  | nil => rfl
  | cons segment a ih =>
    simp only [List.cons_append,place,ih,content_cons,byteLen_append,Nat.add_assoc]

@[simp] theorem length_place (pos : Nat) (segments : List Segment) : (place glyphs pos segments).length = segments.length := by
  induction segments generalizing pos with
  | nil => rfl
  | cons segment rest ih => rw [place,List.length_cons,List.length_cons,ih]

theorem place_withGap (gap : List Char) : place glyphs pos (withGap gap segments) = place glyphs (pos + byteLen gap) segments := by
  cases segments with
  | nil => rfl
  | cons segment rest =>
    simp only [withGap,place,byteLen_append,Nat.add_assoc]

theorem charRows_flatten (row run : List Char) : (charRows glyphs limit row run).flatten = row ++ run := by
  have hrow : (if row = [] then [] else [row]).flatten = row := by
    split
    · next h => exact h.symm
    · simp
  induction run generalizing row with
  | nil => rw [charRows,hrow,List.append_nil]
  | cons ch rest ih =>
    rw [charRows]
    split
    · rw [List.flatten_append,hrow,List.flatten_cons,ih [] rfl]
      rfl
    · split
      · rw [List.flatten_cons,ih [ch] (by simp)]
        rfl
      · rw [ih (row ++ [ch]) (by simp),List.append_assoc]
        rfl

theorem charRows_ne_nil (h : row ≠ [] ∨ run ≠ []) : charRows glyphs limit row run ≠ [] := by
  intro hnil
  have hflat := @charRows_flatten glyphs limit row run
  rw [hnil] at hflat
  obtain ⟨hrow,hrun⟩ := List.append_eq_nil_iff.mp hflat.symm
  cases h with
  | inl h => exact h hrow
  | inr h => exact h hrun

theorem lineSegments_ne_nil (runs : List (List Char)) : lineSegments glyphs limit newline row runs ≠ [] := by
  induction runs generalizing row with
  | nil => simp [lineSegments]
  | cons run rest ih =>
    rw [lineSegments]
    split
    · exact List.append_ne_nil_of_right_ne_nil _ ih
    · split
      · simp
      · exact ih

/-- Nothing of a line is lost between the rows. -/
theorem content_lineSegments {runs : List (List Char)} (hruns : [] ∉ runs) :
    content (lineSegments glyphs limit newline row runs) = row ++ runs.flatten := by
  induction runs generalizing row with
  | nil => simp [lineSegments]
  | cons run rest ih =>
    obtain ⟨hrun,hrest⟩ := not_or.mp (List.mem_cons.not.mp hruns)
    rw [lineSegments,List.flatten_cons]
    split
    · have hne : soft (charRows glyphs limit [] run) ≠ [] := by
        simpa [soft] using charRows_ne_nil (Or.inr (Ne.symm hrun))
      rw [content_append,content_withGap row hne,content_soft,charRows_flatten,ih hrest]
      simp
    · split
      · rw [content_cons]
        split
        · rw [content_withGap run (lineSegments_ne_nil rest),ih hrest]
          simp
        · rw [ih hrest]
          simp
      · rw [ih hrest]
        simp

theorem valueSegments_ne_nil (line rest : List Char) : valueSegments glyphs limit line rest ≠ [] := by
  induction rest generalizing line with
  | nil => exact lineSegments_ne_nil _
  | cons ch rest ih =>
    rw [valueSegments]
    split
    · exact List.append_ne_nil_of_left_ne_nil (lineSegments_ne_nil _) _
    · exact ih _

theorem splitKeepingSpaces_ne (line : List Char) : [] ∉ splitKeepingSpaces line := List.nil_notMem_splitBy _ line

theorem splitKeepingSpaces_flatten (line : List Char) : (splitKeepingSpaces line).flatten = line := List.flatten_splitBy _ line

theorem content_valueSegments (line rest : List Char) : content (valueSegments glyphs limit line rest) = line ++ rest := by
  induction rest generalizing line with
  | nil =>
    rw [valueSegments,content_lineSegments (splitKeepingSpaces_ne line),splitKeepingSpaces_flatten]
    simp
  | cons ch rest ih =>
    rw [valueSegments]
    split
    · next hch =>
      rw [content_append,content_lineSegments (splitKeepingSpaces_ne line),splitKeepingSpaces_flatten,
        content_withGap _ (valueSegments_ne_nil [] rest),ih,hch]
      simp
    · rw [ih]
      simp

/-! The rows of the program are those of the segments. -/

theorem charWrapRun_eq (sliceOrigin start : Nat) (row run : List Char) :
    charWrapRun glyphs sliceOrigin limit run start (start + byteLen row) (glyphs.cells row) =
      place glyphs (sliceOrigin + start) (soft (charRows glyphs limit row run)) := by
  have hpending (row : List Char) (start : Nat) :
      (if start < start + byteLen row then
        [(⟨sliceOrigin + start,sliceOrigin + (start + byteLen row),glyphs.cells row,false⟩ : WrappedRow)] else []) =
      place glyphs (sliceOrigin + start) (soft (if row = [] then [] else [row])) := by
    by_cases hrow : row = []
    · simp [hrow,soft,place]
    · have hpos := byteLen_pos hrow
      rw [if_pos (by omega),if_neg hrow]
      simp [soft,place,Nat.add_assoc]
  induction run generalizing start row with
  | nil => exact hpending row start
  | cons ch rest ih =>
    have hone (start : Nat) : start + ch.utf8Size = start + byteLen [ch] := by simp
    rw [charWrapRun,charRows]
    split
    · have hcontent : byteLen (content (soft (if row = [] then [] else [row]))) = byteLen row := by
        rw [content_soft]
        by_cases hrow : row = [] <;> simp [hrow]
      have hrest := ih (start + byteLen row + ch.utf8Size) []
      rw [byteLen_nil,Nat.add_zero,cells_nil] at hrest
      rw [soft_append,place_append,hpending,hcontent,hrest]
      simp [soft,place,Nat.add_assoc]
    · split
      · have hrest := ih (start + byteLen row) [ch]
        rw [cells_singleton,← hone] at hrest
        rw [hrest]
        simp [soft,place,Nat.add_assoc]
      · have hrest := ih start (row ++ [ch])
        rw [cells_append,cells_singleton,byteLen_append,← Nat.add_assoc,← hone] at hrest
        rw [hrest]

theorem wrapRuns_eq (sliceOrigin rowStart : Nat) (row : List Char) {runs : List (List Char)} (hruns : [] ∉ runs) :
    wrapRuns glyphs sliceOrigin limit newline runs rowStart (rowStart + byteLen row) (glyphs.cells row) =
      place glyphs (sliceOrigin + rowStart) (lineSegments glyphs limit newline row runs) := by
  induction runs generalizing rowStart row with
  | nil => simp [wrapRuns,lineSegments,place,Nat.add_assoc]
  | cons run rest ih =>
    obtain ⟨hrun,hrest⟩ := not_or.mp (List.mem_cons.not.mp hruns)
    have hempty (start : Nat) := ih start [] hrest
    simp only [byteLen_nil,Nat.add_zero,cells_nil] at hempty
    rw [wrapRuns,lineSegments]
    split
    · have hne : soft (charRows glyphs limit [] run) ≠ [] := by
        simpa [soft] using charRows_ne_nil (Or.inr (Ne.symm hrun))
      have hchars := @charWrapRun_eq glyphs limit (sliceOrigin + (rowStart + byteLen row)) 0 [] run
      simp only [byteLen_nil,Nat.add_zero,cells_nil] at hchars
      rw [hempty,hchars,place_append,place_withGap,content_withGap row hne,content_soft,charRows_flatten]
      simp [Nat.add_assoc]
    · split
      · rw [place]
        congr 1
        · simp [Nat.add_assoc]
        · split
          · rw [hempty,place_withGap]
            simp [Nat.add_assoc]
          · rw [ih (rowStart + byteLen row) run hrest]
            simp [Nat.add_assoc]
      · have hmore := ih rowStart (row ++ run) hrest
        rw [cells_append,byteLen_append,← Nat.add_assoc] at hmore
        exact hmore

theorem wrapLogicalLine_eq (line : List Char) (sliceOrigin : Nat) :
    wrapLogicalLine glyphs line sliceOrigin limit newline =
      place glyphs sliceOrigin (lineSegments glyphs limit newline [] (splitKeepingSpaces line)) := by
  rw [wrapLogicalLine]
  split
  · next h => simp [h,splitKeepingSpaces,lineSegments,place]
  · exact @wrapRuns_eq glyphs limit _ sliceOrigin 0 [] _ (splitKeepingSpaces_ne line)

theorem wrapLines_eq (before line rest : List Char) :
    wrapLines glyphs (before ++ line ++ rest) limit rest (byteLen before + byteLen line) (byteLen before) =
      some (place glyphs (byteLen before) (valueSegments glyphs limit line rest)) := by
  induction rest generalizing before line with
  | nil =>
    rw [wrapLines,range_append,valueSegments,← wrapLogicalLine_eq]
    rfl
  | cons ch rest ih =>
    rw [wrapLines,valueSegments]
    split
    · next hch =>
      subst hch
      have hsize : byteLen ['\n'] = 1 := rfl
      have hnext := ih (before ++ line ++ ['\n']) []
      rw [byteLen_nil,Nat.add_zero,List.append_nil,byteLen_append,byteLen_append,hsize,List.append_assoc _ ['\n']] at hnext
      rw [range_append]
      simp only [Option.bind_eq_bind,Option.bind_some]
      rw [place_append,place_withGap,hsize,← wrapLogicalLine_eq,content_lineSegments (splitKeepingSpaces_ne line),
        splitKeepingSpaces_flatten,List.nil_append]
      split
      · next hend =>
        have hrest : rest = [] := by
          by_contra hne
          have hpos := byteLen_pos hne
          have hn : ('\n' : Char).utf8Size = 1 := rfl
          rw [byteLen_append,byteLen_append,byteLen_cons,hn] at hend
          omega
        subst hrest
        rw [← hend]
        simp [valueSegments,splitKeepingSpaces,lineSegments,place]
      · change (wrapLines glyphs (before ++ line ++ '\n' :: rest) limit rest _ _).bind _ = _
        rw [show before ++ line ++ '\n' :: rest = before ++ line ++ (['\n'] ++ rest) from rfl,hnext]
        rfl
    · have hnext := ih before (line ++ [ch])
      rw [byteLen_append,byteLen_cons,byteLen_nil,Nat.add_zero,← Nat.add_assoc] at hnext
      rw [← hnext]
      congr 1
      simp

/-- The rows of a value show all of it but what is passed over between them. -/
theorem wrapValue_eq (value : List Char) (hlimit : limit ≠ 0) :
    wrapValue glyphs value limit = some (place glyphs 0 (valueSegments glyphs limit [] value)) ∧
      content (valueSegments glyphs limit [] value) = value := by
  refine ⟨?_,content_valueSegments [] value⟩
  have hlines := @wrapLines_eq glyphs limit [] [] value
  simp only [byteLen_nil,Nat.add_zero,List.nil_append] at hlines
  have hne : (place glyphs 0 (valueSegments glyphs limit [] value)).isEmpty = false := by
    have hsegments := @valueSegments_ne_nil glyphs limit [] value
    cases hvalue : valueSegments glyphs limit [] value with
    | nil => exact absurd hvalue hsegments
    | cons segment rest => rfl
  rw [wrapValue,if_neg hlimit,hlines,Option.map_some,hne]
  rfl

/-- A row shows the text of its segment. -/
theorem mem_place {row : WrappedRow} (h : row ∈ place glyphs pos segments) : ∃ before segment after,
    segments = before ++ segment :: after ∧ row.startByte = pos + byteLen (content before) + byteLen segment.gap ∧
      row.endByte = row.startByte + byteLen segment.text ∧ row.width = glyphs.cells segment.text ∧
      row.terminatedByNewline = segment.newline := by
  induction segments generalizing pos with
  | nil => cases h
  | cons first rest ih =>
    rw [place,List.mem_cons] at h
    obtain rfl | h := h
    · exact ⟨[],first,rest,rfl,by simp,rfl,rfl,rfl⟩
    · obtain ⟨before,segment,after,rfl,hstart,hrest⟩ := ih h
      refine ⟨first :: before,segment,after,rfl,?_,hrest⟩
      rw [hstart,content_cons,byteLen_append,byteLen_append]
      omega

theorem boundary_of_mem_place {row : WrappedRow} (h : row ∈ place glyphs 0 segments) :
    Boundary (content segments) row.startByte ∧ Boundary (content segments) row.endByte ∧ row.startByte ≤ row.endByte := by
  obtain ⟨before,segment,after,rfl,hstart,hend,-⟩ := mem_place h
  refine ⟨?_,?_,by omega⟩
  · refine ⟨segment.text ++ content after,content before ++ segment.gap,by simp,?_⟩
    rw [hstart,byteLen_append,Nat.zero_add]
  · refine ⟨content after,content before ++ segment.gap ++ segment.text,by simp,?_⟩
    rw [hend,hstart,byteLen_append,byteLen_append,Nat.zero_add]

end Nefor.Tui
