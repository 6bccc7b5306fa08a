import Nefor.Tui.WrapText

/-! The rows of styled text, without their styles, are the rows of its characters. -/
namespace Nefor.Tui.Layout
open ToolGate (isWhitespace)

/-- The characters of some styled ones. -/
def unstyled (line : List StyledChar) : List Char := line.map StyledChar.ch

def unstyledRows (rows : List (List StyledChar)) : List (List Char) := rows.map unstyled

@[simp] theorem unstyled_nil : unstyled [] = [] := rfl
@[simp] theorem unstyled_cons (c : StyledChar) (line : List StyledChar) : unstyled (c :: line) = c.ch :: unstyled line := rfl
@[simp] theorem unstyled_append (a b : List StyledChar) : unstyled (a ++ b) = unstyled a ++ unstyled b := List.map_append
@[simp] theorem unstyled_eq_nil {line : List StyledChar} : unstyled line = [] ↔ line = [] := List.map_eq_nil_iff
@[simp] theorem unstyledRows_nil : unstyledRows [] = [] := rfl
@[simp] theorem unstyledRows_cons (row : List StyledChar) (rows : List (List StyledChar)) :
    unstyledRows (row :: rows) = unstyled row :: unstyledRows rows := rfl
@[simp] theorem unstyledRows_append (a b : List (List StyledChar)) :
    unstyledRows (a ++ b) = unstyledRows a ++ unstyledRows b := List.map_append

theorem unstyled_styledCharsFromStr (s : List Char) (style : Style) : unstyled (styledCharsFromStr s style) = s := by
  rw [unstyled,styledCharsFromStr,List.map_map]
  exact List.map_id' s

variable (charWidth : CharWidth)

@[simp] theorem styledWidth_eq (line : List StyledChar) : styledWidth charWidth line = stringWidth charWidth (unstyled line) := by
  rw [styledWidth,stringWidth,unstyled,List.map_map]
  rfl

/-! Truncation. -/

theorem takeStyledColumnsLoop_unstyled (limit : Nat) (line : List StyledChar) (taken : Nat) :
    unstyled (takeStyledColumnsLoop charWidth limit line taken) = takeColumnsLoop charWidth limit (unstyled line) taken := by
  induction line generalizing taken with
  | nil => rfl
  | cons c rest ih =>
    rw [takeStyledColumnsLoop,unstyled_cons,takeColumnsLoop]
    split
    · rfl
    · rw [unstyled_cons,ih]

/-- What is left of a limit is a width again. -/
theorem toNat_ofNat_sub (width : UInt16) (n : Nat) : (UInt16.ofNat (width.toNat - n)).toNat = width.toNat - n := by
  apply UInt16.toNat_ofNat_of_lt'
  exact (Nat.sub_le width.toNat n).trans_lt width.toNat_lt

theorem takeStyledColumns_unstyled (line : List StyledChar) (width : UInt16) :
    unstyled (takeStyledColumns charWidth line width.toNat) = takeColumns charWidth (unstyled line) width :=
  takeStyledColumnsLoop_unstyled charWidth width.toNat line 0

theorem takeStyledColumnsWithEllipsis_unstyled (line : List StyledChar) (width : UInt16) :
    unstyled (takeStyledColumnsWithEllipsis charWidth line width.toNat) =
      takeColumnsWithEllipsis charWidth (unstyled line) width := by
  rw [takeStyledColumnsWithEllipsis,takeColumnsWithEllipsis,styledWidth_eq]
  dsimp only
  split
  · rfl
  · split
    · rfl
    · have htaken := takeStyledColumns_unstyled charWidth line (.ofNat (width.toNat - charWidth '…'))
      rw [toNat_ofNat_sub] at htaken
      rw [unstyled_append,htaken]
      rfl

/-- The slice of a line that the loop over the elements before `kept` leaves. -/
theorem drop_styledTailStart (limit : Nat) (back kept : List StyledChar) (taken : Nat) :
    unstyled ((back.reverse ++ kept).drop (styledTailStart charWidth limit back taken back.length)) =
      takeTailColumnsLoop charWidth limit (unstyled back) taken (unstyled kept) := by
  induction back generalizing kept taken with
  | nil => rfl
  | cons c rest ih =>
    rw [styledTailStart,unstyled_cons,takeTailColumnsLoop]
    split
    · rw [← List.length_reverse,List.drop_left]
    · have hnext := ih (c :: kept) (taken + charWidth c.ch)
      rwa [unstyled_cons,List.append_cons,← List.reverse_cons] at hnext

theorem takeStyledTailColumns_unstyled (line : List StyledChar) (width : UInt16) :
    unstyled (takeStyledTailColumns charWidth line width.toNat) = takeTailColumns charWidth (unstyled line) width := by
  have hdrop := drop_styledTailStart charWidth width.toNat line.reverse [] 0
  rw [List.reverse_reverse,List.append_nil,List.length_reverse] at hdrop
  rw [takeStyledTailColumns,hdrop,takeTailColumns,unstyled,List.map_reverse]
  rfl

theorem takeStyledTailColumnsWithEllipsis_unstyled (line : List StyledChar) (width : UInt16) :
    unstyled (takeStyledTailColumnsWithEllipsis charWidth line width.toNat) =
      takeTailColumnsWithEllipsis charWidth (unstyled line) width := by
  rw [takeStyledTailColumnsWithEllipsis,takeTailColumnsWithEllipsis,styledWidth_eq]
  dsimp only
  split
  · rfl
  · split
    · rfl
    · have htaken := takeStyledTailColumns_unstyled charWidth line (.ofNat (width.toNat - charWidth '…'))
      rw [toNat_ofNat_sub] at htaken
      rw [unstyled_cons,htaken]

/-! Wrapping. -/

namespace Filling

def unstyled (f : Filling StyledChar) : Filling Char :=
  ⟨unstyledRows f.out,Layout.unstyled f.current,f.col⟩

@[simp] theorem unstyled_col (f : Filling StyledChar) : f.unstyled.col = f.col := rfl

@[simp] theorem unstyled_current (f : Filling StyledChar) : f.unstyled.current = Layout.unstyled f.current := rfl

theorem unstyled_flush (f : Filling StyledChar) : f.flush.unstyled = f.unstyled.flush := by
  simp [Filling.unstyled,flush]

theorem finish_unstyled (f : Filling StyledChar) : unstyledRows f.finish = f.unstyled.finish := by
  by_cases hcurrent : f.current = [] <;> simp [finish,Filling.unstyled,hcurrent]

/-- A flush under a condition. -/
theorem unstyled_ite_flush (f : Filling StyledChar) (p : Prop) [Decidable p] :
    (if p then f.flush else f).unstyled = if p then f.unstyled.flush else f.unstyled := by
  split
  · exact unstyled_flush f
  · rfl

end Filling

/-- A loop over styled elements, each step of which is the step over the elements without style. -/
theorem foldl_unstyled {α β : Type} {g : α → β} {styled : Filling StyledChar → α → Filling StyledChar}
    {plain : Filling Char → β → Filling Char} (h : ∀ f a, (styled f a).unstyled = plain f.unstyled (g a)) (line : List α)
    (f : Filling StyledChar) : (line.foldl styled f).unstyled = (line.map g).foldl plain f.unstyled := by
  induction line generalizing f with
  | nil => rfl
  | cons a rest ih => rw [List.foldl_cons,ih,h,List.map_cons,List.foldl_cons]

theorem wrapStyledCharStep_unstyled (limit : Nat) (f : Filling StyledChar) (c : StyledChar) :
    (wrapStyledCharStep charWidth limit f c).unstyled = wrapCharStep charWidth limit f.unstyled c.ch := by
  rw [wrapStyledCharStep,wrapCharStep]
  dsimp only
  have hflush : (if limit < f.col + charWidth c.ch ∧ f.current ≠ [] then f.flush else f).unstyled =
      if limit < f.unstyled.col + charWidth c.ch ∧ f.unstyled.current ≠ [] then f.unstyled.flush else f.unstyled := by
    rw [Filling.unstyled_ite_flush]
    simp only [Filling.unstyled_col,Filling.unstyled_current,ne_eq,unstyled_eq_nil]
  rw [← hflush]
  generalize (if limit < f.col + charWidth c.ch ∧ f.current ≠ [] then f.flush else f) = g
  split
  · by_cases hcurrent : g.current = []
    · simp [hcurrent,Filling.unstyled]
    · simp [hcurrent,Filling.unstyled,Filling.flush]
  · simp [Filling.unstyled]

theorem wrapStyledChar_unstyled (line : List StyledChar) (width : UInt16) :
    unstyledRows (wrapStyledChar charWidth line width.toNat) = wrapChar charWidth (unstyled line) width := by
  rw [wrapStyledChar,Filling.finish_unstyled,foldl_unstyled (wrapStyledCharStep_unstyled charWidth width.toNat)]
  rfl

theorem splitStyledWordsLoop_unstyled (inSpace : Bool) (word line : List StyledChar) :
    unstyledRows (splitStyledWordsLoop inSpace word line) =
      splitKeepingSpacesLoop inSpace (unstyled word) (unstyled line) := by
  induction line generalizing inSpace word with
  | nil => by_cases hword : word = [] <;> simp [splitStyledWordsLoop,splitKeepingSpacesLoop,hword]
  | cons c rest ih =>
    rw [splitStyledWordsLoop,unstyled_cons,splitKeepingSpacesLoop]
    split
    · rw [unstyledRows_cons,ih]
      rfl
    · rw [ih,unstyled_append]
      rfl

theorem splitStyledWords_unstyled (line : List StyledChar) :
    unstyledRows (splitStyledWords line) = splitKeepingSpaces (unstyled line) := by
  cases line with
  | nil => rfl
  | cons c rest => exact splitStyledWordsLoop_unstyled _ [] (c :: rest)

theorem wrapStyledWordStep_unstyled (width : UInt16) (f : Filling StyledChar) (word : List StyledChar) :
    (wrapStyledWordStep charWidth width.toNat f word).unstyled = wrapWordStep charWidth width f.unstyled (unstyled word) := by
  have hspace : (unstyled word).all isWhitespace = word.all fun c => isWhitespace c.ch := List.all_map
  rw [wrapStyledWordStep,wrapWordStep,styledWidth_eq,hspace]
  dsimp only
  rw [Filling.unstyled_col]
  split
  · exact f.unstyled_flush
  · have hflush := f.unstyled_ite_flush (0 < f.col ∧ width.toNat < f.col + stringWidth charWidth (unstyled word))
    rw [← hflush]
    generalize (if 0 < f.col ∧ width.toNat < f.col + stringWidth charWidth (unstyled word) then f.flush else f) = g
    rw [Filling.unstyled_col]
    split
    · simp [Filling.unstyled,wrapStyledChar_unstyled]
    · simp [Filling.unstyled]

theorem wrapStyledWord_unstyled (line : List StyledChar) (width : UInt16) :
    unstyledRows (wrapStyledWord charWidth line width.toNat) = wrapWord charWidth (unstyled line) width := by
  rw [wrapStyledWord,Filling.finish_unstyled,foldl_unstyled (wrapStyledWordStep_unstyled charWidth width),wrapWord,
    ← splitStyledWords_unstyled]
  rfl

/-! Lines. -/

/-- A line that is not empty wraps alike. -/
theorem wrapStyledLine_unstyled (width : UInt16) (wrap : WrapMode) {raw : List StyledChar} (h : raw ≠ []) :
    unstyledRows (wrapStyledLine charWidth width.toNat wrap raw) = wrapLine charWidth width wrap (unstyled raw) := by
  unfold wrapStyledLine wrapLine
  rw [if_neg h]
  cases wrap with
  | word => exact wrapStyledWord_unstyled charWidth raw width
  | char => exact wrapStyledChar_unstyled charWidth raw width
  | none => exact congrArg (fun row => [row]) (takeStyledColumns_unstyled charWidth raw width)
  | ellipsis => exact congrArg (fun row => [row]) (takeStyledColumnsWithEllipsis_unstyled charWidth raw width)
  | tail => exact congrArg (fun row => [row]) (takeStyledTailColumns_unstyled charWidth raw width)
  | tailEllipsis => exact congrArg (fun row => [row]) (takeStyledTailColumnsWithEllipsis_unstyled charWidth raw width)

theorem foldl_logicalStep (chars : List StyledChar) (logical : List (List StyledChar)) (line : List StyledChar) :
    unstyledRows ((chars.foldl logicalStep (logical,line)).1 ++ [(chars.foldl logicalStep (logical,line)).2]) =
      unstyledRows logical ++ ((unstyled chars).splitOn '\n').modifyHead (unstyled line ++ ·) := by
  induction chars generalizing logical line with
  | nil => simp
  | cons c rest ih =>
    rw [List.foldl_cons,unstyled_cons,List.splitOn_cons_eq_if_modifyHead,logicalStep]
    by_cases hbreak : c.ch = '\n'
    · rw [if_pos hbreak,if_pos (beq_iff_eq.mpr hbreak),ih]
      cases hrest : (unstyled rest).splitOn '\n' with
      | nil => exact absurd hrest (List.splitOn_ne_nil _ _)
      | cons first others => simp
    · rw [if_neg hbreak,if_neg (fun h => hbreak (beq_iff_eq.mp h)),ih]
      cases hrest : (unstyled rest).splitOn '\n' with
      | nil => exact absurd hrest (List.splitOn_ne_nil _ _)
      | cons first others => simp

/-- No characters have no line; any others have the lines of their string. -/
theorem logicalLines_unstyled {chars : List StyledChar} (h : chars ≠ []) :
    unstyledRows (logicalLines chars) = (unstyled chars).splitOn '\n' := by
  rw [logicalLines]
  dsimp only
  rw [if_pos (.inr h),foldl_logicalStep]
  exact congrFun List.modifyHead_id _

end Nefor.Tui.Layout
