import Mathlib.Data.List.Flatten
import Mathlib.Data.List.Induction
import Nefor.Throughout
import Nefor.Tui.WrapStyled

/-! What the rows of a text keep of it, and when its plain rows are its styled ones. -/
namespace Nefor.Tui.Layout
open ToolGate (isWhitespace)

/-- The characters that are not white. -/
def ink (s : List Char) : List Char := s.filter fun c => !isWhitespace c

@[simp] theorem ink_nil : ink [] = [] := rfl

@[simp] theorem ink_append (a b : List Char) : ink (a ++ b) = ink a ++ ink b := List.filter_append a b

theorem ink_eq_nil {s : List Char} : ink s = [] ↔ s.all isWhitespace := by
  rw [ink,List.filter_eq_nil_iff,List.all_eq_true]
  simp

theorem ink_sublist {a b : List Char} (h : a.Sublist b) : (ink a).Sublist (ink b) := h.filter _

variable (charWidth : CharWidth)

@[simp] theorem stringWidth_nil : stringWidth charWidth [] = 0 := rfl

@[simp] theorem stringWidth_append (a b : List Char) :
    stringWidth charWidth (a ++ b) = stringWidth charWidth a + stringWidth charWidth b := by
  rw [stringWidth,List.map_append,List.sum_append]
  rfl

@[simp] theorem stringWidth_singleton (c : Char) : stringWidth charWidth [c] = charWidth c := by
  rw [stringWidth,List.map_singleton,List.sum_singleton]

/-- A row fits, or it is one character that is wider than all the columns. -/
def Fits (limit : Nat) (row : List Char) : Prop :=
  stringWidth charWidth row ≤ limit ∨ ∃ c, row = [c] ∧ limit < charWidth c

/-- What wrapping keeps of a text. -/
structure Wraps (s : List Char) (width : UInt16) (wrap : WrapMode) (rows : List (List Char)) : Prop where
  fits : ∀ row ∈ rows, Fits charWidth width.toNat row
  order : rows.flatten.Sublist s
  kept : ink rows.flatten = ink s
  exact : wrap = .char → rows.flatten = s.filter (· ≠ '\n')

/-- Plain and styled rows agree, and where lines are wrapped nothing is lost. -/
structure WrapsAlike (s : List Char) (style : Style) (width : UInt16) (wrap : WrapMode) : Prop where
  same : wrapText charWidth s width wrap = unstyledRows (wrapStyled charWidth (styledCharsFromStr s style) width wrap)
  wraps : wrap = .word ∨ wrap = .char → Wraps charWidth s width wrap (wrapText charWidth s width wrap)

/-! The column at which a word comes. -/

def nextColumn (limit col : Nat) (word : List Char) : Nat :=
  let ww := stringWidth charWidth word
  if 0 < col ∧ limit < col + ww then
    if word.all isWhitespace ∨ limit < ww then 0 else ww
  else if col = 0 ∧ limit < ww then 0
  else col + ww

def columnAfter (limit : Nat) (words : List (List Char)) : Nat := words.foldl (nextColumn charWidth limit) 0

/-- The last words, as far as they have no width. -/
def widthlessTail (words : List (List Char)) : List (List Char) :=
  words.reverse.takeWhile fun word => stringWidth charWidth word = 0

/-- A word that is wider than a row and comes at its beginning has nothing but white before it there. -/
def Undropped (limit : Nat) (before : List (List Char)) (word : List Char) : Prop :=
  limit < stringWidth charWidth word → columnAfter charWidth limit before = 0 →
    ∀ other ∈ widthlessTail charWidth before, other.all isWhitespace

/-- No word of a line takes characters away. -/
def KeepsInk (limit : Nat) (line : List Char) : Prop :=
  Throughout (Undropped charWidth limit) (splitKeepingSpaces line)

instance (limit : Nat) (before : List (List Char)) (word : List Char) : Decidable (Undropped charWidth limit before word) :=
  inferInstanceAs (Decidable (_ → _ → _))

instance (limit : Nat) (line : List Char) : Decidable (KeepsInk charWidth limit line) :=
  inferInstanceAs (Decidable (Throughout _ _))

/-- No line is empty where lines are wrapped, and none loses characters to a wide word; where they
are cut the text is not empty. -/
def Agreeable (s : List Char) (width : UInt16) : WrapMode → Prop
  | .word => (s = [] ∨ [] ∉ s.splitOn '\n') ∧ ∀ line ∈ s.splitOn '\n', KeepsInk charWidth width.toNat line
  | .char => s = [] ∨ [] ∉ s.splitOn '\n'
  | _ => s ≠ []

instance (s : List Char) (width : UInt16) (wrap : WrapMode) : Decidable (Agreeable charWidth s width wrap) :=
  match wrap with
  | .word => inferInstanceAs (Decidable ((s = [] ∨ [] ∉ s.splitOn '\n') ∧
      ∀ line ∈ s.splitOn '\n', KeepsInk charWidth width.toNat line))
  | .char => inferInstanceAs (Decidable (s = [] ∨ [] ∉ s.splitOn '\n'))
  | .none => inferInstanceAs (Decidable (s ≠ []))
  | .ellipsis => inferInstanceAs (Decidable (s ≠ []))
  | .tail => inferInstanceAs (Decidable (s ≠ []))
  | .tailEllipsis => inferInstanceAs (Decidable (s ≠ []))

/-! Filling rows. -/

/-- All that the rows so far hold. -/
def Filling.content (f : Filling Char) : List Char := f.out.flatten ++ f.current

/-- The rows fit, and so does the one that is being filled, of which the width is known. -/
structure Filling.Tidy (limit : Nat) (f : Filling Char) : Prop where
  fits : ∀ row ∈ f.out, Fits charWidth limit row
  col : f.col = stringWidth charWidth f.current
  le : f.col ≤ limit

section Filling
variable {charWidth : CharWidth} {limit : Nat} {f : Filling Char}

theorem Filling.content_finish : f.finish.flatten = f.content := by
  rw [finish,content]
  split
  · next h => rw [h,List.append_nil]
  · rw [List.flatten_append,List.flatten_singleton]

theorem Filling.content_flush : f.flush.content = f.content := by
  simp [flush,content]

theorem Filling.Tidy.empty : Filling.empty.Tidy charWidth limit :=
  ⟨fun _ hmem => absurd hmem List.not_mem_nil,rfl,Nat.zero_le limit⟩

theorem Filling.Tidy.flush (h : f.Tidy charWidth limit) : f.flush.Tidy charWidth limit := by
  refine ⟨?_,rfl,Nat.zero_le limit⟩
  intro row hmem
  obtain hmem | hmem := List.mem_append.mp hmem
  · exact h.fits row hmem
  · obtain rfl := List.mem_singleton.mp hmem
    exact .inl (h.col ▸ h.le)

theorem Filling.Tidy.finish (h : f.Tidy charWidth limit) : ∀ row ∈ f.finish, Fits charWidth limit row := by
  rw [Filling.finish]
  split
  · exact h.fits
  · exact h.flush.fits

/-- Rows that fit are pushed, and a new one begins. -/
theorem Filling.Tidy.push (h : f.Tidy charWidth limit) {rows : List (List Char)}
    (hrows : ∀ row ∈ rows, Fits charWidth limit row) : Filling.Tidy charWidth limit ⟨f.out ++ rows,[],0⟩ := by
  refine ⟨?_,rfl,Nat.zero_le limit⟩
  intro row hmem
  obtain hmem | hmem := List.mem_append.mp hmem
  · exact h.fits row hmem
  · exact hrows row hmem

theorem Filling.Tidy.extend (h : f.Tidy charWidth limit) {word : List Char}
    (hle : f.col + stringWidth charWidth word ≤ limit) :
    Filling.Tidy charWidth limit ⟨f.out,f.current ++ word,f.col + stringWidth charWidth word⟩ := by
  refine ⟨h.fits,?_,hle⟩
  rw [stringWidth_append,h.col]

/-! Wrapping at characters. -/

theorem Filling.Tidy.wrapCharStep (h : f.Tidy charWidth limit) (ch : Char) :
    (wrapCharStep charWidth limit f ch).Tidy charWidth limit ∧
      (wrapCharStep charWidth limit f ch).content = f.content ++ [ch] := by
  rw [Layout.wrapCharStep]
  dsimp only
  have hflush : ∃ g : Filling Char, (if limit < f.col + charWidth ch ∧ f.current ≠ [] then f.flush else f) = g ∧
      g.Tidy charWidth limit ∧ g.content = f.content ∧ (charWidth ch ≤ limit → g.col + charWidth ch ≤ limit) := by
    refine ⟨_,rfl,?_⟩
    split
    · exact ⟨h.flush,content_flush,fun hle => (Nat.zero_add _).trans_le hle⟩
    · next hfull =>
      refine ⟨h,rfl,?_⟩
      intro hle
      by_cases hcurrent : f.current = []
      · rw [h.col,hcurrent]
        exact (Nat.zero_add _).trans_le hle
      · exact not_lt.mp fun hlt => hfull ⟨hlt,hcurrent⟩
  obtain ⟨g,hg,htidy,hcontent,hroom⟩ := hflush
  rw [hg,← hcontent]
  split
  · next hwide =>
    have hsingle : ∀ row ∈ [[ch]], Fits charWidth limit row := by
      intro row hmem
      obtain rfl := List.mem_singleton.mp hmem
      exact .inr ⟨ch,rfl,hwide⟩
    by_cases hcurrent : g.current = []
    · rw [if_neg (not_not.mpr hcurrent)]
      refine ⟨htidy.push hsingle,?_⟩
      simp [content,hcurrent]
    · rw [if_pos hcurrent]
      refine ⟨htidy.flush.push hsingle,?_⟩
      simp [content,Filling.flush]
  · next hfits =>
    have hext : Filling.Tidy charWidth limit ⟨g.out,g.current ++ [ch],g.col + stringWidth charWidth [ch]⟩ := by
      apply htidy.extend
      rw [stringWidth_singleton]
      exact hroom (not_lt.mp hfits)
    rw [stringWidth_singleton] at hext
    refine ⟨hext,?_⟩
    rw [content,content,List.append_assoc]

theorem Filling.Tidy.wrapChars (h : f.Tidy charWidth limit) (line : List Char) :
    (line.foldl (Layout.wrapCharStep charWidth limit) f).Tidy charWidth limit ∧
      (line.foldl (Layout.wrapCharStep charWidth limit) f).content = f.content ++ line := by
  induction line generalizing f with
  | nil => exact ⟨h,(List.append_nil _).symm⟩
  | cons ch rest ih =>
    obtain ⟨htidy,hcontent⟩ := h.wrapCharStep ch
    obtain ⟨hrun,hall⟩ := ih htidy
    refine ⟨hrun,?_⟩
    rw [List.foldl_cons,hall,hcontent,List.append_assoc,List.singleton_append]

theorem wrapChar_fits (line : List Char) (width : UInt16) :
    ∀ row ∈ wrapChar charWidth line width, Fits charWidth width.toNat row :=
  (Filling.Tidy.empty.wrapChars line).1.finish

theorem flatten_wrapChar (line : List Char) (width : UInt16) : (wrapChar charWidth line width).flatten = line := by
  rw [wrapChar,Filling.content_finish,(Filling.Tidy.empty.wrapChars line).2]
  rfl

/-! Wrapping at words. -/

/-- A word comes at the beginning of a row and is wider than it, where characters of no width wait
in the row. -/
def Filling.Drops (charWidth : CharWidth) (limit : Nat) (f : Filling Char) (word : List Char) : Prop :=
  f.col = 0 ∧ limit < stringWidth charWidth word ∧ ¬f.current.all isWhitespace

variable {width : UInt16} {word : List Char}

/-- What a word adds to the rows: nothing of it is lost but white, and nothing of what waits for it
unless it is dropped. -/
structure Filling.Adds (charWidth : CharWidth) (width : UInt16) (f : Filling Char) (word : List Char)
    (f' : Filling Char) : Prop where
  tidy : f'.Tidy charWidth width.toNat
  order : f'.content.Sublist (f.content ++ word)
  kept : ink f'.content = ink (f.content ++ word) ↔ ¬f.Drops charWidth width.toNat word
  col : f'.col = nextColumn charWidth width.toNat f.col word
  waits : f'.col = 0 → f'.current = if stringWidth charWidth word = 0 then f.current ++ word else []

theorem ink_ne {a b c : List Char} (h : ¬b.all isWhitespace) : ink (a ++ c) ≠ ink (a ++ b ++ c) := by
  intro heq
  have hlength := congrArg List.length heq
  simp only [ink_append,List.length_append] at hlength
  apply h
  rw [← ink_eq_nil,← List.length_eq_zero_iff]
  omega

/-- A word that is added whole. -/
theorem Filling.Adds.whole {f' : Filling Char} (htidy : f'.Tidy charWidth width.toNat)
    (hcontent : f'.content = f.content ++ word) (hdrops : ¬f.Drops charWidth width.toNat word)
    (hcol : f'.col = nextColumn charWidth width.toNat f.col word)
    (hwaits : f'.col = 0 → f'.current = if stringWidth charWidth word = 0 then f.current ++ word else []) :
    Filling.Adds charWidth width f word f' where
  tidy := htidy
  order := hcontent ▸ List.Sublist.refl _
  kept := iff_of_true (congrArg ink hcontent) hdrops
  col := hcol
  waits := hwaits

theorem Filling.Tidy.wrapWordStep (h : f.Tidy charWidth width.toNat) (word : List Char) :
    Filling.Adds charWidth width f word (wrapWordStep charWidth width f word) := by
  have hle := h.le
  rw [Layout.wrapWordStep]
  dsimp only
  by_cases hfull : 0 < f.col ∧ width.toNat < f.col + stringWidth charWidth word
  · obtain ⟨hpos,hover⟩ := hfull
    have hww : stringWidth charWidth word ≠ 0 := by omega
    have hdrops : ¬f.Drops charWidth width.toNat word := fun hd => hpos.ne' hd.1
    rw [if_pos (show 0 < f.col ∧ width.toNat < f.col + stringWidth charWidth word from ⟨hpos,hover⟩)]
    by_cases hspace : word.all isWhitespace
    · -- White space at the end of a row is skipped.
      rw [if_pos ⟨hpos,hover,hspace⟩]
      refine ⟨h.flush,?_,?_,?_,?_⟩
      · rw [Filling.content_flush]
        exact List.sublist_append_left f.content word
      · refine iff_of_true ?_ hdrops
        rw [Filling.content_flush,ink_append,ink_eq_nil.mpr hspace,List.append_nil]
      · rw [nextColumn,if_pos ⟨hpos,hover⟩,if_pos (.inl hspace)]
        rfl
      · intro _
        rw [if_neg hww]
        rfl
    · rw [if_neg fun hc => hspace hc.2.2]
      by_cases hwide : width.toNat < stringWidth charWidth word
      · rw [if_pos (show f.flush.col = 0 ∧ _ from ⟨rfl,hwide⟩)]
        apply Filling.Adds.whole (h.flush.push (wrapChar_fits word width))
        · simp [content,Filling.flush,flatten_wrapChar]
        · exact hdrops
        · rw [nextColumn,if_pos ⟨hpos,hover⟩,if_pos (.inr hwide)]
        · intro _
          rw [if_neg hww]
      · rw [if_neg fun hc => hwide hc.2]
        apply Filling.Adds.whole
        · apply h.flush.extend
          exact (Nat.zero_add _).trans_le (not_lt.mp hwide)
        · simp [content,Filling.flush]
        · exact hdrops
        · rw [nextColumn,if_pos ⟨hpos,hover⟩,if_neg (not_or.mpr ⟨hspace,hwide⟩)]
          exact Nat.zero_add _
        · intro hzero
          exact absurd (Nat.eq_zero_of_add_eq_zero_left hzero) hww
  · rw [if_neg fun hc => hfull ⟨hc.1,hc.2.1⟩,if_neg hfull]
    by_cases hwide : f.col = 0 ∧ width.toNat < stringWidth charWidth word
    · -- What waits in the row is cleared.
      rw [if_pos hwide]
      have hww : stringWidth charWidth word ≠ 0 := by omega
      have hcontent : Filling.content ⟨f.out ++ wrapChar charWidth word width,[],0⟩ = f.out.flatten ++ word := by
        simp [content,flatten_wrapChar]
      refine ⟨h.push (wrapChar_fits word width),?_,?_,?_,?_⟩
      · rw [hcontent,content]
        exact (List.sublist_append_left f.out.flatten f.current).append_right word
      · rw [hcontent,content]
        by_cases hspace : f.current.all isWhitespace
        · refine iff_of_true ?_ fun hd => hd.2.2 hspace
          rw [ink_append,ink_append,ink_append,ink_eq_nil.mpr hspace,List.append_nil]
        · exact iff_of_false (ink_ne hspace) (not_not.mpr ⟨hwide.1,hwide.2,hspace⟩)
      · rw [nextColumn,if_neg hfull,if_pos hwide]
      · intro _
        rw [if_neg hww]
    · rw [if_neg hwide]
      apply Filling.Adds.whole
      · apply h.extend
        omega
      · rw [content,content,List.append_assoc]
      · exact fun hd => hwide ⟨hd.1,hd.2.1⟩
      · rw [nextColumn,if_neg hfull,if_neg hwide]
      · intro hzero
        rw [if_pos (Nat.eq_zero_of_add_eq_zero_left hzero)]

theorem columnAfter_snoc (limit : Nat) (words : List (List Char)) (word : List Char) :
    columnAfter charWidth limit (words ++ [word]) = nextColumn charWidth limit (columnAfter charWidth limit words) word := by
  rw [columnAfter,List.foldl_append]
  rfl

theorem widthlessTail_snoc (words : List (List Char)) (word : List Char) :
    widthlessTail charWidth (words ++ [word]) =
      if stringWidth charWidth word = 0 then word :: widthlessTail charWidth words else [] := by
  rw [widthlessTail,List.reverse_append,List.reverse_singleton,List.singleton_append,List.takeWhile_cons]
  simp only [decide_eq_true_eq]
  rfl

/-- What the rows hold after some words. -/
structure Filling.Laid (charWidth : CharWidth) (limit : Nat) (words : List (List Char)) (f : Filling Char) : Prop where
  tidy : f.Tidy charWidth limit
  order : f.content.Sublist words.flatten
  kept : ink f.content = ink words.flatten ↔ Throughout (Undropped charWidth limit) words
  col : f.col = columnAfter charWidth limit words
  waits : f.col = 0 → f.current = (widthlessTail charWidth words).reverse.flatten

theorem Filling.Laid.undropped_iff {words : List (List Char)} (h : f.Laid charWidth limit words) (word : List Char) :
    ¬f.Drops charWidth limit word ↔ Undropped charWidth limit words word := by
  have hwhite (hcol : f.col = 0) : f.current.all isWhitespace ↔
      ∀ other ∈ widthlessTail charWidth words, other.all isWhitespace := by
    rw [h.waits hcol,List.all_flatten,List.all_eq_true]
    simp only [List.mem_reverse]
  rw [Drops,Undropped,← h.col]
  constructor
  · intro hd hwide hcol
    rw [← hwhite hcol]
    by_contra hspace
    exact hd ⟨hcol,hwide,hspace⟩
  · rintro hu ⟨hcol,hwide,hspace⟩
    exact hspace ((hwhite hcol).mpr (hu hwide hcol))

/-- Two shortenings keep the ink when each of them does. -/
theorem ink_eq_iff {a b c : List Char} (hab : a.Sublist b) (hbc : b.Sublist c) :
    ink a = ink c ↔ ink a = ink b ∧ ink b = ink c := by
  constructor
  · intro heq
    have hle := (ink_sublist hab).length_le
    have hle' := (ink_sublist hbc).length_le
    have hlength := congrArg List.length heq
    exact ⟨(ink_sublist hab).eq_of_length (by omega),(ink_sublist hbc).eq_of_length (by omega)⟩
  · rintro ⟨hab,hbc⟩
    rw [hab,hbc]

theorem Filling.Laid.step {words : List (List Char)} (h : f.Laid charWidth width.toNat words) (word : List Char) :
    (wrapWordStep charWidth width f word).Laid charWidth width.toNat (words ++ [word]) := by
  have hadds := h.tidy.wrapWordStep word
  have hflatten : (words ++ [word]).flatten = words.flatten ++ word := by simp
  have horder : (f.content ++ word).Sublist (words.flatten ++ word) := h.order.append_right word
  refine ⟨hadds.tidy,?_,?_,?_,?_⟩
  · rw [hflatten]
    exact hadds.order.trans horder
  · rw [hflatten,ink_eq_iff hadds.order horder,hadds.kept,h.undropped_iff,ink_append,ink_append,List.append_left_inj,
      h.kept,Throughout.snoc,and_comm]
  · rw [hadds.col,h.col,columnAfter_snoc]
  · intro hzero
    rw [hadds.waits hzero,widthlessTail_snoc]
    split
    · next hww =>
      have hcol : f.col = 0 := by
        have hnext := hadds.col.symm.trans hzero
        rw [nextColumn,hww] at hnext
        have hle := h.tidy.le
        simp only [Nat.add_zero] at hnext
        rw [if_neg (by omega),if_neg (by omega)] at hnext
        exact hnext
      rw [h.waits hcol,List.reverse_cons,List.flatten_append,List.flatten_singleton]
    · rfl

theorem laid (charWidth : CharWidth) (width : UInt16) (words : List (List Char)) :
    (words.foldl (wrapWordStep charWidth width) .empty).Laid charWidth width.toNat words := by
  induction words using List.reverseRecOn with
  | nil => exact ⟨Filling.Tidy.empty,List.Sublist.refl _,iff_of_true rfl Throughout.nil,rfl,fun _ => rfl⟩
  | append_singleton words word ih =>
    rw [List.foldl_append]
    exact ih.step word

theorem flatten_splitKeepingSpacesLoop (inSpace : Bool) (run line : List Char) :
    (splitKeepingSpacesLoop inSpace run line).flatten = run ++ line := by
  induction line generalizing inSpace run with
  | nil => by_cases hrun : run = [] <;> simp [splitKeepingSpacesLoop,hrun]
  | cons c rest ih =>
    rw [splitKeepingSpacesLoop]
    split
    · rw [List.flatten_cons,ih,List.singleton_append]
    · rw [ih,List.append_assoc,List.singleton_append]

theorem flatten_splitKeepingSpaces (line : List Char) : (splitKeepingSpaces line).flatten = line :=
  flatten_splitKeepingSpacesLoop _ [] line

/-! The lines of a text. -/

theorem wrapWord_fits (line : List Char) (width : UInt16) :
    ∀ row ∈ wrapWord charWidth line width, Fits charWidth width.toNat row :=
  (laid charWidth width (splitKeepingSpaces line)).tidy.finish

theorem wrapWord_order (line : List Char) (width : UInt16) : (wrapWord charWidth line width).flatten.Sublist line := by
  have horder := (laid charWidth width (splitKeepingSpaces line)).order
  rwa [flatten_splitKeepingSpaces,← Filling.content_finish] at horder

theorem wrapWord_kept (line : List Char) (width : UInt16) :
    ink (wrapWord charWidth line width).flatten = ink line ↔ KeepsInk charWidth width.toNat line := by
  have hkept := (laid charWidth width (splitKeepingSpaces line)).kept
  rwa [flatten_splitKeepingSpaces,← Filling.content_finish] at hkept

theorem flatten_flatMap {α : Type} (g : α → List (List Char)) (lines : List α) :
    (lines.flatMap g).flatten = lines.flatMap fun line => (g line).flatten := by
  induction lines with
  | nil => rfl
  | cons line rest ih => rw [List.flatMap_cons,List.flatten_append,ih,List.flatMap_cons]

/-- The lines of a text are the text without its line feeds. -/
theorem flatten_splitOn (s : List Char) : (s.splitOn '\n').flatten = s.filter (· ≠ '\n') := by
  induction s with
  | nil => rfl
  | cons c rest ih =>
    rw [List.splitOn_cons_eq_if_modifyHead,List.filter_cons]
    by_cases hbreak : c = '\n'
    · rw [if_pos (beq_iff_eq.mpr hbreak),if_neg (by simp [hbreak]),List.flatten_cons,ih,List.nil_append]
    · rw [if_neg (fun h => hbreak (beq_iff_eq.mp h)),if_pos (by simp [hbreak]),← ih]
      cases hrest : rest.splitOn '\n' with
      | nil => exact absurd hrest (List.splitOn_ne_nil _ _)
      | cons first others => rfl

theorem ink_flatten_splitOn (s : List Char) : ink (s.splitOn '\n').flatten = ink s := by
  rw [flatten_splitOn,ink,ink,List.filter_filter]
  apply List.filter_congr
  intro c _
  by_cases hbreak : c = '\n'
  · rw [hbreak]
    decide
  · simp [hbreak]

section Lines
variable {g : List Char → List (List Char)} {lines : List (List Char)}

theorem sublist_flatMap (hg : ∀ line, (g line).flatten.Sublist line) :
    (lines.flatMap fun line => (g line).flatten).Sublist lines.flatten := by
  induction lines with
  | nil => exact List.Sublist.refl _
  | cons line rest ih => exact (hg line).append ih

/-- The lines keep their ink together when each of them does. -/
theorem ink_flatMap_iff (hg : ∀ line, (g line).flatten.Sublist line) :
    ink (lines.flatMap fun line => (g line).flatten) = ink lines.flatten ↔ ∀ line ∈ lines, ink (g line).flatten = ink line := by
  induction lines with
  | nil => simp
  | cons line rest ih =>
    rw [List.flatMap_cons,List.flatten_cons,List.forall_mem_cons,← ih,
      ink_eq_iff ((hg line).append_right _) ((sublist_flatMap hg).append_left line)]
    simp only [ink_append,List.append_left_inj,List.append_right_inj]

/-- Empty lines are the rows that only one of the two has. -/
theorem flatMap_eq_iff (hg : g [] = []) :
    lines.flatMap g = (lines.flatMap fun line => if line = [] then [[]] else g line) ↔ [] ∉ lines := by
  have hlength : (lines.flatMap fun line => if line = [] then [[]] else g line).length =
      (lines.flatMap g).length + lines.count [] := by
    induction lines with
    | nil => rfl
    | cons line rest ih =>
      rw [List.flatMap_cons,List.flatMap_cons,List.length_append,List.length_append,ih,List.count_cons]
      by_cases hline : line = []
      · simp [hline,hg]
        omega
      · simp [hline]
        omega
  constructor
  · intro heq
    rw [← heq] at hlength
    apply List.count_eq_zero.mp
    omega
  · intro hnone
    apply List.flatMap_congr
    intro line hmem
    rw [if_neg]
    rintro rfl
    exact hnone hmem

end Lines

/-! The rows of a text. -/

variable {s : List Char} {wrap : WrapMode}

theorem wraps_of_lines (hwidth : width ≠ 0) (hfits : ∀ line, ∀ row ∈ wrapLine charWidth width wrap line, Fits charWidth width.toNat row)
    (horder : ∀ line, (wrapLine charWidth width wrap line).flatten.Sublist line)
    (hexact : wrap = .char → ∀ line, (wrapLine charWidth width wrap line).flatten = line) :
    Wraps charWidth s width wrap (wrapText charWidth s width wrap) ↔
      ∀ line ∈ s.splitOn '\n', ink (wrapLine charWidth width wrap line).flatten = ink line := by
  rw [wrapText,if_neg hwidth,← ink_flatMap_iff horder,ink_flatten_splitOn,← flatten_flatMap]
  constructor
  · exact Wraps.kept
  · intro hkept
    refine ⟨?_,?_,hkept,?_⟩
    · intro row hrow
      obtain ⟨line,-,hrow⟩ := List.mem_flatMap.mp hrow
      exact hfits line row hrow
    · rw [flatten_flatMap]
      apply (sublist_flatMap horder).trans
      rw [flatten_splitOn]
      exact List.filter_sublist
    · intro hchar
      rw [flatten_flatMap,List.flatMap_congr fun line _ => hexact hchar line,List.flatMap_id',flatten_splitOn]

theorem wraps_char (hwidth : width ≠ 0) : Wraps charWidth s width .char (wrapText charWidth s width .char) := by
  refine (wraps_of_lines hwidth ?_ ?_ ?_).mpr ?_
  · exact fun line => wrapChar_fits line width
  · intro line
    rw [wrapLine,flatten_wrapChar]
  · exact fun _ line => flatten_wrapChar line width
  · intro line _
    rw [wrapLine,flatten_wrapChar]

theorem wraps_word_iff (hwidth : width ≠ 0) : Wraps charWidth s width .word (wrapText charWidth s width .word) ↔
    ∀ line ∈ s.splitOn '\n', KeepsInk charWidth width.toNat line := by
  rw [wraps_of_lines hwidth]
  · apply forall₂_congr
    intro line _
    exact wrapWord_kept line width
  · exact fun line => wrapWord_fits line width
  · exact fun line => wrapWord_order line width
  · intro h
    cases h

/-- The rows of styled text: those of its lines, where an empty line is an empty row. -/
theorem unstyledRows_wrapStyled (hwidth : width ≠ 0) {chars : List StyledChar} (hne : chars ≠ []) :
    unstyledRows (wrapStyled charWidth chars width wrap) =
      ((unstyled chars).splitOn '\n').flatMap fun line => if line = [] then [[]] else wrapLine charWidth width wrap line := by
  rw [wrapStyled,if_neg hwidth,← logicalLines_unstyled hne]
  induction logicalLines chars with
  | nil => rfl
  | cons raw rest ih =>
    rw [List.flatMap_cons,unstyledRows_append,ih,unstyledRows_cons,List.flatMap_cons]
    congr 1
    by_cases hraw : raw = []
    · rw [hraw]
      rfl
    · rw [wrapStyledLine_unstyled charWidth width wrap hraw,if_neg fun h => hraw (unstyled_eq_nil.mp h)]

/-- An empty line is cut to an empty row. -/
theorem wrapLine_nil (h : ¬(wrap = .word ∨ wrap = .char)) : wrapLine charWidth width wrap [] = [[]] := by
  have hfit : stringWidth charWidth [] ≤ width.toNat := Nat.zero_le _
  cases wrap with
  | word => exact absurd (.inl rfl) h
  | char => exact absurd (.inr rfl) h
  | none => rfl
  | tail => rfl
  | ellipsis => rw [wrapLine,takeColumnsWithEllipsis,if_pos hfit]
  | tailEllipsis => rw [wrapLine,takeTailColumnsWithEllipsis,if_pos hfit]

theorem same_iff (hwidth : width ≠ 0) (style : Style) :
    wrapText charWidth s width wrap = unstyledRows (wrapStyled charWidth (styledCharsFromStr s style) width wrap) ↔
      if wrap = .word ∨ wrap = .char then s = [] ∨ [] ∉ s.splitOn '\n' else s ≠ [] := by
  by_cases hs : s = []
  · rw [hs,wrapText,if_neg hwidth,wrapStyled,if_neg hwidth]
    cases wrap <;> simp [wrapLine,wrapChar,wrapWord,splitKeepingSpaces,splitKeepingSpacesLoop,styledCharsFromStr,
      logicalLines,Filling.empty,Filling.finish]
  · have hne : styledCharsFromStr s style ≠ [] := fun h => hs (List.map_eq_nil_iff.mp h)
    rw [unstyledRows_wrapStyled hwidth hne,unstyled_styledCharsFromStr,wrapText,if_neg hwidth]
    split
    · next hmode =>
      have hempty : wrapLine charWidth width wrap [] = [] := by
        obtain rfl | rfl := hmode <;> rfl
      rw [flatMap_eq_iff hempty,or_iff_right hs]
    · next hmode =>
      refine iff_of_true ?_ hs
      apply List.flatMap_congr
      intro line _
      split
      · next hline => rw [hline,wrapLine_nil hmode]
      · rfl

end Filling

/-- Plain and styled text wrap alike, and no ink is lost, exactly under the condition on the text. -/
theorem wrapsAlike_iff (s : List Char) (style : Style) (width : UInt16) (wrap : WrapMode) (hwidth : 1 ≤ width) :
    WrapsAlike charWidth s style width wrap ↔ Agreeable charWidth s width wrap := by
  have hzero : width ≠ 0 := by
    rintro rfl
    exact absurd hwidth (by decide)
  have hsplit : WrapsAlike charWidth s style width wrap ↔
      wrapText charWidth s width wrap = unstyledRows (wrapStyled charWidth (styledCharsFromStr s style) width wrap) ∧
        (wrap = .word ∨ wrap = .char → Wraps charWidth s width wrap (wrapText charWidth s width wrap)) :=
    ⟨fun h => ⟨h.same,h.wraps⟩,fun h => ⟨h.1,h.2⟩⟩
  rw [hsplit,same_iff hzero]
  cases wrap with
  | word => simp [Agreeable,wraps_word_iff hzero]
  | char => simp [Agreeable,wraps_char hzero]
  | _ => simp [Agreeable]

/-- A line of two words, the second of which is too long for a row. -/
theorem wrapsAlike_words : WrapsAlike (fun _ => 1) ['h','i',' ','l','o','n','g','e','r'] .empty 4 .word :=
  (wrapsAlike_iff _ _ .empty 4 .word (by decide)).mpr (by decide)

/-- An empty line is a row of the styled text only. -/
theorem wrapsAlike_fails_on_blank_line : wrapText (fun _ => 1) ['a','\n','\n','b'] 10 .word = [['a'],['b']] ∧
    unstyledRows (wrapStyled (fun _ => 1) (styledCharsFromStr ['a','\n','\n','b'] .empty) 10 .word) = [['a'],[],['b']] ∧
    ¬WrapsAlike (fun _ => 1) ['a','\n','\n','b'] .empty 10 .word :=
  ⟨by decide,by decide,fun h => absurd h.same (by decide)⟩

/-- Characters of no width are dropped where a word after them is wider than the row. -/
example : wrapText (fun c => if c.toNat = 0x200b ∨ c = '\t' then 0 else 1) ['\u200b','\t','a','b','c'] 2 .word =
    [['a','b'],['c']] := by decide

end Nefor.Tui.Layout
