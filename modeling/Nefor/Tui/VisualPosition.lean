import Nefor.Tui.TextInput
import Nefor.Tui.WrapPartition

/-! Offsets and visual positions in the rows of a wrapped value. -/
namespace Nefor.Tui
open SourceText
open ToolGate (isWhitespace)

/-- The next row begins where this one ends, so that it takes the cursor there. -/
def WrappedRow.Meets (row next : WrappedRow) : Prop := next.startByte = row.endByte ∧ row.terminatedByNewline = false

instance (row next : WrappedRow) : Decidable (row.Meets next) := inferInstanceAs (Decidable (_ ∧ _))

/-- The last column that a cursor can have in the row: one that meets the next row does not keep its end. -/
def WrappedRow.reach (glyphs : Glyphs) (value : List Char) (row : WrappedRow) (next : Option WrappedRow) : Nat :=
  if ∃ next' ∈ next, row.Meets next' then glyphs.cells ((range value row.startByte row.endByte).getD []).dropLast
  else row.width

/-- No offset is far from every row, and no row that meets the next one is left by a move to its end. -/
structure Apart (glyphs : Glyphs) (value : List Char) (rows : List WrappedRow) : Prop where
  first : ∀ row ∈ rows.head?, row.startByte = 0
  gap : ∀ i row next, rows[i]? = some row → rows[i + 1]? = some next →
    (∃ gap, range value row.endByte next.startByte = some gap ∧ gap.length ≤ 1) ∨ rows.length = i + 2 ∧ next.width = 0
  up : ∀ i row next, rows[i]? = some row → rows[i + 1]? = some next → row.Meets next →
    next.reach glyphs value rows[i + 2]? < max 1 row.width
  down : ∀ i prev row next, rows[i]? = some prev → rows[i + 1]? = some row → rows[i + 2]? = some next → row.Meets next →
    prev.reach glyphs value (some row) < max 1 row.width

/-- Offsets and visual positions are inverse. -/
structure Inverse (glyphs : Glyphs) (value : List Char) (width : Nat) (rows : List WrappedRow) : Prop where
  /-- The named row contains the cursor, or is next to the white characters in which the cursor lies. -/
  names : ∀ cursor, Boundary value cursor → ∃ i col row, cursorInWrapFor glyphs value rows cursor = some (i,col) ∧
    rows[i]? = some row ∧ (row.startByte ≤ cursor ∧ cursor ≤ row.endByte ∨
      ∃ j prev next gap, rows[j]? = some prev ∧ rows[j + 1]? = some next ∧
        range value prev.endByte next.startByte = some gap ∧ gap.all isWhitespace = true ∧ '\n' ∉ gap ∧
        prev.endByte < cursor ∧ cursor < next.startByte ∧ (i = j ∨ i = j + 1))
  monotone : ∀ cursor cursor' i col i' col', Boundary value cursor → Boundary value cursor' → cursor ≤ cursor' →
    cursorInWrapFor glyphs value rows cursor = some (i,col) →
    cursorInWrapFor glyphs value rows cursor' = some (i',col') → i < i' ∨ i = i' ∧ col ≤ col'
  /-- Every cursor in a row that has no zero-width character beside it is found again. -/
  inverse : ∀ before after row, value = before ++ after → row ∈ rows → row.startByte ≤ byteLen before →
    byteLen before ≤ row.endByte → (∀ ch ∈ before.getLast?, 0 < glyphs.charCellWidth ch) →
    (∀ ch ∈ after.head?, 0 < glyphs.charCellWidth ch) →
    ∃ i col, cursorInWrapFor glyphs value rows (byteLen before) = some (i,col) ∧
      byteOffsetForVisual glyphs value rows i col = some (byteLen before)
  /-- A move goes to the adjacent row if there is one, and back. -/
  moves : ∀ state : TextInputState, state.lastValue = value → state.viewportWidth = width → Boundary value state.cursor →
    ∀ extend i col, cursorInWrapFor glyphs value rows state.cursor = some (i,col) →
      (∃ up outcome col', state.moveUp glyphs extend = some (up,outcome) ∧
        cursorInWrapFor glyphs value rows up.cursor = some (i - 1,col') ∧
        (0 < i → ∃ down outcome' col'', up.moveDown glyphs extend = some (down,outcome') ∧
          cursorInWrapFor glyphs value rows down.cursor = some (i,col''))) ∧
      ∃ down outcome col', state.moveDown glyphs extend = some (down,outcome) ∧
        cursorInWrapFor glyphs value rows down.cursor = some (min (i + 1) (rows.length - 1),col')

/-! The shape of the segments. -/

/-- A newline is passed over after a row that it ends, and only the last row of a line is empty. -/
def Woven : List Segment → Prop
  | [] => True
  | [segment] => segment.gap = ['\n'] ∨ segment.gap.all isWhitespace = true ∧ '\n' ∉ segment.gap
  | segment :: next :: rest => (segment.newline = true → next.gap ≠ []) ∧ (segment.text = [] → segment.newline = true) ∧
    Woven (next :: rest)

variable {glyphs : Glyphs} {limit : Nat} {row run line gap : List Char} {newline : Bool} {segments rest : List Segment}
  {segment : Segment}

/-- The segments of a line: all but the last show something and do not end it. -/
structure LineShape (newline : Bool) (before : List Segment) (last : Segment) : Prop where
  inner : ∀ segment ∈ before, segment.newline = false ∧ segment.text ≠ []
  ends : last.newline = newline
  single : before = [] → last.gap = []
  white : last.gap.all isWhitespace = true ∧ '\n' ∉ last.gap

theorem LineShape.cons {before : List Segment} {last : Segment} (h : LineShape newline before last)
    (hsegment : segment.newline = false ∧ segment.text ≠ []) : LineShape newline (segment :: before) last where
  inner := List.forall_mem_cons.mpr ⟨hsegment,h.inner⟩
  ends := h.ends
  single := nofun
  white := h.white

theorem lineSegments_shape (row : List Char) {runs : List (List Char)} (hruns : ∀ run ∈ runs, run ≠ [] ∧ '\n' ∉ run) :
    ∃ before last, lineSegments glyphs limit newline row runs = before ++ [last] ∧ LineShape newline before last := by
  induction runs generalizing row with
  | nil => exact ⟨[],_,rfl,by simp,rfl,fun _ => rfl,rfl,List.not_mem_nil⟩
  | cons run rest ih =>
    obtain ⟨⟨hne,hline⟩,hrest⟩ := List.forall_mem_cons.mp hruns
    rw [lineSegments]
    split
    · obtain ⟨before,last,heq,hshape⟩ := ih [] hrest
      have hpieces := @charRows_fit glyphs limit [] run (Or.inl (Nat.zero_le limit))
      cases hcut : charRows glyphs limit [] run with
      | nil => exact absurd hcut (charRows_ne_nil (Or.inr hne))
      | cons text texts =>
        rw [hcut] at hpieces
        refine ⟨withGap row (soft (text :: texts)) ++ before,last,by rw [heq,List.append_assoc],?_,hshape.ends,by simp [soft,withGap],hshape.white⟩
        intro segment hsegment
        obtain hsegment | hsegment := List.mem_append.mp hsegment
        · obtain rfl | hsegment := List.mem_cons.mp hsegment
          · exact ⟨rfl,(hpieces text List.mem_cons_self).1⟩
          · obtain ⟨found,hfound,rfl⟩ := List.mem_map.mp hsegment
            exact ⟨rfl,(hpieces found (List.mem_cons_of_mem text hfound)).1⟩
        · exact hshape.inner segment hsegment
    · next hshort =>
      split
      · next hfull =>
        have hrow : row ≠ [] := by
          rintro rfl
          exact hshort ⟨rfl,by simpa using hfull⟩
        split
        · next hwhite =>
          obtain ⟨before,last,heq,hshape⟩ := ih [] hrest
          cases before with
          | nil =>
            refine ⟨[⟨[],row,false⟩],{ last with gap := run ++ last.gap },by rw [heq]; rfl,?_⟩
            rw [hshape.single rfl,List.append_nil]
            exact ⟨by simpa using hrow,hshape.ends,by simp,hwhite,hline⟩
          | cons first before =>
            refine ⟨⟨[],row,false⟩ :: { first with gap := run ++ first.gap } :: before,last,by rw [heq]; rfl,?_⟩
            have hfirst := hshape.inner first List.mem_cons_self
            apply LineShape.cons _ ⟨rfl,hrow⟩
            exact ⟨List.forall_mem_cons.mpr ⟨hfirst,(List.forall_mem_cons.mp hshape.inner).2⟩,hshape.ends,by simp,hshape.white⟩
        · obtain ⟨before,last,heq,hshape⟩ := ih run hrest
          exact ⟨⟨[],row,false⟩ :: before,last,by rw [heq]; rfl,hshape.cons ⟨rfl,hrow⟩⟩
      · exact ih (row ++ run) hrest

/-- A line before the lines that follow it. -/
theorem LineShape.woven {before : List Segment} {last : Segment} (h : LineShape newline before last) (hgap : gap = [] ∨ gap = ['\n'])
    (hrest : rest ≠ [] → newline = true ∧ Woven rest ∧ ∀ next ∈ rest.head?, next.gap ≠ []) :
    Woven (withGap gap (before ++ last :: rest)) := by
  have hlast {segment : Segment} (hnewline : segment.newline = newline)
      (hwhite : segment.gap = ['\n'] ∨ segment.gap.all isWhitespace = true ∧ '\n' ∉ segment.gap) : Woven (segment :: rest) := by
    cases rest with
    | nil => exact hwhite
    | cons next rest =>
      obtain ⟨htrue,hwoven,hhead⟩ := hrest (by simp)
      exact ⟨fun _ => hhead next rfl,fun _ => hnewline.trans htrue,hwoven⟩
  have hplain {before : List Segment} (hbefore : ∀ segment ∈ before, segment.newline = false ∧ segment.text ≠ []) :
      Woven (before ++ last :: rest) := by
    induction before with
    | nil => exact hlast h.ends (Or.inr h.white)
    | cons first before ih =>
      obtain ⟨⟨hnewline,htext⟩,hbefore⟩ := List.forall_mem_cons.mp hbefore
      have hmore := ih hbefore
      cases hafter : before ++ last :: rest with
      | nil => simp at hafter
      | cons next after =>
        rw [hafter] at hmore
        rw [List.cons_append,hafter]
        exact ⟨fun htrue => absurd (hnewline.symm.trans htrue) Bool.false_ne_true,fun hnil => absurd hnil htext,hmore⟩
  cases before with
  | nil =>
    refine @hlast { last with gap := gap ++ last.gap } h.ends ?_
    rw [h.single rfl,List.append_nil]
    obtain rfl | rfl := hgap
    · exact Or.inr ⟨rfl,List.not_mem_nil⟩
    · exact Or.inl rfl
  | cons first before =>
    have hall := hplain h.inner
    rw [List.cons_append] at hall ⊢
    cases hafter : before ++ last :: rest with
    | nil => simp at hafter
    | cons next after =>
      rw [hafter] at hall
      exact hall

theorem valueSegments_woven (gap line rest : List Char) (hline : '\n' ∉ line) (hgap : gap = [] ∨ gap = ['\n']) :
    Woven (withGap gap (valueSegments glyphs limit line rest)) := by
  induction rest generalizing gap line with
  | nil =>
    obtain ⟨before,last,heq,hshape⟩ := @lineSegments_shape glyphs limit false [] _ (runs_of_line hline)
    rw [valueSegments,heq]
    exact hshape.woven hgap (fun h => absurd rfl h)
  | cons ch rest ih =>
    rw [valueSegments]
    split
    · obtain ⟨before,last,heq,hshape⟩ := @lineSegments_shape glyphs limit true [] _ (runs_of_line hline)
      rw [heq,List.append_assoc]
      apply hshape.woven hgap
      intro _
      refine ⟨rfl,ih ['\n'] [] List.not_mem_nil (Or.inr rfl),fun next hnext => ?_⟩
      cases hvalue : valueSegments glyphs limit [] rest with
      | nil => exact absurd hvalue (valueSegments_ne_nil [] rest)
      | cons first more =>
        change next ∈ (withGap ['\n'] (valueSegments glyphs limit [] rest)).head? at hnext
        rw [hvalue] at hnext
        obtain rfl := Option.mem_some_iff.mp hnext
        simp
    · next hch => exact ih gap (line ++ [ch]) (by simp [hline,Ne.symm hch]) hgap

/-! Where an offset lies. -/

/-- The end of the segment belongs to the one after it. -/
def Segment.Meets (segment : Segment) (rest : List Segment) : Prop :=
  ∃ next ∈ rest.head?, next.gap = [] ∧ segment.newline = false

/-- The part of the value up to the offset ends in the text of a segment, and its end only where the segment
keeps it. -/
structure InText (segments : List Segment) (before : List Segment) (segment : Segment) (after : List Segment)
    (a b : List Char) : Prop where
  segments : segments = before ++ segment :: after
  text : segment.text = a ++ b
  keeps : b = [] → ¬ segment.Meets after

/-- The part of the value up to the offset ends inside what is passed over before a segment. -/
structure InGap (segments : List Segment) (before : List Segment) (segment : Segment) (after : List Segment)
    (a b : List Char) : Prop where
  segments : segments = before ++ segment :: after
  gap : segment.gap = a ++ b
  right : b ≠ []
  left : a = [] → before = []

theorem Woven.tail (h : Woven (segment :: rest)) : Woven rest := by
  cases rest with
  | nil => trivial
  | cons next rest => exact h.2.2

theorem Woven.drop {before : List Segment} (h : Woven (before ++ rest)) : Woven rest := by
  induction before with
  | nil => exact h
  | cons first before ih => exact ih h.tail

theorem Woven.not_meets (h : Woven (segment :: rest)) (htext : segment.text = []) : ¬ segment.Meets rest := by
  intro ⟨next,hnext,_,hnewline⟩
  cases rest with
  | nil => cases hnext
  | cons first rest =>
    rw [h.2.1 htext] at hnewline
    cases hnewline

/-- Every offset on a boundary lies in a text or in a gap. -/
theorem inText_or_inGap (h : Woven segments) (hne : segments ≠ []) {a b : List Char} (hcontent : content segments = a ++ b) :
    ∃ before segment after a' b', (InText segments before segment after a' b' ∧
        a = content before ++ segment.gap ++ a' ∧ b = b' ++ content after) ∨
      InGap segments before segment after a' b' ∧ a = content before ++ a' ∧
        b = b' ++ segment.text ++ content after := by
  induction segments generalizing a with
  | nil => exact absurd rfl hne
  | cons segment rest ih =>
    rw [content_cons,List.append_assoc] at hcontent
    -- the offset in what comes after the gap
    have hafter : ∀ m, segment.text ++ content rest = m ++ b → a = segment.gap ++ m →
        ∃ before segment' after a' b', (InText (segment :: rest) before segment' after a' b' ∧
          a = content before ++ segment'.gap ++ a' ∧ b = b' ++ content after) ∨
        InGap (segment :: rest) before segment' after a' b' ∧ a = content before ++ a' ∧
          b = b' ++ segment'.text ++ content after := by
      intro m hm ha
      have hnext : ∀ k, m = segment.text ++ k → content rest = k ++ b → (k = [] → segment.Meets rest) →
          ∃ before segment' after a' b', (InText (segment :: rest) before segment' after a' b' ∧
            a = content before ++ segment'.gap ++ a' ∧ b = b' ++ content after) ∨
          InGap (segment :: rest) before segment' after a' b' ∧ a = content before ++ a' ∧
            b = b' ++ segment'.text ++ content after := by
        intro k hk hrest hmeets
        have hrestNe : rest ≠ [] := by
          rintro rfl
          have hnil : k = [] := (List.append_eq_nil_iff.mp hrest.symm).1
          obtain ⟨next,hnone,-⟩ := hmeets hnil
          cases hnone
        obtain ⟨before,found,after,a',b',⟨hin,hka,hb⟩ | ⟨hin,hka,hb⟩⟩ := ih h.tail hrestNe hrest
        · refine ⟨segment :: before,found,after,a',b',Or.inl ⟨⟨by rw [hin.segments]; rfl,hin.text,hin.keeps⟩,?_,hb⟩⟩
          rw [ha,hk,hka]
          simp
        · refine ⟨segment :: before,found,after,a',b',Or.inr ⟨⟨by rw [hin.segments]; rfl,hin.gap,hin.right,fun hnil => ?_⟩,?_,hb⟩⟩
          · exfalso
            have hbefore := hin.left hnil
            have hsegments := hin.segments
            have hgap := hin.gap
            subst hnil hbefore
            obtain ⟨next,hhead,hempty,-⟩ := hmeets (by simpa using hka)
            rw [hsegments] at hhead
            obtain rfl := Option.mem_some_iff.mp hhead
            rw [hempty] at hgap
            exact hin.right hgap.symm
          · rw [ha,hk,hka]
            simp
      obtain ⟨k,hk,hrest⟩ | ⟨k,hk,hrest⟩ := List.append_eq_append_iff.mp hm
      · by_cases hkeeps : k = [] ∧ ¬ segment.Meets rest
        · obtain ⟨rfl,hnot⟩ := hkeeps
          refine ⟨[],segment,rest,m,[],Or.inl ⟨⟨rfl,by rw [hk,List.append_nil,List.append_nil],fun _ => hnot⟩,ha,?_⟩⟩
          simpa using hrest.symm
        · exact hnext k hk hrest fun hnil => not_not.mp fun hnot => hkeeps ⟨hnil,hnot⟩
      · by_cases hkeeps : k = [] ∧ segment.Meets rest
        · obtain ⟨rfl,hmeets⟩ := hkeeps
          exact hnext [] (by rw [hk,List.append_nil,List.append_nil]) (by simpa using hrest.symm) fun _ => hmeets
        · exact ⟨[],segment,rest,m,k,Or.inl ⟨⟨rfl,hk,fun hnil hmeets => hkeeps ⟨hnil,hmeets⟩⟩,ha,hrest⟩⟩
    obtain ⟨m,ha,hm⟩ | ⟨m,hgap,hb⟩ := List.append_eq_append_iff.mp hcontent
    · exact hafter m hm ha
    · by_cases hnil : m = []
      · subst hnil
        exact hafter [] (by simpa using hb.symm) (by simpa using hgap.symm)
      · exact ⟨[],segment,rest,a,m,Or.inr ⟨⟨rfl,hgap,hnil,fun _ => rfl⟩,rfl,by simpa using hb⟩⟩

section
variable {before after : List Segment} {a b done : List Char}

theorem place_getElem (done : List Char) (before : List Segment) (segment : Segment) (after : List Segment) :
    (place glyphs (byteLen done) (before ++ segment :: after))[before.length]? =
      some (segment.rowAfter glyphs (done ++ content before)) := by
  rw [place_append,← byteLen_append,place_cons]
  rw [List.getElem?_append_right (by rw [length_place]),length_place,Nat.sub_self]
  rfl

/-- The row that takes a cursor in a text. -/
theorem InText.coveringRow (h : InText segments before segment after a b) (hwoven : Woven segments) (done : List Char) :
    coveringRow (byteLen (done ++ content before ++ segment.gap ++ a)) (place glyphs (byteLen done) segments) =
      some (before.length,segment.rowAfter glyphs (done ++ content before)) := by
  obtain ⟨rfl,htext,hkeeps⟩ := h
  induction before generalizing done with
  | nil =>
    rw [List.nil_append,place_cons,Tui.coveringRow,if_pos]
    · simp
    · refine ⟨by simp [Segment.rowAfter],by simp [Segment.rowAfter,htext],?_⟩
      rintro ⟨hnext,hnewline⟩
      cases after with
      | nil => simp [place] at hnext
      | cons next after =>
        rw [place_cons] at hnext
        simp only [List.head?_cons,Option.any_some,decide_eq_true_eq] at hnext
        have hb : byteLen b = 0 := by
          have hend := hnext.2
          simp [Segment.rowAfter,htext] at hend
          exact hend
        have hgap : byteLen next.gap = 0 := by
          have hstart := hnext.1
          simp [Segment.rowAfter,htext,hb] at hstart
          exact hstart
        exact hkeeps (byteLen_eq_zero.mp hb) ⟨next,rfl,byteLen_eq_zero.mp hgap,hnewline⟩
  | cons first before ih =>
    have hmore := ih (done ++ first.gap ++ first.text) hwoven.tail
    rw [List.cons_append,place_cons,Tui.coveringRow,if_neg]
    · have hdone : done ++ content (first :: before) = done ++ first.gap ++ first.text ++ content before := by simp
      rw [hdone,hmore]
      rfl
    · rintro ⟨-,hend,hnot⟩
      apply hnot
      simp only [Segment.rowAfter,content_cons,byteLen_append] at hend
      have hgap : content before = [] ∧ segment.gap = [] ∧ a = [] := by
        simp only [← byteLen_eq_zero]
        omega
      obtain ⟨hbefore,hgap,rfl⟩ := hgap
      obtain ⟨next,rest,heq,hempty⟩ : ∃ next rest, before ++ segment :: after = next :: rest ∧ next.gap = [] := by
        cases before with
        | nil => exact ⟨segment,after,rfl,hgap⟩
        | cons second before =>
          rw [content_cons,List.append_assoc] at hbefore
          exact ⟨second,before ++ segment :: after,rfl,(List.append_eq_nil_iff.mp hbefore).1⟩
      rw [List.cons_append,heq] at hwoven
      constructor
      · rw [heq,place_cons]
        simp [Segment.rowAfter,hbefore,hgap,hempty]
      · cases hnewline : first.newline with
        | true => exact absurd hempty (hwoven.1 hnewline)
        | false => exact hnewline

theorem coveringRow_none {rows : List WrappedRow} {cursor : Nat} (h : ∀ row ∈ rows, cursor < row.startByte) :
    coveringRow cursor rows = none := by
  induction rows with
  | nil => rfl
  | cons row rest ih =>
    obtain ⟨hrow,hrest⟩ := List.forall_mem_cons.mp h
    rw [Tui.coveringRow,if_neg (by omega),ih hrest]
    rfl

/-- No row takes a cursor in a gap. -/
theorem InGap.coveringRow (h : InGap segments before segment after a b) (done : List Char) :
    coveringRow (byteLen (done ++ content before ++ a)) (place glyphs (byteLen done) segments) = none := by
  obtain ⟨rfl,hgap,hright,hleft⟩ := h
  induction before generalizing done with
  | nil =>
    apply coveringRow_none
    intro row hrow
    have hb := byteLen_pos hright
    have hgapLen : byteLen segment.gap = byteLen a + byteLen b := by rw [hgap,byteLen_append]
    rw [List.nil_append,place_cons] at hrow
    rw [content_nil,List.append_nil,byteLen_append]
    obtain rfl | hrow := List.mem_cons.mp hrow
    · simp only [Segment.rowAfter,byteLen_append]
      omega
    · obtain ⟨_,_,_,_,hstart,_⟩ := mem_place hrow
      rw [hstart]
      simp only [byteLen_append]
      omega
  | cons first before ih =>
    have ha : a ≠ [] := fun hnil => by cases hleft hnil
    have hpos := byteLen_pos ha
    have hmore := ih (done ++ first.gap ++ first.text) fun hnil => absurd hnil ha
    have hdone : done ++ content (first :: before) = done ++ first.gap ++ first.text ++ content before := by simp
    rw [List.cons_append,place_cons,Tui.coveringRow,hdone,hmore,if_neg]
    · rfl
    · simp only [Segment.rowAfter,byteLen_append]
      omega

/-! Positions and offsets. -/

theorem cells_mono {a b : List Char} (h : a <+: b) : glyphs.cells a ≤ glyphs.cells b := by
  obtain ⟨more,rfl⟩ := h
  rw [cells_append]
  exact Nat.le_add_right _ _

theorem getLast_place_isSome (hne : segments ≠ []) : ∃ last, (place glyphs 0 segments).getLast? = some last := by
  cases segments with
  | nil => exact absurd rfl hne
  | cons segment rest => exact ⟨_,List.getLast?_cons⟩

theorem InText.cursorInWrapFor (h : InText segments before segment after a b) (hwoven : Woven segments) :
    cursorInWrapFor glyphs (content segments) (place glyphs 0 segments) (byteLen (content before ++ segment.gap ++ a)) =
      some (before.length,glyphs.cells a) := by
  have hcovering := @InText.coveringRow glyphs _ _ _ _ _ _ h hwoven []
  simp only [List.nil_append,byteLen_nil] at hcovering
  obtain ⟨last,hlast⟩ := @getLast_place_isSome glyphs segments (by rw [h.segments]; simp)
  have hcontent : content segments = content before ++ segment.gap ++ a ++ (b ++ content after) := by
    rw [h.segments,content_append,content_cons,h.text]
    simp
  have hrange := range_append (content before ++ segment.gap) a (b ++ content after)
  rw [← byteLen_append] at hrange
  have hle : byteLen (content before ++ segment.gap ++ a) ≤ byteLen (content segments) := by
    rw [hcontent]
    simp only [byteLen_append]
    omega
  have hstart : byteLen (content before ++ segment.gap) ≤ byteLen (content before ++ segment.gap ++ a) := by
    simp only [byteLen_append]
    omega
  rw [Tui.cursorInWrapFor,hlast,hcovering]
  simp only [Segment.rowAfter,min_eq_left hle,min_eq_left hstart]
  rw [hcontent,hrange]
  rfl

theorem InGap.cursorInWrapFor (h : InGap segments before segment after a b) {last : Segment} (hlast : segments.getLast? = some last) :
    cursorInWrapFor glyphs (content segments) (place glyphs 0 segments) (byteLen (content before ++ a)) =
      some (segments.length - 1,glyphs.cells last.text) := by
  have hcovering := @InGap.coveringRow glyphs _ _ _ _ _ _ h []
  simp only [List.nil_append,byteLen_nil] at hcovering
  obtain ⟨init,rfl⟩ := List.getLast?_eq_some_iff.mp hlast
  have hrow : (place glyphs 0 (init ++ [last])).getLast? = some (last.rowAfter glyphs (content init)) := by
    rw [place_append,← byteLen_nil,← byteLen_append,place_cons,List.getLast?_append]
    rfl
  rw [Tui.cursorInWrapFor,hrow,hcovering,length_place]
  rfl

/-- Where the walk over a row ends. -/
theorem offsetOfCol_spec (targetCol endByte col start : Nat) (text : List Char) (hcol : col ≤ targetCol)
    (hend : endByte = start + byteLen text) : ∃ a b, text = a ++ b ∧
      offsetOfCol glyphs targetCol endByte text col start = start + byteLen a ∧ col + glyphs.cells a ≤ targetCol ∧
      ∀ ch ∈ b.head?, targetCol < col + glyphs.cells a + glyphs.charCellWidth ch := by
  induction text generalizing col start with
  | nil => exact ⟨[],[],rfl,hend,by simpa using hcol,nofun⟩
  | cons ch rest ih =>
    rw [offsetOfCol]
    split
    · next hpast =>
      refine ⟨[],ch :: rest,rfl,rfl,by simpa using hcol,fun found hfound => ?_⟩
      obtain rfl := Option.mem_some_iff.mp hfound
      simpa using hpast
    · next hroom =>
      rw [byteLen_cons,← Nat.add_assoc] at hend
      obtain ⟨a,b,rfl,hoffset,hle,hstop⟩ := ih (col + glyphs.charCellWidth ch) (start + ch.utf8Size) (by omega) hend
      have hcells : glyphs.cells (ch :: a) = glyphs.charCellWidth ch + glyphs.cells a := by simp [Glyphs.cells]
      refine ⟨ch :: a,b,rfl,by rw [hoffset,byteLen_cons]; omega,by rw [hcells]; omega,fun found hfound => ?_⟩
      have hpast := hstop found hfound
      rw [hcells]
      omega

/-- The offset of a column in the row of a segment. -/
theorem byteOffsetForVisual_spec (hsegments : segments = before ++ segment :: after) (targetCol : Nat) :
    ∃ a b, segment.text = a ++ b ∧ byteOffsetForVisual glyphs (content segments) (place glyphs 0 segments) before.length targetCol =
        some (byteLen (content before ++ segment.gap ++ a)) ∧ glyphs.cells a ≤ targetCol ∧ (targetCol = 0 → a = []) ∧
      (targetCol ≠ 0 → ∀ ch ∈ b.head?, targetCol < glyphs.cells a + glyphs.charCellWidth ch) := by
  have hrow := @place_getElem glyphs [] before segment after
  simp only [List.nil_append,byteLen_nil,← hsegments] at hrow
  rw [byteOffsetForVisual,hrow]
  by_cases hzero : targetCol = 0
  · subst hzero
    exact ⟨[],segment.text,rfl,by simp [Segment.rowAfter],Nat.le_refl 0,fun _ => rfl,fun hne => absurd rfl hne⟩
  · have hrange := range_append (content before ++ segment.gap) segment.text (content after)
    have hcontent : content segments = content before ++ segment.gap ++ segment.text ++ content after := by
      rw [hsegments,content_append,content_cons]
      simp
    rw [← byteLen_append,← hcontent] at hrange
    obtain ⟨a,b,htext,hoffset,hle,hstop⟩ := @offsetOfCol_spec glyphs targetCol (byteLen (content before ++ segment.gap ++ segment.text))
      0 (byteLen (content before ++ segment.gap)) segment.text (Nat.zero_le _) (by rw [← byteLen_append])
    refine ⟨a,b,htext,?_,by simpa using hle,fun h => absurd h hzero,fun _ => by simpa using hstop⟩
    simp only [if_neg hzero,Segment.rowAfter,hrange,Option.bind_eq_bind,Option.bind_some,hoffset]
    rw [← byteLen_append]

/-- The last column that a cursor can have in the row of a segment. -/
def Segment.reach (glyphs : Glyphs) (segment : Segment) (after : List Segment) : Nat :=
  if ∃ next ∈ after.head?, next.gap = [] ∧ segment.newline = false then glyphs.cells segment.text.dropLast
  else glyphs.cells segment.text

/-- A cursor in a row does not pass its last column. -/
theorem InText.le_reach (h : InText segments before segment after a b) : glyphs.cells a ≤ segment.reach glyphs after := by
  rw [Segment.reach,h.text]
  split
  · next hmeets =>
    have hb : b ≠ [] := fun hnil => h.keeps hnil hmeets
    rw [List.dropLast_append_of_ne_nil hb]
    exact cells_mono (List.prefix_append _ _)
  · exact cells_mono (List.prefix_append a b)

/-- Some cursor has the last column of the row. -/
theorem exists_reach (hwoven : Woven segments) (hsegments : segments = before ++ segment :: after) :
    ∃ a b, InText segments before segment after a b ∧ glyphs.cells a = segment.reach glyphs after := by
  rw [Segment.reach]
  split
  · next hmeets =>
    have htext : segment.text ≠ [] := fun hnil => (hsegments ▸ hwoven).drop.not_meets hnil hmeets
    refine ⟨segment.text.dropLast,[segment.text.getLast htext],⟨hsegments,?_,by simp⟩,rfl⟩
    exact (List.dropLast_append_getLast htext).symm
  · next hnot => exact ⟨segment.text,[],⟨hsegments,by simp,fun _ => hnot⟩,rfl⟩

/-- The end of a row that meets the next one belongs to that one. -/
theorem Segment.Meets.cursorInWrapFor (hmeets : segment.Meets after) (hwoven : Woven segments)
    (hsegments : segments = before ++ segment :: after) :
    cursorInWrapFor glyphs (content segments) (place glyphs 0 segments) (byteLen (content before ++ segment.gap ++ segment.text)) =
      some (before.length + 1,0) := by
  obtain ⟨next,hnext,hgap,-⟩ := hmeets
  cases after with
  | nil => cases hnext
  | cons first after =>
    obtain rfl := Option.mem_some_iff.mp hnext
    have hdrop : Woven (first :: after) := by
      rw [hsegments] at hwoven
      exact hwoven.drop.tail
    have hin : InText segments (before ++ [segment]) first after [] first.text :=
      ⟨by rw [hsegments]; simp,rfl,hdrop.not_meets⟩
    have hcursor := @InText.cursorInWrapFor glyphs _ _ _ _ _ _ hin hwoven
    rw [content_append,content_cons,content_nil,hgap] at hcursor
    simpa using hcursor

/-- A move to a row stays there, unless it goes to the end of one that meets the next. -/
theorem landing (hwoven : Woven segments) (hsegments : segments = before ++ segment :: after) (targetCol : Nat)
    (hroom : segment.Meets after → targetCol < max 1 (glyphs.cells segment.text)) :
    ∃ offset col, byteOffsetForVisual glyphs (content segments) (place glyphs 0 segments) before.length targetCol = some offset ∧
      cursorInWrapFor glyphs (content segments) (place glyphs 0 segments) offset = some (before.length,col) ∧
      col ≤ segment.reach glyphs after := by
  obtain ⟨a,b,htext,hoffset,hle,hzero,hstop⟩ := @byteOffsetForVisual_spec glyphs _ _ _ _ hsegments targetCol
  have hin : InText segments before segment after a b := by
    refine ⟨hsegments,htext,?_⟩
    rintro rfl hmeets
    have hlt := hroom hmeets
    rw [List.append_nil] at htext
    rw [htext] at hlt
    have htarget : targetCol = 0 := by omega
    have hnil : segment.text = [] := htext.trans (hzero htarget)
    exact (hsegments ▸ hwoven).drop.not_meets hnil hmeets
  exact ⟨_,_,hoffset,hin.cursorInWrapFor hwoven,hin.le_reach⟩

/-- A move to the end of a row that meets the next goes to the next one. -/
theorem landing_next (hwoven : Woven segments) (hsegments : segments = before ++ segment :: after) {targetCol : Nat}
    (hmeets : segment.Meets after) (hfar : max 1 (glyphs.cells segment.text) ≤ targetCol) :
    ∃ offset, byteOffsetForVisual glyphs (content segments) (place glyphs 0 segments) before.length targetCol = some offset ∧
      cursorInWrapFor glyphs (content segments) (place glyphs 0 segments) offset = some (before.length + 1,0) := by
  obtain ⟨a,b,htext,hoffset,hle,-,hstop⟩ := @byteOffsetForVisual_spec glyphs _ _ _ _ hsegments targetCol
  have hb : b = [] := by
    cases b with
    | nil => rfl
    | cons ch b =>
      have hpast := hstop (by omega) ch rfl
      have hcells : glyphs.cells segment.text = glyphs.cells a + (glyphs.charCellWidth ch + glyphs.cells b) := by
        rw [htext,cells_append]
        simp [Glyphs.cells]
      omega
  subst hb
  rw [List.append_nil] at htext
  exact ⟨_,hoffset,htext ▸ hmeets.cursorInWrapFor hwoven hsegments⟩

/-! Rows and segments. -/

theorem getElem_place {i : Nat} {row : WrappedRow} (h : (place glyphs 0 segments)[i]? = some row) :
    ∃ before segment after, segments = before ++ segment :: after ∧ before.length = i ∧ row = segment.rowAfter glyphs (content before) := by
  have hlt : i < segments.length := by
    obtain ⟨hlt,-⟩ := List.getElem?_eq_some_iff.mp h
    rwa [length_place] at hlt
  have hsplit := (List.take_append_drop i segments).symm
  rw [List.drop_eq_getElem_cons hlt] at hsplit
  have hrow := @place_getElem glyphs [] (segments.take i) segments[i] (segments.drop (i + 1))
  simp only [List.nil_append,byteLen_nil,← hsplit,List.length_take,min_eq_left hlt.le] at hrow
  rw [h] at hrow
  exact ⟨_,_,_,hsplit,by rw [List.length_take,min_eq_left hlt.le],Option.some.inj hrow⟩

theorem getElem_rowAfter (hsegments : segments = before ++ segment :: after) :
    (place glyphs 0 segments)[before.length]? = some (segment.rowAfter glyphs (content before)) ∧
    (place glyphs 0 segments)[before.length + 1]? =
      after.head?.map fun next => next.rowAfter glyphs (content before ++ segment.gap ++ segment.text) := by
  have hrow := @place_getElem glyphs [] before segment after
  simp only [List.nil_append,byteLen_nil,← hsegments] at hrow
  refine ⟨hrow,?_⟩
  cases after with
  | nil =>
    apply List.getElem?_eq_none
    rw [length_place,hsegments,List.length_append]
    exact Nat.le_refl _
  | cons next after =>
    have hnext := @place_getElem glyphs [] (before ++ [segment]) next after
    rw [List.append_assoc,List.singleton_append,← hsegments] at hnext
    simpa using hnext

theorem rowAfter_meets {done : List Char} {next : Segment} :
    (segment.rowAfter glyphs done).Meets (next.rowAfter glyphs (done ++ segment.gap ++ segment.text)) ↔
      next.gap = [] ∧ segment.newline = false := by
  rw [WrappedRow.Meets,← byteLen_eq_zero]
  simp [Segment.rowAfter]

theorem rowAfter_range (hsegments : segments = before ++ segment :: after) :
    range (content segments) (segment.rowAfter glyphs (content before)).startByte (segment.rowAfter glyphs (content before)).endByte =
      some segment.text := by
  have hrange := range_append (content before ++ segment.gap) segment.text (content after)
  rw [hsegments,content_append,content_cons]
  rw [← byteLen_append] at hrange
  simpa [Segment.rowAfter] using hrange

theorem reach_rowAfter (hsegments : segments = before ++ segment :: after) :
    (segment.rowAfter glyphs (content before)).reach glyphs (content segments) (place glyphs 0 segments)[before.length + 1]? =
      segment.reach glyphs after := by
  rw [WrappedRow.reach,Segment.reach,rowAfter_range hsegments,(getElem_rowAfter hsegments).2]
  cases after with
  | nil => simp [Segment.rowAfter]
  | cons next after =>
    simp only [List.head?_cons,Option.map_some,Option.mem_def,Option.some.injEq,exists_eq_left',rowAfter_meets,Option.getD_some]
    rfl

/-- What is passed over between two rows. -/
theorem rowAfter_gap {next : Segment} (hsegments : segments = before ++ segment :: next :: rest) :
    range (content segments) (segment.rowAfter glyphs (content before)).endByte
      (next.rowAfter glyphs (content before ++ segment.gap ++ segment.text)).startByte = some next.gap := by
  have hrange := range_append (content before ++ segment.gap ++ segment.text) next.gap (next.text ++ content rest)
  rw [hsegments,content_append,content_cons,content_cons]
  rw [← byteLen_append] at hrange
  simpa [Segment.rowAfter] using hrange

/-- The cursor of a row, whose column the row reaches. -/
theorem Apart.position (h : Apart glyphs (content segments) (place glyphs 0 segments)) (hwoven : Woven segments)
    (hne : segments ≠ []) {cursor : Nat} (hcursor : Boundary (content segments) cursor) :
    ∃ before segment after col, segments = before ++ segment :: after ∧
      cursorInWrapFor glyphs (content segments) (place glyphs 0 segments) cursor = some (before.length,col) ∧
      col ≤ segment.reach glyphs after ∧
      ((∃ a b, InText segments before segment after a b ∧ cursor = byteLen (content before ++ segment.gap ++ a) ∧
          col = glyphs.cells a) ∨
        ∃ a b, InGap segments before segment after a b ∧ cursor = byteLen (content before ++ a) ∧ after = [] ∧ col = 0 ∧
          before ≠ [] ∧ 2 ≤ segment.gap.length) := by
  obtain ⟨rest,whole,hcontent,rfl⟩ := hcursor
  obtain ⟨before,segment,after,a,b,⟨hin,rfl,-⟩ | ⟨hin,rfl,-⟩⟩ := inText_or_inGap hwoven hne hcontent
  · exact ⟨before,segment,after,_,hin.segments,hin.cursorInWrapFor hwoven,hin.le_reach,Or.inl ⟨a,b,hin,rfl,rfl⟩⟩
  · have hsegments := hin.segments
    have hbefore : before ≠ [] := by
      rintro rfl
      have hzero := h.first (segment.rowAfter glyphs []) (by rw [hsegments,List.nil_append,← byteLen_nil,place_cons]; rfl)
      have hb := byteLen_pos hin.right
      simp [Segment.rowAfter,hin.gap] at hzero
      omega
    have ha : a ≠ [] := fun hnil => hbefore (hin.left hnil)
    obtain ⟨init,prev,rfl⟩ : ∃ init prev, before = init ++ [prev] :=
      ⟨before.dropLast,before.getLast hbefore,(List.dropLast_append_getLast hbefore).symm⟩
    have hprev : segments = init ++ prev :: segment :: after := by
      rw [hsegments]
      simp
    have hlong : 2 ≤ segment.gap.length := by
      rw [hin.gap,List.length_append]
      have hla := List.length_pos_of_ne_nil ha
      have hlb := List.length_pos_of_ne_nil hin.right
      omega
    obtain ⟨hrow,hnext⟩ := @getElem_rowAfter glyphs _ _ _ _ hprev
    obtain ⟨gap,hgap,hshort⟩ | ⟨hlast,hwidth⟩ := h.gap init.length _ _ hrow hnext
    · rw [rowAfter_gap hprev] at hgap
      cases hgap
      omega
    · have hafter : after = [] := by
        rw [length_place,hprev] at hlast
        simpa using hlast
      subst hafter
      have hposition := @InGap.cursorInWrapFor glyphs _ _ _ _ _ _ hin segment (by rw [hsegments]; simp)
      have hcells : glyphs.cells segment.text = 0 := hwidth
      rw [hcells] at hposition
      refine ⟨_,segment,[],0,hsegments,?_,Nat.zero_le _,Or.inr ⟨a,b,hin,rfl,rfl,rfl,hbefore,hlong⟩⟩
      rw [hposition,hsegments]
      simp

theorem Apart.names (h : Apart glyphs (content segments) (place glyphs 0 segments)) (hwoven : Woven segments)
    (hne : segments ≠ []) {cursor : Nat} (hcursor : Boundary (content segments) cursor) :
    ∃ i col row, cursorInWrapFor glyphs (content segments) (place glyphs 0 segments) cursor = some (i,col) ∧
      (place glyphs 0 segments)[i]? = some row ∧ (row.startByte ≤ cursor ∧ cursor ≤ row.endByte ∨
        ∃ j prev next gap, (place glyphs 0 segments)[j]? = some prev ∧ (place glyphs 0 segments)[j + 1]? = some next ∧
          range (content segments) prev.endByte next.startByte = some gap ∧ gap.all isWhitespace = true ∧ '\n' ∉ gap ∧
          prev.endByte < cursor ∧ cursor < next.startByte ∧ (i = j ∨ i = j + 1)) := by
  obtain ⟨before,segment,after,col,hsegments,hposition,-,hplace⟩ := h.position hwoven hne hcursor
  refine ⟨_,col,_,hposition,(getElem_rowAfter hsegments).1,?_⟩
  obtain ⟨a,b,hin,rfl,-⟩ | ⟨a,b,hin,rfl,rfl,-,hbefore,hlong⟩ := hplace
  · left
    simp only [Segment.rowAfter,hin.text,byteLen_append]
    omega
  · right
    obtain ⟨init,prev,rfl⟩ : ∃ init prev, before = init ++ [prev] :=
      ⟨before.dropLast,before.getLast hbefore,(List.dropLast_append_getLast hbefore).symm⟩
    have hprev : segments = init ++ prev :: segment :: [] := by
      rw [hsegments]
      simp
    have hlast : Woven [segment] := by
      rw [hsegments] at hwoven
      exact hwoven.drop
    obtain ⟨hrow,hnext⟩ := @getElem_rowAfter glyphs _ _ _ _ hprev
    have ha : a ≠ [] := fun hnil => hbefore (hin.left hnil)
    have hapos := byteLen_pos ha
    have hbpos := byteLen_pos hin.right
    obtain hnewline | ⟨hwhite,hline⟩ := hlast
    · rw [hnewline] at hlong
      cases hlong with
      | step hlong => cases hlong
    · refine ⟨init.length,_,_,segment.gap,hrow,hnext,rowAfter_gap hprev,hwhite,hline,?_,?_,Or.inr (by simp)⟩
      · simp only [Segment.rowAfter,content_append,content_cons,content_nil,byteLen_append,byteLen_nil]
        omega
      · simp only [Segment.rowAfter,content_append,content_cons,content_nil,byteLen_append,byteLen_nil,hin.gap]
        omega

theorem Apart.monotone (h : Apart glyphs (content segments) (place glyphs 0 segments)) (hwoven : Woven segments)
    (hne : segments ≠ []) {cursor cursor' i col i' col' : Nat} (hcursor : Boundary (content segments) cursor)
    (hcursor' : Boundary (content segments) cursor') (hle : cursor ≤ cursor')
    (hposition : cursorInWrapFor glyphs (content segments) (place glyphs 0 segments) cursor = some (i,col))
    (hposition' : cursorInWrapFor glyphs (content segments) (place glyphs 0 segments) cursor' = some (i',col')) :
    i < i' ∨ i = i' ∧ col ≤ col' := by
  obtain ⟨before,segment,after,_,hsegments,hfound,-,hplace⟩ := h.position hwoven hne hcursor
  obtain ⟨before',segment',after',_,hsegments',hfound',-,hplace'⟩ := h.position hwoven hne hcursor'
  rw [hposition] at hfound
  rw [hposition'] at hfound'
  cases hfound
  cases hfound'
  obtain hlt | heq | hgt := Nat.lt_trichotomy before.length before'.length
  · exact Or.inl hlt
  · right
    refine ⟨heq,?_⟩
    obtain ⟨rfl,htail⟩ := List.append_inj (hsegments.symm.trans hsegments') heq
    obtain ⟨rfl,rfl⟩ := List.cons_eq_cons.mp htail
    obtain ⟨a,b,hin,rfl,rfl⟩ | ⟨a,b,hin,rfl,rfl,rfl,-⟩ := hplace
    · obtain ⟨a',b',hin',rfl,rfl⟩ | ⟨a',b',hin',rfl,-⟩ := hplace'
      · obtain ⟨more,rfl,-⟩ | ⟨more,rfl,-⟩ := List.append_eq_append_iff.mp (hin.text.symm.trans hin'.text)
        · exact cells_mono (List.prefix_append _ _)
        · have hmore : more = [] := by
            rw [← byteLen_eq_zero]
            simp only [byteLen_append] at hle
            omega
          rw [hmore,List.append_nil]
      · have hbpos := byteLen_pos hin'.right
        simp only [byteLen_append,hin'.gap] at hle
        omega
    · exact Nat.zero_le _
  · -- the second cursor lies in an earlier row, so they are the same
    obtain ⟨more,rfl⟩ : ∃ more, before = before' ++ segment' :: more := by
      obtain ⟨more,hbefore,htail⟩ | ⟨more,hbefore,htail⟩ := List.append_eq_append_iff.mp (hsegments.symm.trans hsegments')
      · rw [hbefore,List.length_append] at hgt
        omega
      · cases more with
        | nil =>
          rw [hbefore,List.append_nil] at hgt
          omega
        | cons first more =>
          obtain ⟨rfl,-⟩ := List.cons_eq_cons.mp htail
          exact ⟨more,hbefore⟩
    have hlow : byteLen (content (before' ++ segment' :: more)) ≤ cursor := by
      obtain ⟨a,b,-,rfl,-⟩ | ⟨a,b,-,rfl,-⟩ := hplace <;> simp only [byteLen_append] <;> omega
    have hhigh : cursor' ≤ byteLen (content (before' ++ segment' :: more)) := by
      obtain ⟨a,b,hin,rfl,-⟩ | ⟨a,b,hin,rfl,-⟩ := hplace'
      · simp only [content_append,content_cons,byteLen_append,hin.text]
        omega
      · simp only [content_append,content_cons,byteLen_append,hin.gap]
        omega
    obtain rfl : cursor = cursor' := by omega
    rw [hposition] at hposition'
    have hsame := congrArg Prod.fst (Option.some.inj hposition')
    simp only [List.length_append,List.length_cons] at hsame hgt
    omega

/-- A row that contains a cursor leaves it to another row at most. -/
theorem coveringRow_isSome {rows : List WrappedRow} {cursor : Nat} (hrows : ∀ row ∈ rows, row.startByte ≤ row.endByte)
    {row : WrappedRow} (hrow : row ∈ rows) (hcovers : row.startByte ≤ cursor ∧ cursor ≤ row.endByte) :
    coveringRow cursor rows ≠ none := by
  induction rows generalizing row with
  | nil => cases hrow
  | cons first rest ih =>
    obtain ⟨-,hrest⟩ := List.forall_mem_cons.mp hrows
    rw [Tui.coveringRow]
    split
    · simp
    · next hnot =>
      rw [ne_eq,Option.map_eq_none_iff]
      obtain rfl | hmem := List.mem_cons.mp hrow
      · cases rest with
        | nil => simp [hcovers] at hnot
        | cons next rest =>
          have hnext : next.startByte = cursor := by
            by_contra hne
            exact hnot ⟨hcovers.1,hcovers.2,by simp [hne]⟩
          have hle := hrest next List.mem_cons_self
          exact ih hrest List.mem_cons_self (by omega)
      · exact ih hrest hmem hcovers

/-- The column of a cursor leads back to it where no zero-width character is beside it. -/
theorem InText.offset (h : InText segments before segment after a b)
    (ha : ∀ ch ∈ a.getLast?, 0 < glyphs.charCellWidth ch) (hb : ∀ ch ∈ b.head?, 0 < glyphs.charCellWidth ch) :
    byteOffsetForVisual glyphs (content segments) (place glyphs 0 segments) before.length (glyphs.cells a) =
      some (byteLen (content before ++ segment.gap ++ a)) := by
  obtain ⟨a',b',htext,hoffset,hle,hzero,hstop⟩ := @byteOffsetForVisual_spec glyphs _ _ _ _ h.segments (glyphs.cells a)
  rw [hoffset]
  have hcons (ch : Char) (cs : List Char) : glyphs.cells (ch :: cs) = glyphs.charCellWidth ch + glyphs.cells cs := by
    simp [Glyphs.cells]
  have hwide {ch : Char} {init : List Char} (heq : a = init ++ [ch]) : 0 < glyphs.cells a := by
    have hch := ha ch (by rw [heq]; simp)
    rw [heq,cells_append,cells_singleton]
    omega
  obtain ⟨more,rfl,hmore⟩ | ⟨more,rfl,hmore⟩ := List.append_eq_append_iff.mp (h.text.symm.trans htext)
  · cases more with
    | nil => rw [List.append_nil]
    | cons ch more =>
      have hch := hb ch (by rw [hmore]; rfl)
      rw [cells_append,hcons] at hle
      omega
  · cases more with
    | nil => rw [List.append_nil]
    | cons ch more =>
      have hpos : 0 < glyphs.cells (a' ++ ch :: more) := by
        obtain ⟨init,last,heq⟩ : ∃ init last, ch :: more = init ++ [last] :=
          ⟨(ch :: more).dropLast,(ch :: more).getLast (by simp),(List.dropLast_append_getLast (by simp)).symm⟩
        have hsplit : a' ++ ch :: more = a' ++ init ++ [last] := by rw [heq,List.append_assoc]
        exact hwide hsplit
      have hpast := hstop (by omega) ch (by rw [hmore]; rfl)
      rw [cells_append,hcons] at hpast
      omega

theorem Apart.inverse (h : Apart glyphs (content segments) (place glyphs 0 segments)) (hwoven : Woven segments)
    {whole rest : List Char} {row : WrappedRow} (hcontent : content segments = whole ++ rest)
    (hrow : row ∈ place glyphs 0 segments) (hstart : row.startByte ≤ byteLen whole) (hend : byteLen whole ≤ row.endByte)
    (hbefore : ∀ ch ∈ whole.getLast?, 0 < glyphs.charCellWidth ch) (hafter : ∀ ch ∈ rest.head?, 0 < glyphs.charCellWidth ch) :
    ∃ i col, cursorInWrapFor glyphs (content segments) (place glyphs 0 segments) (byteLen whole) = some (i,col) ∧
      byteOffsetForVisual glyphs (content segments) (place glyphs 0 segments) i col = some (byteLen whole) := by
  have hne : segments ≠ [] := by
    rintro rfl
    cases hrow
  obtain ⟨before,segment,after,a,b,⟨hin,rfl,rfl⟩ | ⟨hin,rfl,-⟩⟩ := inText_or_inGap hwoven hne hcontent
  · refine ⟨_,_,hin.cursorInWrapFor hwoven,hin.offset (fun ch hch => ?_) fun ch hch => ?_⟩
    · apply hbefore
      rw [List.getLast?_append,Option.mem_def.mp hch]
      rfl
    · apply hafter
      rw [List.head?_append,Option.mem_def.mp hch]
      rfl
  · have hnone := @InGap.coveringRow glyphs _ _ _ _ _ _ hin []
    simp only [List.nil_append,byteLen_nil] at hnone
    exact absurd hnone (coveringRow_isSome (fun row hrow => (boundary_of_mem_place hrow).2.2) hrow ⟨hstart,hend⟩)

/-! Moves. -/

@[simp] theorem updateSelectionAnchor_lastValue (state : TextInputState) (extend : Bool) :
    (state.updateSelectionAnchor extend).lastValue = state.lastValue := by
  unfold TextInputState.updateSelectionAnchor
  split <;> rfl

@[simp] theorem updateSelectionAnchor_cursor (state : TextInputState) (extend : Bool) :
    (state.updateSelectionAnchor extend).cursor = state.cursor := by
  unfold TextInputState.updateSelectionAnchor
  split <;> rfl

@[simp] theorem updateSelectionAnchor_viewportWidth (state : TextInputState) (extend : Bool) :
    (state.updateSelectionAnchor extend).viewportWidth = state.viewportWidth := by
  unfold TextInputState.updateSelectionAnchor
  split <;> rfl

section
variable {state : TextInputState} {rows : List WrappedRow} {i col : Nat}

theorem moveUp_eq (hwidth : 0 < state.viewportWidth) (hrows : wrapValue glyphs state.lastValue state.viewportWidth = some rows)
    (hcursor : cursorInWrapFor glyphs state.lastValue rows state.cursor = some (i,col)) (extend : Bool) :
    state.moveUp glyphs extend =
      if i = 0 then some (state.updateSelectionAnchor extend,.default)
      else (byteOffsetForVisual glyphs state.lastValue rows (i - 1) col).map fun cursor =>
        (state.updateSelectionAnchor extend).moveTo cursor extend := by
  unfold TextInputState.moveUp
  simp only [updateSelectionAnchor_lastValue,updateSelectionAnchor_viewportWidth,updateSelectionAnchor_cursor,hwidth,if_true,hrows,
    hcursor,Option.bind_eq_bind,Option.bind_some,Option.map_eq_bind]
  rfl

theorem moveDown_eq (hwidth : 0 < state.viewportWidth) (hrows : wrapValue glyphs state.lastValue state.viewportWidth = some rows)
    (hcursor : cursorInWrapFor glyphs state.lastValue rows state.cursor = some (i,col)) (extend : Bool) :
    state.moveDown glyphs extend =
      if rows.length ≤ i + 1 then some (state.updateSelectionAnchor extend,.default)
      else (byteOffsetForVisual glyphs state.lastValue rows (i + 1) col).map fun cursor =>
        (state.updateSelectionAnchor extend).moveTo cursor extend := by
  unfold TextInputState.moveDown
  simp only [updateSelectionAnchor_lastValue,updateSelectionAnchor_viewportWidth,updateSelectionAnchor_cursor,hwidth,if_true,hrows,
    hcursor,Option.bind_eq_bind,Option.bind_some,Option.map_eq_bind]
  rfl

/-- A move down lands in the row below, if its end is kept or not reached. -/
theorem moveDown_lands (hwoven : Woven (before ++ segment :: rest)) (hwidth : 0 < state.viewportWidth)
    (hvalue : state.lastValue = content (before ++ segment :: rest))
    (hrows : wrapValue glyphs state.lastValue state.viewportWidth = some (place glyphs 0 (before ++ segment :: rest)))
    (hcursor : cursorInWrapFor glyphs state.lastValue (place glyphs 0 (before ++ segment :: rest)) state.cursor =
      some (before.length,col))
    (hroom : ∀ next after, rest = next :: after → next.Meets after → col < max 1 (glyphs.cells next.text)) (extend : Bool) :
    ∃ down outcome col', state.moveDown glyphs extend = some (down,outcome) ∧
      cursorInWrapFor glyphs state.lastValue (place glyphs 0 (before ++ segment :: rest)) down.cursor =
        some (min (before.length + 1) ((place glyphs 0 (before ++ segment :: rest)).length - 1),col') := by
  rw [moveDown_eq hwidth hrows hcursor]
  have hlen : (place glyphs 0 (before ++ segment :: rest)).length = before.length + (rest.length + 1) := by simp
  cases rest with
  | nil =>
    rw [if_pos (by rw [hlen]; simp)]
    refine ⟨_,_,col,rfl,?_⟩
    rw [updateSelectionAnchor_cursor,hcursor,hlen]
    simp
  | cons next after =>
    rw [if_neg (by rw [hlen]; simp)]
    have hsegments : before ++ segment :: next :: after = (before ++ [segment]) ++ next :: after := by simp
    obtain ⟨offset,col',hoffset,hposition,-⟩ := @landing glyphs _ _ _ _ hwoven hsegments col (hroom next after rfl)
    simp only [List.length_append,List.length_singleton,← hvalue] at hoffset hposition
    rw [hoffset]
    refine ⟨_,_,col',rfl,hposition.trans ?_⟩
    rw [hlen,List.length_cons]
    congr 2
    omega

theorem moveUp_lands {prev : Segment} (hwoven : Woven (before ++ prev :: segment :: rest)) (hwidth : 0 < state.viewportWidth)
    (hvalue : state.lastValue = content (before ++ prev :: segment :: rest))
    (hrows : wrapValue glyphs state.lastValue state.viewportWidth = some (place glyphs 0 (before ++ prev :: segment :: rest)))
    (hcursor : cursorInWrapFor glyphs state.lastValue (place glyphs 0 (before ++ prev :: segment :: rest)) state.cursor =
      some (before.length + 1,col))
    (hroom : prev.Meets (segment :: rest) → col < max 1 (glyphs.cells prev.text)) (extend : Bool) :
    ∃ up outcome col', state.moveUp glyphs extend = some (up,outcome) ∧ up.lastValue = state.lastValue ∧
      up.viewportWidth = state.viewportWidth ∧ cursorInWrapFor glyphs state.lastValue
        (place glyphs 0 (before ++ prev :: segment :: rest)) up.cursor = some (before.length,col') ∧
      col' ≤ prev.reach glyphs (segment :: rest) := by
  obtain ⟨offset,col',hoffset,hposition,hreach⟩ := @landing glyphs _ _ _ _ hwoven rfl col hroom
  rw [← hvalue] at hoffset hposition
  rw [moveUp_eq hwidth hrows hcursor,if_neg (Nat.succ_ne_zero _),Nat.add_sub_cancel,hoffset]
  exact ⟨_,_,col',rfl,updateSelectionAnchor_lastValue state extend,updateSelectionAnchor_viewportWidth state extend,hposition,hreach⟩

end

/-- What `Apart` says of two segments in a row. -/
theorem Apart.up_segment (h : Apart glyphs (content segments) (place glyphs 0 segments)) {prev : Segment}
    (hsegments : segments = before ++ prev :: segment :: after) (hmeets : prev.Meets (segment :: after)) :
    segment.reach glyphs after < max 1 (glyphs.cells prev.text) := by
  obtain ⟨hrow,hnext⟩ := @getElem_rowAfter glyphs _ _ _ _ hsegments
  obtain ⟨next,hhead,hmeets⟩ := hmeets
  obtain rfl := Option.mem_some_iff.mp hhead
  have hsplit : segments = (before ++ [prev]) ++ segment :: after := by
    rw [hsegments]
    simp
  have hreach := @reach_rowAfter glyphs _ _ _ _ hsplit
  have hlt := h.up before.length _ _ hrow hnext (rowAfter_meets.mpr hmeets)
  rw [content_append,content_cons,content_nil,List.append_nil,← List.append_assoc,List.length_append,List.length_singleton] at hreach
  rw [hreach] at hlt
  exact hlt

theorem Apart.down_segment (h : Apart glyphs (content segments) (place glyphs 0 segments)) {prev : Segment}
    (hsegments : segments = before ++ prev :: segment :: after) (hmeets : segment.Meets after) :
    prev.reach glyphs (segment :: after) < max 1 (glyphs.cells segment.text) := by
  obtain ⟨hrow,hnext⟩ := @getElem_rowAfter glyphs _ _ _ _ hsegments
  obtain ⟨next,hhead,hmeets⟩ := hmeets
  have hsplit : segments = (before ++ [prev]) ++ segment :: after := by
    rw [hsegments]
    simp
  obtain ⟨-,hlast⟩ := @getElem_rowAfter glyphs _ _ _ _ hsplit
  rw [content_append,content_cons,content_nil,List.append_nil,← List.append_assoc,List.length_append,List.length_singleton,
    Option.mem_def.mp hhead] at hlast
  have hreach := @reach_rowAfter glyphs _ _ _ _ hsegments
  rw [hnext] at hreach
  have hlt := h.down before.length _ _ _ hrow hnext hlast (rowAfter_meets.mpr hmeets)
  exact hreach ▸ hlt

theorem Apart.moves (h : Apart glyphs (content segments) (place glyphs 0 segments)) (hwoven : Woven segments)
    (hne : segments ≠ []) {state : TextInputState} {i col : Nat} (hwidth : 0 < state.viewportWidth)
    (hvalue : state.lastValue = content segments)
    (hrows : wrapValue glyphs state.lastValue state.viewportWidth = some (place glyphs 0 segments))
    (hboundary : Boundary state.lastValue state.cursor)
    (hcursor : cursorInWrapFor glyphs state.lastValue (place glyphs 0 segments) state.cursor = some (i,col)) (extend : Bool) :
    (∃ up outcome col', state.moveUp glyphs extend = some (up,outcome) ∧
      cursorInWrapFor glyphs state.lastValue (place glyphs 0 segments) up.cursor = some (i - 1,col') ∧
      (0 < i → ∃ down outcome' col'', up.moveDown glyphs extend = some (down,outcome') ∧
        cursorInWrapFor glyphs state.lastValue (place glyphs 0 segments) down.cursor = some (i,col''))) ∧
    ∃ down outcome col', state.moveDown glyphs extend = some (down,outcome) ∧
      cursorInWrapFor glyphs state.lastValue (place glyphs 0 segments) down.cursor =
        some (min (i + 1) ((place glyphs 0 segments).length - 1),col') := by
  rw [hvalue] at hboundary
  obtain ⟨before,segment,after,_,hsegments,hposition,hcol,-⟩ := h.position hwoven hne hboundary
  rw [← hvalue,hcursor] at hposition
  cases hposition
  constructor
  · obtain rfl | ⟨init,prev,rfl⟩ : before = [] ∨ ∃ init prev, before = init ++ [prev] := by
      by_cases hnil : before = []
      · exact Or.inl hnil
      · exact Or.inr ⟨before.dropLast,before.getLast hnil,(List.dropLast_append_getLast hnil).symm⟩
    · rw [moveUp_eq hwidth hrows hcursor]
      refine ⟨_,_,col,rfl,?_,fun hpos => absurd hpos (Nat.lt_irrefl 0)⟩
      rw [updateSelectionAnchor_cursor]
      exact hcursor
    · obtain rfl : segments = init ++ prev :: segment :: after := by
        rw [hsegments]
        simp
      have hlen : (init ++ [prev]).length = init.length + 1 := by simp
      rw [hlen] at hcursor ⊢
      obtain ⟨up,outcome,col',hup,hupValue,hupWidth,hupCursor,hcol'⟩ := moveUp_lands hwoven hwidth hvalue hrows hcursor
        (fun hmeets => hcol.trans_lt (h.up_segment rfl hmeets)) extend
      refine ⟨up,outcome,col',hup,hupCursor,fun _ => ?_⟩
      rw [← hupValue] at hupCursor
      have hback : ∀ next rest, segment :: after = next :: rest → next.Meets rest → col' < max 1 (glyphs.cells next.text) := by
        intro next rest heq hmeets
        obtain ⟨rfl,rfl⟩ := List.cons_eq_cons.mp heq
        exact hcol'.trans_lt (h.down_segment rfl hmeets)
      obtain ⟨down,outcome',col'',hdown,hdownCursor⟩ := @moveDown_lands glyphs (segment :: after) prev init up col' hwoven (hupWidth ▸ hwidth)
        (hupValue.trans hvalue) (by rw [hupValue,hupWidth]; exact hrows) hupCursor hback extend
      refine ⟨down,outcome',col'',hdown,?_⟩
      rw [hupValue] at hdownCursor
      rw [hdownCursor]
      simp
  · subst hsegments
    apply moveDown_lands hwoven hwidth hvalue hrows hcursor
    intro next rest heq hmeets
    subst heq
    exact hcol.trans_lt (h.down_segment rfl hmeets)

theorem Apart.toInverse {value : List Char} (h : Apart glyphs value (place glyphs 0 segments)) (hwoven : Woven segments)
    (hne : segments ≠ []) (hcontent : content segments = value) (hlimit : 1 ≤ limit)
    (hrows : wrapValue glyphs value limit = some (place glyphs 0 segments)) :
    Inverse glyphs value limit (place glyphs 0 segments) := by
  subst hcontent
  refine ⟨fun cursor hcursor => h.names hwoven hne hcursor,fun cursor cursor' i col i' col' hcursor hcursor' hle hposition hposition' =>
    h.monotone hwoven hne hcursor hcursor' hle hposition hposition',fun whole rest row hvalue hrow hstart hend hbefore hafter =>
    h.inverse hwoven hvalue hrow hstart hend hbefore hafter,fun state hvalue hwidth hboundary extend i col hcursor => ?_⟩
  rw [← hvalue] at hcursor hboundary ⊢
  exact h.moves hwoven hne (by omega) hvalue (by rw [hvalue,hwidth]; exact hrows) hboundary hcursor extend

/-- A state with the cursor at an offset. -/
def stateAt (value : List Char) (width cursor : Nat) : TextInputState :=
  { TextInputState.default with lastValue := value, viewportWidth := width, cursor := cursor }

theorem InText.boundary {a b : List Char} (h : InText segments before segment after a b) :
    Boundary (content segments) (byteLen (content before ++ segment.gap ++ a)) := by
  refine ⟨b ++ content after,_,?_,rfl⟩
  rw [h.segments,content_append,content_cons,h.text]
  simp

theorem Inverse.toApart {value : List Char} (h : Inverse glyphs value limit (place glyphs 0 segments)) (hwoven : Woven segments)
    (hcontent : content segments = value) (hlimit : 1 ≤ limit)
    (hrows : wrapValue glyphs value limit = some (place glyphs 0 segments)) :
    Apart glyphs value (place glyphs 0 segments) := by
  subst hcontent
  refine ⟨?_,?_,?_,?_⟩
  · intro row hrow
    cases segments with
    | nil => cases hrow
    | cons segment rest =>
      rw [← byteLen_nil,place_cons] at hrow
      obtain rfl := Option.mem_some_iff.mp hrow
      by_contra hne
      have hstart : ∀ row ∈ place glyphs 0 (segment :: rest), 0 < row.startByte := by
        intro row hrow
        obtain ⟨before,found,after,hsplit,hstart,-⟩ := mem_place hrow
        have hpos : 0 < byteLen segment.gap := by
          rw [Nat.pos_iff_ne_zero]
          simpa [Segment.rowAfter] using hne
        rw [hstart]
        cases before with
        | nil =>
          obtain ⟨rfl,-⟩ := List.cons_eq_cons.mp hsplit
          omega
        | cons first before =>
          obtain ⟨rfl,-⟩ := List.cons_eq_cons.mp hsplit
          simp only [content_cons,byteLen_append]
          omega
      obtain ⟨i,col,row,-,hrow,⟨hle,-⟩ | ⟨_,_,_,_,_,_,_,_,_,hlt,_⟩⟩ := h.names 0 (boundary_zero _)
      · have hpos := hstart row (List.mem_of_getElem? hrow)
        omega
      · omega
  · intro i row next hrow hnext
    obtain ⟨before,segment,after,hsegments,rfl,rfl⟩ := getElem_place hrow
    rw [(getElem_rowAfter hsegments).2] at hnext
    cases after with
    | nil => cases hnext
    | cons below after =>
      cases hnext
      have hsplit : segments = (before ++ [segment]) ++ below :: after := by
        rw [hsegments]
        simp
      by_cases hshort : below.gap.length ≤ 1
      · exact Or.inl ⟨_,rowAfter_gap hsegments,hshort⟩
      · right
        obtain ⟨first,second,more,hgap⟩ : ∃ first second more, below.gap = first :: second :: more := by
          cases hgap : below.gap with
          | nil => simp [hgap] at hshort
          | cons first gap =>
            cases gap with
            | nil => simp [hgap] at hshort
            | cons second more => exact ⟨first,second,more,rfl⟩
        have hin : InGap segments (before ++ [segment]) below after [first] (second :: more) := ⟨hsplit,hgap,by simp,by simp⟩
        have htext : InText segments (before ++ [segment]) below after [] below.text :=
          ⟨hsplit,rfl,(hsplit ▸ hwoven).drop.not_meets⟩
        obtain ⟨last,hlast⟩ : ∃ last, segments.getLast? = some last :=
          Option.isSome_iff_exists.mp (List.getLast?_isSome.mpr (by rw [hsplit]; simp))
        have hboundary : Boundary (content segments) (byteLen (content (before ++ [segment]) ++ [first])) := by
          refine ⟨second :: more ++ below.text ++ content after,_,?_,rfl⟩
          rw [hsplit,content_append (before ++ [segment]),content_cons,hgap]
          simp
        have hmonotone := h.monotone _ _ _ _ _ _ hboundary htext.boundary (by rw [hgap]; simp)
          (hin.cursorInWrapFor hlast) (htext.cursorInWrapFor hwoven)
        have hlen : segments.length = before.length + 2 + after.length := by
          rw [hsegments,List.length_append,List.length_cons,List.length_cons]
          omega
        rw [List.length_append,List.length_singleton,hlen] at hmonotone
        have hafter : after = [] := List.length_eq_zero_iff.mp (by omega)
        subst hafter
        rw [hsplit,List.getLast?_append] at hlast
        obtain rfl : below = last := by simpa using hlast
        refine ⟨by rw [length_place,hlen]; rfl,?_⟩
        have hcells : glyphs.cells below.text = 0 := by simpa using hmonotone
        exact hcells
  · intro i row next hrow hnext hmeets
    obtain ⟨before,prev,after,hsegments,rfl,rfl⟩ := getElem_place hrow
    rw [(getElem_rowAfter hsegments).2] at hnext
    cases after with
    | nil => cases hnext
    | cons segment after =>
      cases hnext
      have hsplit : segments = (before ++ [prev]) ++ segment :: after := by
        rw [hsegments]
        simp
      have hlen : (before ++ [prev]).length = before.length + 1 := by simp
      have hreach := @reach_rowAfter glyphs _ _ _ _ hsplit
      rw [content_append,content_cons,content_nil,List.append_nil,← List.append_assoc,hlen] at hreach
      rw [hreach]
      by_contra hnot
      obtain ⟨a,b,hin,hcells⟩ := @exists_reach glyphs _ _ _ _ hwoven hsplit
      have hcursor := @InText.cursorInWrapFor glyphs _ _ _ _ _ _ hin hwoven
      rw [hcells,hlen] at hcursor
      obtain ⟨⟨up,outcome,col,hup,hposition,-⟩,-⟩ := h.moves (stateAt (content segments) limit _) rfl rfl hin.boundary false _ _ hcursor
      obtain ⟨offset,hoffset,hnext⟩ := landing_next hwoven hsegments ⟨segment,rfl,rowAfter_meets.mp hmeets⟩ (not_lt.mp hnot)
      rw [@moveUp_eq glyphs (stateAt (content segments) limit _) _ _ _ hlimit hrows hcursor,if_neg (Nat.succ_ne_zero _),
        Nat.add_sub_cancel] at hup
      change (byteOffsetForVisual glyphs (content segments) (place glyphs 0 segments) before.length _).map _ = _ at hup
      rw [hoffset] at hup
      cases hup
      have hsame := hnext.symm.trans hposition
      simp at hsame
  · intro i prevRow row next hprev hrow hnext hmeets
    obtain ⟨before,prev,after,hsegments,rfl,rfl⟩ := getElem_place hprev
    have hreach := @reach_rowAfter glyphs _ _ _ _ hsegments
    rw [hrow] at hreach
    rw [hreach]
    rw [(getElem_rowAfter hsegments).2] at hrow
    cases after with
    | nil => cases hrow
    | cons segment after =>
      cases hrow
      have hsplit : segments = (before ++ [prev]) ++ segment :: after := by
        rw [hsegments]
        simp
      have hlen : (before ++ [prev]).length = before.length + 1 := by simp
      have hlast := (@getElem_rowAfter glyphs _ _ _ _ hsplit).2
      rw [hlen,hnext] at hlast
      cases after with
      | nil => cases hlast
      | cons below after =>
        cases hlast
        by_contra hnot
        obtain ⟨a,b,hin,hcells⟩ := @exists_reach glyphs _ _ _ _ hwoven hsegments
        have hcursor := @InText.cursorInWrapFor glyphs _ _ _ _ _ _ hin hwoven
        rw [hcells] at hcursor
        have hcount : (place glyphs 0 segments).length = before.length + (after.length + 3) := by
          rw [length_place,hsegments]
          simp
        obtain ⟨-,down,outcome,col,hdown,hposition⟩ := h.moves (stateAt (content segments) limit _) rfl rfl hin.boundary false _ _ hcursor
        have hbelow : segment.Meets (below :: after) := by
          refine ⟨below,rfl,?_⟩
          rw [content_append,content_cons,content_nil,List.append_nil,← List.append_assoc] at hmeets
          exact rowAfter_meets.mp hmeets
        obtain ⟨offset,hoffset,hafter⟩ := landing_next hwoven hsplit hbelow (not_lt.mp hnot)
        rw [hlen] at hoffset hafter
        rw [@moveDown_eq glyphs (stateAt (content segments) limit _) _ _ _ hlimit hrows hcursor,if_neg (by rw [hcount]; omega)] at hdown
        change (byteOffsetForVisual glyphs (content segments) (place glyphs 0 segments) (before.length + 1) _).map _ = _ at hdown
        rw [hoffset] at hdown
        cases hdown
        have hsame := congrArg Prod.fst (Option.some.inj (hafter.symm.trans hposition))
        rw [hcount] at hsame
        simp only at hsame
        omega

/-- In the rows of a wrapped value, offsets and visual positions are inverse and moves go to the adjacent row, if and
only if at most one character is passed over before each row (but an empty last one), and no row that meets the next
one is shorter than a row beside it can send a cursor. -/
theorem wrapValue_inverse (glyphs : Glyphs) (value : List Char) (width : Nat) (hwidth : 1 ≤ width) :
    ∃ rows, wrapValue glyphs value width = some rows ∧ (Inverse glyphs value width rows ↔ Apart glyphs value rows) := by
  obtain ⟨hrows,hcontent⟩ := @wrapValue_eq glyphs width value (by omega)
  have hwoven := @valueSegments_woven glyphs width [] [] value List.not_mem_nil (Or.inl rfl)
  rw [withGap_nil] at hwoven
  exact ⟨_,hrows,fun h => h.toApart hwoven hcontent hwidth hrows,fun h =>
    h.toInverse hwoven (valueSegments_ne_nil [] value) hcontent hwidth hrows⟩

/-- Two words with one space between them. -/
theorem wrapValue_inverse_words : ∃ rows, wrapValue ⟨fun _ => 1,fun _ => true⟩ ['a','b',' ','c','d'] 2 = some rows ∧
    Inverse ⟨fun _ => 1,fun _ => true⟩ ['a','b',' ','c','d'] 2 rows := by
  obtain ⟨rows,hrows,hiff⟩ := wrapValue_inverse ⟨fun _ => 1,fun _ => true⟩ ['a','b',' ','c','d'] 2 (by decide)
  refine ⟨rows,hrows,hiff.mpr ?_⟩
  have heq : wrapValue ⟨fun _ => 1,fun _ => true⟩ ['a','b',' ','c','d'] 2 = some [⟨0,2,2,false⟩,⟨3,5,2,false⟩] := by decide
  rw [heq] at hrows
  cases hrows
  refine ⟨fun row hrow => ?_,fun i row next hrow hnext => ?_,fun i row next hrow hnext hmeets => ?_,
    fun i prev row next hprev hrow hnext => ?_⟩
  · cases hrow
    rfl
  · cases i with
    | zero =>
      cases hrow
      cases hnext
      exact Or.inl ⟨[' '],by decide,Nat.le_refl 1⟩
    | succ i => cases hnext
  · cases i with
    | zero =>
      cases hrow
      cases hnext
      cases hmeets.1
    | succ i => cases hnext
  · cases hnext

/-- Two spaces are dropped before the second of three rows; a cursor between them is shown in the third. -/
theorem wrapValue_inverse_fails : ¬ ∀ glyphs value width, 1 ≤ width →
    ∃ rows, wrapValue glyphs value width = some rows ∧ Inverse glyphs value width rows := by
  intro h
  obtain ⟨rows,hrows,hinverse⟩ := h ⟨fun _ => 1,fun _ => true⟩ ['a','b','c',' ',' ','d','e',' ','f','g','h'] 3 (by decide)
  have heq : wrapValue ⟨fun _ => 1,fun _ => true⟩ ['a','b','c',' ',' ','d','e',' ','f','g','h'] 3 =
      some [⟨0,3,3,false⟩,⟨5,8,3,false⟩,⟨8,11,3,false⟩] := by decide
  rw [heq] at hrows
  cases hrows
  have hboundary (pos : Nat) (hpos : isCharBoundary ['a','b','c',' ',' ','d','e',' ','f','g','h'] pos = true) :=
    isCharBoundary_iff.mp hpos
  have hmonotone := hinverse.monotone 4 5 2 3 1 0 (hboundary 4 (by decide)) (hboundary 5 (by decide)) (by decide) (by decide) (by decide)
  omega

end

end Nefor.Tui
