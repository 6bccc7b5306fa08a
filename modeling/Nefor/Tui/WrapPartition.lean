import Nefor.Tui.WrapRows

/-! Soft wrapping as a partition of the value, and when it is one. -/
namespace Nefor.Tui
open SourceText
open ToolGate (isWhitespace)

/-- Nothing of its line comes after the row. -/
def EndsLine (value : List Char) (row : WrappedRow) : Prop :=
  row.terminatedByNewline = true ∨ row.endByte = byteLen value

/-- What may lie between a row and the next one: a newline that ends the first, or nothing but white characters of
one line. The next one is empty only where it is all of its line, or where white characters were dropped. -/
structure Link (value : List Char) (row next : WrappedRow) : Prop where
  gap : ∃ gap, range value row.endByte next.startByte = some gap ∧ (row.terminatedByNewline = true ↔ gap = ['\n']) ∧
    (row.terminatedByNewline = false → gap.all isWhitespace = true ∧ '\n' ∉ gap)
  empty : next.startByte = next.endByte →
    if row.terminatedByNewline then EndsLine value next else row.endByte < next.startByte

/-- Rows that partition a value, and fit into the width. -/
structure Partitions (glyphs : Glyphs) (value : List Char) (width : Nat) (rows : List WrappedRow) : Prop where
  /-- Every row lies on boundaries, has the width of what it shows and fits, unless it is a single character. -/
  fits : ∀ row ∈ rows, ∃ slice, range value row.startByte row.endByte = some slice ∧ row.width = glyphs.cells slice ∧
    (row.width ≤ width ∨ slice.length = 1)
  links : rows.IsChain (Link value)
  first : ∀ row ∈ rows.head?, row.startByte = 0 ∧ (row.startByte = row.endByte → EndsLine value row)
  last : ∀ row ∈ rows.getLast?, ∃ rest, range value row.endByte (byteLen value) = some rest ∧
    rest.all isWhitespace = true ∧ '\n' ∉ rest

/-- Rows are filled with the runs of a line one after the other. A run that is wider than the limit must not meet
a word that is already in its row, must not push anything but dropped white characters out of its row, and must
not be the last of its line. `bol` says that the row began with the line, `dropped` that it began after white
characters that were dropped, and `row` is what is in it. -/
def Packs (glyphs : Glyphs) (limit : Nat) : (bol dropped : Bool) → List Char → List (List Char) → Prop
  | bol, dropped, row, [] => row = [] → bol = true ∨ dropped = true
  | bol, dropped, row, run :: rest =>
    if glyphs.cells row = 0 ∧ limit < glyphs.cells run then
      (if bol then row = [] else row.all isWhitespace = true) ∧ Packs glyphs limit false false [] rest
    else if limit < glyphs.cells row + glyphs.cells run then
      if run.all isWhitespace then Packs glyphs limit false true [] rest
      else (glyphs.cells run ≤ limit ∨ run.length = 1) ∧ Packs glyphs limit false false run rest
    else Packs glyphs limit bol dropped (row ++ run) rest

instance (glyphs : Glyphs) (limit : Nat) : (bol dropped : Bool) → (row : List Char) → (runs : List (List Char)) →
    Decidable (Packs glyphs limit bol dropped row runs)
  | bol, dropped, row, [] => inferInstanceAs (Decidable (row = [] → bol = true ∨ dropped = true))
  | bol, dropped, row, run :: rest =>
    have _ (bol dropped : Bool) (row : List Char) := instDecidablePacks glyphs limit bol dropped row rest
    inferInstanceAs (Decidable (if glyphs.cells row = 0 ∧ limit < glyphs.cells run then
        (if bol then row = [] else row.all isWhitespace = true) ∧ Packs glyphs limit false false [] rest
      else if limit < glyphs.cells row + glyphs.cells run then
        if run.all isWhitespace then Packs glyphs limit false true [] rest
        else (glyphs.cells run ≤ limit ∨ run.length = 1) ∧ Packs glyphs limit false false run rest
      else Packs glyphs limit bol dropped (row ++ run) rest))

/-- How a segment may begin: `base` is what must be passed over before it at the beginning of a line. -/
def Opens (base : Option (List Char)) (segment : Segment) (rest : List Segment) : Prop :=
  match base with
  | some expected => segment.gap = expected ∧ (segment.text = [] → segment.newline = true ∨ content rest = [])
  | none => segment.gap.all isWhitespace = true ∧ '\n' ∉ segment.gap ∧ (segment.text = [] → segment.gap ≠ [])

/-- The partition, in terms of segments. -/
def Sound (glyphs : Glyphs) (limit : Nat) : Option (List Char) → List Segment → Prop
  | _, [] => True
  | base, segment :: rest =>
    Opens base segment rest ∧ (glyphs.cells segment.text ≤ limit ∨ segment.text.length = 1) ∧
    Sound glyphs limit (if segment.newline then some ['\n'] else none) rest

variable {glyphs : Glyphs} {limit : Nat} {row run line gap : List Char} {newline : Bool} {segments : List Segment}

@[simp] theorem withGap_nil (segments : List Segment) : withGap [] segments = segments := by
  cases segments <;> rfl

theorem withGap_withGap (a b : List Char) : withGap a (withGap b segments) = withGap (a ++ b) segments := by
  cases segments with
  | nil => rfl
  | cons segment rest => simp [withGap]

theorem withGap_append (gap : List Char) (h : segments ≠ []) (rest : List Segment) :
    withGap gap (segments ++ rest) = withGap gap segments ++ rest := by
  cases segments with
  | nil => exact absurd rfl h
  | cons segment more => rfl

/-- The pieces of a run fit. -/
theorem charRows_fit (hrow : glyphs.cells row ≤ limit ∨ row.length = 1) :
    ∀ text ∈ charRows glyphs limit row run, text ≠ [] ∧ (glyphs.cells text ≤ limit ∨ text.length = 1) := by
  have hpending (row : List Char) (hrow : glyphs.cells row ≤ limit ∨ row.length = 1) :
      ∀ text ∈ if row = [] then [] else [row], text ≠ [] ∧ (glyphs.cells text ≤ limit ∨ text.length = 1) := by
    intro text htext
    split at htext
    · cases htext
    · next hne =>
      obtain rfl := List.mem_singleton.mp htext
      exact ⟨hne,hrow⟩
  induction run generalizing row with
  | nil => exact hpending row hrow
  | cons ch rest ih =>
    rw [charRows]
    split
    · intro text htext
      obtain htext | htext := List.mem_append.mp htext
      · exact hpending row hrow text htext
      · obtain rfl | htext := List.mem_cons.mp htext
        · exact ⟨by simp,Or.inr rfl⟩
        · exact ih (Or.inl (by simp)) text htext
    · next hfits =>
      split
      · next hfull =>
        intro text htext
        obtain rfl | htext := List.mem_cons.mp htext
        · refine ⟨?_,hrow⟩
          rintro rfl
          simp only [cells_nil] at hfull
          omega
        · exact ih (Or.inr rfl) text htext
      · next hroom =>
        apply ih
        rw [cells_append,cells_singleton]
        exact Or.inl (by omega)

/-- Pieces that follow each other closely are sound if they fit. -/
theorem sound_soft {texts : List (List Char)} {tail : List Segment}
    (htexts : ∀ text ∈ texts, text ≠ [] ∧ (glyphs.cells text ≤ limit ∨ text.length = 1)) :
    Sound glyphs limit none (soft texts ++ tail) ↔ Sound glyphs limit none tail := by
  induction texts with
  | nil => rfl
  | cons text texts ih =>
    obtain ⟨⟨hne,hfit⟩,hrest⟩ := List.forall_mem_cons.mp htexts
    change Sound glyphs limit none (⟨[],text,false⟩ :: (soft texts ++ tail)) ↔ _
    rw [Sound,if_neg Bool.false_ne_true,ih hrest]
    simp [Opens,hne,hfit]

/-- What is too wide stays so. -/
theorem not_sound_wide {base : Option (List Char)} {runs : List (List Char)} {tail : List Segment}
    (hwide : limit < glyphs.cells row) (hlen : row.length ≠ 1) :
    ¬ Sound glyphs limit base (withGap gap (lineSegments glyphs limit newline row runs) ++ tail) := by
  have hsegment : ∃ newline' rest, lineSegments glyphs limit newline row runs = ⟨[],row,newline'⟩ :: rest := by
    cases runs with
    | nil => exact ⟨newline,[],rfl⟩
    | cons run rest =>
      rw [lineSegments,if_neg (by omega),if_pos (by omega)]
      exact ⟨false,_,rfl⟩
  obtain ⟨newline',rest,heq⟩ := hsegment
  rw [heq]
  intro h
  change Sound glyphs limit base (⟨gap ++ [],row,newline'⟩ :: (rest ++ tail)) at h
  obtain hfit | hone := h.2.1
  · exact absurd hwide (not_lt.mpr hfit)
  · exact hlen hone

/-- What is passed over before a row: what stands before its line, nothing, or white characters that were dropped. -/
inductive Starts : (bol dropped : Bool) → Option (List Char) → List Char → Prop
  | line (dropped : Bool) (gap : List Char) : Starts true dropped (some gap) gap
  | close : Starts false false none []
  | dropped {gap : List Char} (hne : gap ≠ []) (hwhite : gap.all isWhitespace = true) (hline : '\n' ∉ gap) :
      Starts false true none gap

section
variable {bol dropped : Bool} {base : Option (List Char)} {tail : List Segment}

/-- A row that shows something, where `more` is lost before it. -/
theorem Starts.sound_cons (h : Starts bol dropped base gap) {more text : List Char} (hmore : '\n' ∉ more) (htext : text ≠ [])
    (hfit : glyphs.cells text ≤ limit ∨ text.length = 1) :
    Sound glyphs limit base (⟨gap ++ more,text,newline⟩ :: tail) ↔
      (if bol then more = [] else more.all isWhitespace = true) ∧
        Sound glyphs limit (if newline then some ['\n'] else none) tail := by
  cases h with
  | line => simp [Sound,Opens,htext,hfit]
  | close => simp [Sound,Opens,htext,hfit,hmore]
  | dropped hne hwhite hline =>
    have hall : (gap ++ more).all isWhitespace = more.all isWhitespace := by rw [List.all_append,hwhite,Bool.true_and]
    simp [Sound,Opens,htext,hfit,hmore,hline,hall,-List.all_append]

/-- The last row of a line. -/
theorem Starts.sound_last (h : Starts bol dropped base gap) (hfit : glyphs.cells row ≤ limit ∨ row.length = 1)
    (htail : newline = false → tail = []) :
    Sound glyphs limit base (⟨gap,row,newline⟩ :: tail) ↔
      (row = [] → bol = true ∨ dropped = true) ∧ Sound glyphs limit (if newline then some ['\n'] else none) tail := by
  cases h with
  | line =>
    have hend : row = [] → newline = true ∨ content tail = [] := by
      intro _
      cases newline with
      | true => exact Or.inl rfl
      | false => exact Or.inr (by rw [htail rfl]; rfl)
    simp only [Sound,Opens,true_and,true_or,implies_true,hfit]
    exact ⟨fun hsound => hsound.2,fun hsound => ⟨hend,hsound⟩⟩
  | close => simp [Sound,Opens,hfit]
  | dropped hne hwhite hline => simp [Sound,Opens,hfit,hne,hline,hwhite]

theorem sound_line (h : Starts bol dropped base gap) {runs : List (List Char)} (hruns : ∀ run ∈ runs, run ≠ [] ∧ '\n' ∉ run)
    (hrow : '\n' ∉ row) (hfit : glyphs.cells row ≤ limit ∨ row.length = 1) (htail : newline = false → tail = []) :
    Sound glyphs limit base (withGap gap (lineSegments glyphs limit newline row runs) ++ tail) ↔
      Packs glyphs limit bol dropped row runs ∧ Sound glyphs limit (if newline then some ['\n'] else none) tail := by
  induction runs generalizing bol dropped base gap row with
  | nil =>
    rw [lineSegments,withGap,Packs,List.append_nil]
    exact h.sound_last hfit htail
  | cons run rest ih =>
    obtain ⟨⟨hne,hline⟩,hrest⟩ := List.forall_mem_cons.mp hruns
    have hempty {dropped : Bool} {gap : List Char} (h : Starts false dropped none gap) :=
      @ih [] _ _ _ _ h hrest List.not_mem_nil (Or.inl (Nat.zero_le limit))
    rw [lineSegments,Packs]
    split
    · -- the run is cut into pieces, and what is in the row is lost before the first
      have hpieces := @charRows_fit glyphs limit [] run (Or.inl (Nat.zero_le limit))
      have hpiecesNe := @charRows_ne_nil glyphs limit [] _ (Or.inr hne)
      have hclose := hempty .close
      rw [withGap_nil] at hclose
      cases hcut : charRows glyphs limit [] run with
      | nil => exact absurd hcut hpiecesNe
      | cons text texts =>
        rw [hcut] at hpieces
        obtain ⟨⟨htext,hfits⟩,hmore⟩ := List.forall_mem_cons.mp hpieces
        change Sound glyphs limit base (⟨gap ++ (row ++ []),text,false⟩ :: (soft texts ++ lineSegments glyphs limit newline [] rest ++ tail)) ↔ _
        rw [List.append_nil,h.sound_cons hrow htext hfits,List.append_assoc,if_neg Bool.false_ne_true,sound_soft hmore,hclose,
          and_assoc]
    · next hshort =>
      split
      · next hfull =>
        have hrowNe : row ≠ [] := by
          rintro rfl
          exact hshort ⟨rfl,by simpa using hfull⟩
        have hnone : (if bol = true then ([] : List Char) = [] else ([] : List Char).all isWhitespace = true) ↔ True := by
          split <;> simp
        rw [withGap,List.cons_append,h.sound_cons (by simp) hrowNe hfit,if_neg Bool.false_ne_true,hnone,true_and]
        by_cases hwhite : run.all isWhitespace = true
        · rw [if_pos hwhite,if_pos hwhite]
          exact hempty (.dropped hne hwhite hline)
        · rw [if_neg hwhite,if_neg hwhite]
          by_cases hwide : glyphs.cells run ≤ limit ∨ run.length = 1
          · have hnext := ih .close hrest hline hwide
            rw [withGap_nil] at hnext
            rw [hnext,and_assoc,and_iff_right hwide]
          · obtain ⟨hlt,hlen⟩ := not_or.mp hwide
            have hnot := @not_sound_wide glyphs limit _ [] newline none rest tail (not_le.mp hlt) hlen
            rw [withGap_nil] at hnot
            simp only [hwide,hnot,false_and]
      · apply ih h hrest
        · simp [hrow,hline]
        · rw [cells_append]
          exact Or.inl (by omega)

end

theorem runs_of_line (hline : '\n' ∉ line) : ∀ run ∈ splitKeepingSpaces line, run ≠ [] ∧ '\n' ∉ run := by
  intro run hrun
  constructor
  · rintro rfl
    exact splitKeepingSpaces_ne line hrun
  · intro hmem
    apply hline
    rw [← splitKeepingSpaces_flatten line]
    exact List.mem_flatten.mpr ⟨run,hrun,hmem⟩

/-- Each line of a value for itself. -/
theorem sound_value (gap line rest : List Char) (hline : '\n' ∉ line) :
    Sound glyphs limit (some gap) (withGap gap (valueSegments glyphs limit line rest)) ↔
      ∀ l ∈ (line ++ rest).splitOn '\n', Packs glyphs limit true false [] (splitKeepingSpaces l) := by
  have hnil : glyphs.cells [] ≤ limit ∨ ([] : List Char).length = 1 := Or.inl (Nat.zero_le limit)
  have hfree {line : List Char} (hline : '\n' ∉ line) : ∀ c ∈ line, (c == '\n') = false := by
    intro c hc
    rw [beq_eq_false_iff_ne]
    rintro rfl
    exact hline hc
  induction rest generalizing gap line with
  | nil =>
    have hsound := @sound_line glyphs limit _ _ false _ _ _ [] (Starts.line false gap) _ (runs_of_line hline) List.not_mem_nil
      hnil fun _ => rfl
    rw [List.append_nil] at hsound
    rw [valueSegments,hsound,List.append_nil,List.splitOn_eq_splitOnP,List.splitOnP_eq_singleton (hfree hline),
      List.forall_mem_singleton]
    exact and_iff_left trivial
  | cons ch rest ih =>
    rw [valueSegments]
    split
    · next hch =>
      subst hch
      have hsound := @sound_line glyphs limit _ _ true _ _ _ (withGap ['\n'] (valueSegments glyphs limit [] rest))
        (Starts.line false gap) _ (runs_of_line hline) List.not_mem_nil hnil (fun h => absurd h (by decide))
      have hrest : _ ↔ _ := ih ['\n'] [] List.not_mem_nil
      rw [withGap_append gap (lineSegments_ne_nil _),hsound,if_pos rfl,hrest,List.splitOn_eq_splitOnP,List.splitOn_eq_splitOnP,
        List.splitOnP_append_cons_of_forall_mem (hfree hline) '\n' (by simp) rest,List.forall_mem_cons]
      rfl
    · next hch =>
      have hrest : _ ↔ _ := ih gap (line ++ [ch]) (by simp [hline,Ne.symm hch])
      rw [hrest,List.append_assoc]
      rfl

/-! From segments to rows. -/

theorem byteLen_eq_zero {cs : List Char} : byteLen cs = 0 ↔ cs = [] := by
  constructor
  · intro h
    by_contra hne
    have hpos := byteLen_pos hne
    omega
  · rintro rfl
    rfl

/-- The row of a segment that comes after the text `done`. -/
def Segment.rowAfter (glyphs : Glyphs) (done : List Char) (segment : Segment) : WrappedRow :=
  ⟨byteLen (done ++ segment.gap),byteLen (done ++ segment.gap ++ segment.text),glyphs.cells segment.text,segment.newline⟩

theorem place_cons (done : List Char) (segment : Segment) (rest : List Segment) :
    place glyphs (byteLen done) (segment :: rest) =
      segment.rowAfter glyphs done :: place glyphs (byteLen (done ++ segment.gap ++ segment.text)) rest := by
  rw [place,Segment.rowAfter]
  simp [Nat.add_assoc]

section
variable {value done : List Char} {segment next : Segment} {rest : List Segment}

theorem fits_iff (hvalue : value = done ++ content (segment :: rest)) :
    (∃ slice, range value (segment.rowAfter glyphs done).startByte (segment.rowAfter glyphs done).endByte = some slice ∧
      (segment.rowAfter glyphs done).width = glyphs.cells slice ∧ ((segment.rowAfter glyphs done).width ≤ limit ∨ slice.length = 1)) ↔
    (glyphs.cells segment.text ≤ limit ∨ segment.text.length = 1) := by
  have hrange : range value (segment.rowAfter glyphs done).startByte (segment.rowAfter glyphs done).endByte = some segment.text := by
    have happend := range_append (done ++ segment.gap) segment.text (content rest)
    rw [← byteLen_append] at happend
    rw [hvalue,content_cons,← happend]
    simp [Segment.rowAfter]
  rw [hrange]
  simp [Segment.rowAfter]

/-- What lies between the rows of two segments that follow each other. -/
theorem link_iff (hvalue : value = done ++ content (segment :: next :: rest)) :
    Link value (segment.rowAfter glyphs done) (next.rowAfter glyphs (done ++ segment.gap ++ segment.text)) ↔
      Opens (if segment.newline then some ['\n'] else none) next rest := by
  have hrange : range value (segment.rowAfter glyphs done).endByte
      (next.rowAfter glyphs (done ++ segment.gap ++ segment.text)).startByte = some next.gap := by
    have happend := range_append (done ++ segment.gap ++ segment.text) next.gap (next.text ++ content rest)
    rw [← byteLen_append] at happend
    rw [hvalue,content_cons,content_cons,← happend]
    simp [Segment.rowAfter]
  have hempty : (next.rowAfter glyphs (done ++ segment.gap ++ segment.text)).startByte =
      (next.rowAfter glyphs (done ++ segment.gap ++ segment.text)).endByte ↔ next.text = [] := by
    rw [← byteLen_eq_zero]
    simp [Segment.rowAfter]
  have hends : EndsLine value (next.rowAfter glyphs (done ++ segment.gap ++ segment.text)) ↔
      next.newline = true ∨ content rest = [] := by
    rw [← byteLen_eq_zero,EndsLine,hvalue]
    simp [Segment.rowAfter]
  have hdropped : (segment.rowAfter glyphs done).endByte < (next.rowAfter glyphs (done ++ segment.gap ++ segment.text)).startByte ↔
      next.gap ≠ [] := by
    rw [ne_eq,← byteLen_eq_zero]
    simp [Segment.rowAfter,Nat.pos_iff_ne_zero]
  constructor
  · intro ⟨⟨gap,hgap,hterminated,hwhite⟩,hnext⟩
    rw [hrange] at hgap
    cases hgap
    rw [hempty,hends,hdropped] at hnext
    cases hnewline : segment.newline with
    | true => exact ⟨hterminated.mp hnewline,fun h => by simpa [Segment.rowAfter,hnewline] using hnext h⟩
    | false =>
      obtain ⟨hall,hline⟩ := hwhite hnewline
      exact ⟨hall,hline,fun h => by simpa [Segment.rowAfter,hnewline] using hnext h⟩
  · intro hopens
    cases hnewline : segment.newline with
    | true =>
      rw [hnewline,if_pos rfl] at hopens
      refine ⟨⟨next.gap,hrange,?_,?_⟩,?_⟩
      · simp [Segment.rowAfter,hnewline,hopens.1]
      · simp [Segment.rowAfter,hnewline]
      · rw [hempty,hends]
        simpa [Segment.rowAfter,hnewline] using hopens.2
    | false =>
      rw [hnewline,if_neg Bool.false_ne_true] at hopens
      refine ⟨⟨next.gap,hrange,?_,fun _ => ⟨hopens.1,hopens.2.1⟩⟩,?_⟩
      · have hne : next.gap ≠ ['\n'] := by
          intro heq
          exact hopens.2.1 (by simp [heq])
        simp [Segment.rowAfter,hnewline,hne]
      · rw [hempty,hdropped]
        simpa [Segment.rowAfter,hnewline] using hopens.2.2

end

/-- The rows of segments that come after the text `done`. -/
theorem sound_rows {value done : List Char} {base : Option (List Char)} {segment : Segment} {rest : List Segment}
    (hvalue : value = done ++ content (segment :: rest)) :
    Sound glyphs limit base (segment :: rest) ↔ Opens base segment rest ∧
      (∀ row ∈ place glyphs (byteLen done) (segment :: rest), ∃ slice,
        range value row.startByte row.endByte = some slice ∧ row.width = glyphs.cells slice ∧
          (row.width ≤ limit ∨ slice.length = 1)) ∧
      (place glyphs (byteLen done) (segment :: rest)).IsChain (Link value) := by
  induction rest generalizing done base segment with
  | nil =>
    rw [place_cons,place,Sound,Sound,List.forall_mem_singleton,fits_iff hvalue]
    simp
  | cons next rest ih =>
    have hnext : value = done ++ segment.gap ++ segment.text ++ content (next :: rest) := by
      rw [hvalue,content_cons]
      simp
    have hfits := @fits_iff glyphs limit _ _ _ _ hvalue
    rw [Sound,ih hnext,place_cons done segment,List.forall_mem_cons,hfits,place_cons,List.isChain_cons_cons,link_iff hvalue]
    tauto

theorem getLast_place {value : List Char} {pos : Nat} (hvalue : byteLen value = pos + byteLen (content segments)) :
    ∀ row ∈ (place glyphs pos segments).getLast?, row.endByte = byteLen value := by
  induction segments generalizing pos with
  | nil => nofun
  | cons segment rest ih =>
    rw [content_cons,byteLen_append,byteLen_append] at hvalue
    cases rest with
    | nil =>
      intro row hrow
      simp only [place,List.getLast?_singleton,Option.mem_some_iff] at hrow
      rw [← hrow,hvalue]
      simp [Nat.add_assoc]
    | cons next rest =>
      intro row hrow
      rw [place,place,List.getLast?_cons_cons,← place] at hrow
      apply ih ?_ row hrow
      omega

theorem partitions_iff {value : List Char} (hcontent : content segments = value) (hne : segments ≠ []) :
    Partitions glyphs value limit (place glyphs 0 segments) ↔ Sound glyphs limit (some []) segments := by
  cases segments with
  | nil => exact absurd rfl hne
  | cons segment rest =>
    have hvalue : value = [] ++ content (segment :: rest) := hcontent.symm
    have hfirst : ((segment.rowAfter glyphs []).startByte = 0 ∧
        ((segment.rowAfter glyphs []).startByte = (segment.rowAfter glyphs []).endByte →
          EndsLine value (segment.rowAfter glyphs []))) ↔ Opens (some []) segment rest := by
      rw [EndsLine,hvalue]
      simp [Opens,Segment.rowAfter,byteLen_eq_zero]
    have hlast : ∀ row ∈ (place glyphs 0 (segment :: rest)).getLast?, ∃ rest, range value row.endByte (byteLen value) = some rest ∧
        rest.all isWhitespace = true ∧ '\n' ∉ rest := by
      intro row hrow
      have hend := @getLast_place glyphs _ value 0 (by rw [← hcontent,Nat.zero_add]) row hrow
      have happend := range_append value [] []
      rw [List.append_nil,List.append_nil,byteLen_nil,Nat.add_zero] at happend
      exact ⟨[],by rw [hend]; exact happend,rfl,List.not_mem_nil⟩
    rw [sound_rows hvalue]
    constructor
    · intro h
      have hhead := h.first (segment.rowAfter glyphs []) (by rw [← byteLen_nil,place_cons]; rfl)
      exact ⟨hfirst.mp hhead,h.fits,h.links⟩
    · intro ⟨hopens,hfits,hlinks⟩
      refine ⟨hfits,hlinks,fun row hrow => ?_,hlast⟩
      rw [← byteLen_nil,place_cons] at hrow
      obtain rfl := Option.mem_some_iff.mp hrow
      exact hfirst.mpr hopens

/-- Soft wrapping makes a partition if and only if the runs of every line can be packed. -/
theorem wrapValue_partitions (glyphs : Glyphs) (value : List Char) (width : Nat) (hwidth : 1 ≤ width) :
    (∃ rows, wrapValue glyphs value width = some rows ∧ Partitions glyphs value width rows) ↔
      ∀ line ∈ value.splitOn '\n', Packs glyphs width true false [] (splitKeepingSpaces line) := by
  obtain ⟨hrows,hcontent⟩ := @wrapValue_eq glyphs width value (by omega)
  have hsound := @sound_value glyphs width [] [] value List.not_mem_nil
  rw [withGap_nil,List.nil_append] at hsound
  rw [← hsound,← partitions_iff hcontent (valueSegments_ne_nil [] value),hrows]
  constructor
  · intro ⟨rows,heq,hpartitions⟩
    cases heq
    exact hpartitions
  · intro hpartitions
    exact ⟨_,rfl,hpartitions⟩

/-- Words that fit, the second after white characters that are dropped. -/
theorem wrapValue_partitions_words : ∃ rows, wrapValue ⟨fun _ => 1,fun _ => true⟩ ['a','b',' ',' ','c','\n'] 2 = some rows ∧
    Partitions ⟨fun _ => 1,fun _ => true⟩ ['a','b',' ',' ','c','\n'] 2 rows :=
  (wrapValue_partitions ⟨fun _ => 1,fun _ => true⟩ ['a','b',' ',' ','c','\n'] 2 (by decide)).mpr (by decide)

/-- A long word after a short one: its row is six columns wide where four fit. -/
theorem wrapValue_partitions_fails : ¬ ∀ glyphs value width, 1 ≤ width → (∀ c, glyphs.charCellWidth c ≤ 2) →
    ∃ rows, wrapValue glyphs value width = some rows ∧ Partitions glyphs value width rows := by
  intro h
  obtain ⟨rows,hrows,hpartitions⟩ := h ⟨fun _ => 1,fun _ => true⟩ ['a','b',' ','c','d','e','f','g','h'] 4 (by decide) fun _ => Nat.le_succ 1
  have heq : wrapValue ⟨fun _ => 1,fun _ => true⟩ ['a','b',' ','c','d','e','f','g','h'] 4 =
      some [⟨0,3,3,false⟩,⟨3,9,6,false⟩] := by
    decide
  rw [heq] at hrows
  cases hrows
  obtain ⟨slice,hslice,hwidth,hfits⟩ := hpartitions.fits ⟨3,9,6,false⟩ (by simp)
  have hrange : range ['a','b',' ','c','d','e','f','g','h'] 3 9 = some ['c','d','e','f','g','h'] := by decide
  rw [hrange] at hslice
  cases hslice
  simp at hfits

end Nefor.Tui
