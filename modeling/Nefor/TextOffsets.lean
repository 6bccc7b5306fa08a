import Nefor.SourceText

/-! Byte offsets that are kept beside a text: which of them lie between two characters, how they are moved
there, and what is cut and put in at them. -/
namespace Nefor.SourceText

/-- `text.is_char_boundary(pos)`. -/
def isCharBoundary (text : List Char) (pos : Nat) : Bool := (suffix text pos).isSome

/-- `&text[start..finish]`, which panics where this is `none`. -/
def range (text : List Char) (start finish : Nat) : Option (List Char) :=
  if start ≤ finish then slice text start finish else none

/-- `text.replace_range(start..finish, insert)`, which panics where this is `none`. -/
def replaceRange (text : List Char) (start finish : Nat) (insert : List Char) : Option (List Char) :=
  if start ≤ finish then do
    let before ← takeBytes text start
    let after ← suffix text finish
    some (before ++ insert ++ after)
  else none

/-- `while !text.is_char_boundary(pos) { pos -= 1 }`; the start of the text is a boundary. -/
def floorCharBoundary (text : List Char) : Nat → Nat
  | 0 => 0
  | pos + 1 => if isCharBoundary text (pos + 1) then pos + 1 else floorCharBoundary text pos

/-- `while pos < text.len() && !text.is_char_boundary(pos) { pos += 1 }`, for a number of rounds that is at
least the number of bytes left. -/
def ceilCharBoundary (text : List Char) : Nat → Nat → Nat
  | 0, pos => pos
  | rounds + 1, pos =>
    if pos < byteLen text ∧ isCharBoundary text pos = false then ceilCharBoundary text rounds (pos + 1) else pos

/-- An offset between two characters. -/
def Boundary (text : List Char) (pos : Nat) : Prop := ∃ rest, At text pos rest

variable {text before middle after rest insert : List Char} {pos start finish : Nat}

theorem boundary_append (before rest : List Char) : Boundary (before ++ rest) (byteLen before) := ⟨rest,before,rfl,rfl⟩

theorem boundary_zero (text : List Char) : Boundary text 0 := ⟨text,at_zero text⟩

theorem boundary_byteLen (text : List Char) : Boundary text (byteLen text) := ⟨[],text,by simp,rfl⟩

theorem Boundary.le (h : Boundary text pos) : pos ≤ byteLen text := by
  obtain ⟨rest,hat⟩ := h
  rw [hat.byteLen]
  omega

theorem at_of_suffix (h : suffix text pos = some rest) : At text pos rest := by
  induction text generalizing pos with
  | nil =>
    cases pos with
    | zero => cases h; exact at_zero []
    | succ pos => cases h
  | cons c cs ih =>
    cases pos with
    | zero => cases h; exact at_zero (c :: cs)
    | succ pos =>
      rw [suffix] at h
      split at h
      · next hle =>
        obtain ⟨before,hcs,hpos⟩ := ih h
        refine ⟨c :: before,by rw [hcs]; rfl,?_⟩
        rw [byteLen_cons,← hpos]
        omega
      · cases h

theorem isCharBoundary_iff : isCharBoundary text pos = true ↔ Boundary text pos := by
  rw [isCharBoundary,Option.isSome_iff_exists]
  constructor
  · intro ⟨rest,h⟩
    exact ⟨rest,at_of_suffix h⟩
  · intro ⟨rest,hat⟩
    exact ⟨rest,hat.suffix⟩

/-- Two boundaries in order cut the text in three. -/
theorem Boundary.cut (hstart : Boundary text start) (hfinish : Boundary text finish) (hle : start ≤ finish) :
    ∃ before middle after, text = before ++ middle ++ after ∧ start = byteLen before ∧
      finish = byteLen before + byteLen middle := by
  obtain ⟨rest,before,rfl,rfl⟩ := hstart
  obtain ⟨after,long,htext,rfl⟩ := hfinish
  obtain ⟨middle,rfl,rfl⟩ | ⟨more,rfl,rfl⟩ := List.append_eq_append_iff.mp htext
  · exact ⟨before,middle,after,by simp,rfl,by simp⟩
  · rw [byteLen_append] at hle
    have hmore : more = [] := by
      by_contra hne
      have hpos := byteLen_pos hne
      omega
    subst hmore
    exact ⟨long,[],rest,by simp,by simp,by simp⟩

theorem range_append (before middle after : List Char) :
    range (before ++ middle ++ after) (byteLen before) (byteLen before + byteLen middle) = some middle := by
  have hat : At (before ++ middle ++ after) (byteLen before) (middle ++ after) := ⟨before,by simp,rfl⟩
  rw [range,if_pos (by omega)]
  exact hat.slice

theorem replaceRange_append (before middle after insert : List Char) :
    replaceRange (before ++ middle ++ after) (byteLen before) (byteLen before + byteLen middle) insert =
      some (before ++ insert ++ after) := by
  have hafter : At (before ++ middle ++ after) (byteLen before + byteLen middle) after :=
    ⟨before ++ middle,rfl,by simp⟩
  rw [replaceRange,if_pos (by omega),List.append_assoc,takeBytes_append,← List.append_assoc,hafter.suffix]
  rfl

/-- Splicing between two boundaries succeeds, and leaves boundaries on both sides of what is put in. -/
theorem Boundary.replaceRange (hstart : Boundary text start) (hfinish : Boundary text finish) (hle : start ≤ finish)
    (insert : List Char) : ∃ result, replaceRange text start finish insert = some result ∧
      Boundary result start ∧ Boundary result (start + byteLen insert) := by
  obtain ⟨before,middle,after,rfl,rfl,rfl⟩ := hstart.cut hfinish hle
  refine ⟨_,replaceRange_append before middle after insert,?_,?_⟩
  · rw [List.append_assoc]
    exact boundary_append before (insert ++ after)
  · rw [← byteLen_append]
    exact boundary_append (before ++ insert) after

theorem boundary_of_takeBytes {w : List Char} (h : takeBytes text pos = some w) : Boundary text pos := by
  induction text generalizing pos w with
  | nil =>
    cases pos with
    | zero => exact boundary_zero []
    | succ pos => cases h
  | cons c cs ih =>
    cases pos with
    | zero => exact boundary_zero _
    | succ pos =>
      rw [takeBytes] at h
      split at h
      · next hle =>
        obtain ⟨w',hw',-⟩ := Option.map_eq_some_iff.mp h
        obtain ⟨rest,before,hcs,hpos⟩ := ih hw'
        refine ⟨rest,c :: before,by rw [hcs]; rfl,?_⟩
        rw [byteLen_cons,← hpos]
        omega
      · cases h

/-- Splicing anywhere else panics. -/
theorem replaceRange_eq_none (h : ¬ Boundary text start ∨ ¬ Boundary text finish) :
    SourceText.replaceRange text start finish insert = none := by
  rw [SourceText.replaceRange]
  split
  · cases htake : takeBytes text start with
    | none => rfl
    | some w =>
      cases hsuffix : suffix text finish with
      | none => rfl
      | some rest =>
        exact absurd ⟨boundary_of_takeBytes htake,rest,at_of_suffix hsuffix⟩ (not_and_or.mpr h)
  · rfl

theorem Boundary.range (hstart : Boundary text start) (hfinish : Boundary text finish) (hle : start ≤ finish) :
    ∃ w, range text start finish = some w := by
  obtain ⟨before,middle,after,rfl,rfl,rfl⟩ := hstart.cut hfinish hle
  exact ⟨middle,range_append before middle after⟩

/-! Moving to a boundary. -/

theorem floorCharBoundary_boundary (text : List Char) (pos : Nat) : Boundary text (floorCharBoundary text pos) := by
  induction pos with
  | zero => exact boundary_zero text
  | succ pos ih =>
    rw [floorCharBoundary]
    split
    · next h => exact isCharBoundary_iff.mp h
    · exact ih

theorem floorCharBoundary_le (text : List Char) (pos : Nat) : floorCharBoundary text pos ≤ pos := by
  induction pos with
  | zero => exact Nat.le_refl 0
  | succ pos ih =>
    rw [floorCharBoundary]
    split <;> omega

theorem ceilCharBoundary_boundary {rounds : Nat} (hle : pos ≤ byteLen text) (hrounds : byteLen text ≤ pos + rounds) :
    Boundary text (ceilCharBoundary text rounds pos) := by
  induction rounds generalizing pos with
  | zero =>
    obtain rfl : pos = byteLen text := by omega
    exact boundary_byteLen text
  | succ rounds ih =>
    rw [ceilCharBoundary]
    split
    · next h => exact ih h.1 (by omega)
    · next h =>
      by_cases hlt : pos < byteLen text
      · apply isCharBoundary_iff.mp
        simpa [hlt] using h
      · obtain rfl : pos = byteLen text := by omega
        exact boundary_byteLen text

theorem le_ceilCharBoundary (rounds : Nat) : pos ≤ ceilCharBoundary text rounds pos := by
  induction rounds generalizing pos with
  | zero => exact Nat.le_refl pos
  | succ rounds ih =>
    rw [ceilCharBoundary]
    split
    · exact (Nat.le_succ pos).trans ih
    · exact Nat.le_refl pos

/-- A byte below 128 is a character of its own. -/
theorem at_of_byteAt {b : UInt8} (h : byteAt text pos = some b) (hb : b.toNat < 128) :
    ∃ c rest, At text pos (c :: rest) ∧ c.toNat < 128 ∧ byte c = b := by
  induction text generalizing pos with
  | nil => simp [byteAt] at h
  | cons c cs ih =>
    rw [byteAt,encode_cons] at h
    by_cases hlt : pos < (String.utf8EncodeChar c).length
    · rw [List.getElem?_append_left hlt] at h
      have hmem := List.mem_of_getElem? h
      have hascii : c.toNat < 128 := by
        by_contra hnot
        have hle := le_of_mem_utf8EncodeChar hnot hmem
        omega
      rw [utf8EncodeChar_ascii hascii] at hlt h
      obtain rfl : pos = 0 := by simpa using hlt
      refine ⟨c,cs,at_zero _,hascii,?_⟩
      simpa using h
    · rw [List.getElem?_append_right (by omega)] at h
      obtain ⟨d,rest,⟨before,hcs,hpos⟩,hd⟩ := ih h
      refine ⟨d,rest,⟨c :: before,by rw [hcs]; rfl,?_⟩,hd⟩
      rw [String.length_utf8EncodeChar] at hlt hpos
      rw [byteLen_cons]
      omega

end Nefor.SourceText
