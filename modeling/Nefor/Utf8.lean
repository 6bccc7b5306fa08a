import Mathlib.Data.List.Basic
import Mathlib.Tactic.Common

/-! Bytes that are the encoding of a text. A byte below 128 stands for itself, so it cuts them
into two encodings. -/
namespace Nefor

/-- `from_utf8` succeeds. -/
def utf8Valid (bytes : List UInt8) : Bool := (String.fromUTF8? (ByteArray.mk bytes.toArray)).isSome

theorem utf8Valid_iff {bytes : List UInt8} :
    utf8Valid bytes = true ↔ ∃ cs : List Char, bytes = cs.flatMap String.utf8EncodeChar := by
  have hvalid : utf8Valid bytes = true ↔ (ByteArray.mk bytes.toArray).IsValidUTF8 := by
    unfold utf8Valid String.fromUTF8?
    split
    · simpa
    · simpa
  have hmk : ∀ other : List UInt8, ByteArray.mk bytes.toArray = other.toByteArray ↔ bytes = other := by
    intro other
    constructor
    · intro h
      have hdata := congrArg (fun b => b.data.toList) h
      simpa [List.data_toByteArray] using hdata
    · rintro rfl
      exact ByteArray.ext (by simp [List.data_toByteArray])
  rw [hvalid]
  constructor
  · rintro ⟨cs,hcs⟩
    exact ⟨cs,(hmk _).mp hcs⟩
  · rintro ⟨cs,hcs⟩
    exact ⟨cs,(hmk _).mpr hcs⟩

/-- The bytes of a longer encoding are all at least 128. -/
theorem utf8EncodeChar_eq {c : Char} {x : UInt8} (hx : x.toNat < 128)
    (h : x ∈ String.utf8EncodeChar c) : String.utf8EncodeChar c = [x] := by
  have hbyte : ∀ n, x = UInt8.ofNat n → n % 256 < 128 := by
    rintro n rfl
    rwa [UInt8.toNat_ofNat'] at hx
  unfold String.utf8EncodeChar at *
  simp only at h ⊢
  split at h
  · rename_i hsmall
    rw [if_pos hsmall,← List.mem_singleton.mp h]
  · exfalso
    split at h
    · simp only [List.mem_cons,List.not_mem_nil,or_false] at h
      obtain h | h := h <;> have := hbyte _ h <;> omega
    · split at h
      · simp only [List.mem_cons,List.not_mem_nil,or_false] at h
        obtain h | h | h := h <;> have := hbyte _ h <;> omega
      · simp only [List.mem_cons,List.not_mem_nil,or_false] at h
        obtain h | h | h | h := h <;> have := hbyte _ h <;> omega

theorem utf8Valid_nil : utf8Valid [] = true := utf8Valid_iff.mpr ⟨[],rfl⟩

theorem utf8Valid_singleton {x : UInt8} (hx : x.toNat < 128) : utf8Valid [x] = true := by
  refine utf8Valid_iff.mpr ⟨[Char.ofNat x.toNat],?_⟩
  have hval : (Char.ofNat x.toNat).val.toNat = x.toNat := by
    have hvalid : x.toNat.isValidChar := .inl (by omega)
    rw [Char.ofNat,dif_pos hvalid]
    rfl
  rw [List.flatMap_singleton,String.utf8EncodeChar]
  simp only [hval]
  rw [if_pos (by omega),UInt8.ofNat_toNat]

theorem utf8Valid_append {a b : List UInt8} (ha : utf8Valid a = true) (hb : utf8Valid b = true) :
    utf8Valid (a ++ b) = true := by
  obtain ⟨cs,rfl⟩ := utf8Valid_iff.mp ha
  obtain ⟨ds,rfl⟩ := utf8Valid_iff.mp hb
  exact utf8Valid_iff.mpr ⟨cs ++ ds,List.flatMap_append.symm⟩

/-- A byte below 128 cuts an encoding in two. -/
theorem utf8Valid_cut {a b : List UInt8} {x : UInt8} (hx : x.toNat < 128)
    (h : utf8Valid (a ++ x :: b) = true) : utf8Valid a = true ∧ utf8Valid b = true := by
  obtain ⟨cs,hcs⟩ := utf8Valid_iff.mp h
  induction cs generalizing a with
  | nil => simp at hcs
  | cons c cs ih =>
    rw [List.flatMap_cons] at hcs
    obtain ⟨more,henc,hrest⟩ | ⟨more,rfl,hrest⟩ := List.append_eq_append_iff.mp hcs
    · cases more with
      | nil =>
        have hb := ih (a := []) (hrest.symm ▸ utf8Valid_iff.mpr ⟨cs,rfl⟩) hrest
        rw [List.append_nil] at henc
        exact ⟨utf8Valid_iff.mpr ⟨[c],by simp [henc]⟩,hb.2⟩
      | cons y more =>
        obtain ⟨rfl,hb⟩ := List.cons_eq_cons.mp hrest
        -- a byte that stands for itself is all of its encoding
        have hone := utf8EncodeChar_eq hx (henc ▸ List.mem_append_right a List.mem_cons_self)
        rw [hone] at henc
        have hlen := congrArg List.length henc
        simp only [List.length_append,List.length_cons,List.length_nil] at hlen
        obtain rfl : a = [] := List.length_eq_zero_iff.mp (by omega)
        obtain rfl : more = [] := List.length_eq_zero_iff.mp (by omega)
        exact ⟨utf8Valid_nil,utf8Valid_iff.mpr ⟨cs,hb⟩⟩
    · obtain ⟨ha,hb⟩ := ih (utf8Valid_iff.mpr ⟨cs,hrest.symm⟩) hrest.symm
      exact ⟨utf8Valid_append (utf8Valid_iff.mpr ⟨[c],by simp⟩) ha,hb⟩

/-! The bytes of texts in the source. -/

def ascii (s : String) : List UInt8 := s.toUTF8.data.toList

/-- `%d`. -/
def decimal (n : Nat) : List UInt8 := ascii (toString n)

theorem utf8Valid_append_ascii {a b : List UInt8} {x : UInt8} (hx : x.toNat < 128) :
    utf8Valid (a ++ x :: b) = true ↔ utf8Valid a = true ∧ utf8Valid b = true := by
  constructor
  · exact utf8Valid_cut hx
  · rintro ⟨ha,hb⟩
    rw [List.append_cons]
    exact utf8Valid_append (utf8Valid_append ha (utf8Valid_singleton hx)) hb

/-! Longer encodings. -/

/-- A byte that begins an encoding. -/
def Leads (x : UInt8) : Prop := x.toNat < 128 ∨ 192 ≤ x.toNat

end Nefor
