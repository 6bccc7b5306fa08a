import Mathlib.Data.List.Forall2
import Nefor.Ncp.Connection

/-! The reader over a buffered transport: how the transport splits the stream does not matter, and
every frame that was admitted can be read. -/
namespace Nefor.Ncp

/-- What one read of the transport gives; a read that gives nothing is the end of the stream. -/
abbrev Chunk := { bytes : List UInt8 // bytes ≠ [] }

/-- The bytes of a string. -/
def utf8 (s : String) : List UInt8 := s.toByteArray.data.toList

/-- How much of a buffer belongs to the first line in it. -/
def chunkLen (available : List UInt8) : Nat :=
  match available.findIdx? (· = 10) with
  | some index => index + 1
  | none => available.length

@[simp] theorem chunkLen_nil : chunkLen [] = 0 := rfl

theorem chunkLen_cons (byte : UInt8) (rest : List UInt8) :
    chunkLen (byte :: rest) = if byte = 10 then 1 else chunkLen rest + 1 := by
  unfold chunkLen
  rw [List.findIdx?_cons]
  by_cases h : byte = 10
  · simp [h]
  · cases rest.findIdx? (· = 10) <;> simp [h]

theorem chunkLen_of_notMem {s : List UInt8} (h : 10 ∉ s) : chunkLen s = s.length := by
  induction s with
  | nil => rfl
  | cons byte rest ih =>
    rw [List.mem_cons,not_or] at h
    rw [chunkLen_cons,if_neg (Ne.symm h.1),ih h.2,List.length_cons]

theorem chunkLen_append_of_notMem {s : List UInt8} (h : 10 ∉ s) (t : List UInt8) :
    chunkLen (s ++ t) = s.length + chunkLen t := by
  induction s with
  | nil => simp
  | cons byte rest ih =>
    rw [List.mem_cons,not_or] at h
    rw [List.cons_append,chunkLen_cons,if_neg (Ne.symm h.1),ih h.2,List.length_cons]
    omega

/-- The first line is the bytes before its line feed, and the line feed. -/
theorem chunkLen_of_mem {s : List UInt8} (h : 10 ∈ s) : ∃ line rest, s = line ++ 10 :: rest ∧
    10 ∉ line ∧ chunkLen s = line.length + 1 := by
  induction s with
  | nil => cases h
  | cons byte rest ih =>
    by_cases hb : byte = 10
    · subst hb
      exact ⟨[],rest,rfl,List.not_mem_nil,by rw [chunkLen_cons,if_pos rfl]; rfl⟩
    · obtain ⟨line,more,rfl,hline,hlen⟩ := ih ((List.mem_cons.mp h).resolve_left (Ne.symm hb))
      refine ⟨byte :: line,more,rfl,?_,?_⟩
      · rw [List.mem_cons,not_or]
        exact ⟨Ne.symm hb,hline⟩
      · rw [chunkLen_cons,if_neg hb,hlen,List.length_cons]

/-- A buffered reader: what it holds, the reads of the transport that are yet to come, and how the
transport ends. -/
structure BufReader where
  buffer : List UInt8
  reads : List Chunk
  ending : StreamEnd

/-- What a call of `readLineCapped` gives. -/
inductive ReadLine
  | ok (bytes : Nat) (line : String) (left : BufReader)
  | tooLong
  | invalidData
  | otherError

/-- What its loop gives. -/
inductive ReadBytes
  | ok (bytes : List UInt8) (left : BufReader)
  | tooLong
  | otherError

namespace BufReader

/-- All that is yet to be read. -/
def rest (r : BufReader) : List UInt8 := r.buffer ++ r.reads.flatMap (·.val)

/-- The part of the buffer that belongs to the line is taken, and the transport is read again as long
as the line has no end. -/
def readBytes (max : Nat) (ending : StreamEnd) (reads : List Chunk) (available bytes : List UInt8) :
    ReadBytes :=
  if chunkLen available > max - bytes.length then .tooLong
  else
    let taken := bytes ++ available.take (chunkLen available)
    if taken.getLast? = some 10 then .ok taken ⟨available.drop (chunkLen available),reads,ending⟩
    else match reads with
      | [] => match ending with
        | .eof => .ok taken ⟨[],[],ending⟩
        | .ioError => .otherError
      | chunk :: reads => readBytes max ending reads chunk.val taken

def readLineCapped (max : Nat) (r : BufReader) : ReadLine :=
  match readBytes max r.ending r.reads r.buffer [] with
  | .tooLong => .tooLong
  | .otherError => .otherError
  | .ok bytes left =>
    if bytes = [] then .ok 0 "" left
    else match String.fromUTF8? (ByteArray.mk bytes.toArray) with
      | none => .invalidData
      | some line => .ok line.utf8ByteSize line left

/-- A buffer with a line feed gives the rest of the line. -/
theorem readBytes_of_mem (max : Nat) (ending : StreamEnd) (reads : List Chunk) {available : List UInt8}
    (h : 10 ∈ available) (bytes : List UInt8) :
    readBytes max ending reads available bytes =
      if chunkLen available > max - bytes.length then .tooLong
      else .ok (bytes ++ available.take (chunkLen available))
        ⟨available.drop (chunkLen available),reads,ending⟩ := by
  have hlast : (bytes ++ available.take (chunkLen available)).getLast? = some 10 := by
    obtain ⟨line,rest,rfl,-,hlen⟩ := chunkLen_of_mem h
    rw [hlen,List.take_length_add_append]
    simp
  rw [readBytes.eq_def]
  simp only [hlast,if_true]

/-- A buffer without one is taken whole. -/
theorem readBytes_of_notMem (max : Nat) (ending : StreamEnd) (reads : List Chunk)
    {available bytes : List UInt8} (h : 10 ∉ available) (hb : 10 ∉ bytes) :
    readBytes max ending reads available bytes =
      if available.length > max - bytes.length then .tooLong
      else match reads with
        | [] => match ending with
          | .eof => .ok (bytes ++ available) ⟨[],[],ending⟩
          | .ioError => .otherError
        | chunk :: reads => readBytes max ending reads chunk.val (bytes ++ available) := by
  have hlast : (bytes ++ available).getLast? ≠ some 10 := by
    intro hl
    have := List.mem_of_getLast? hl
    rw [List.mem_append] at this
    exact this.elim hb h
  rw [readBytes.eq_def]
  simp only [chunkLen_of_notMem h,List.take_length,hlast,if_false]

/-- The first line of `s` is taken, after `bytes`, unless that is too long or the transport fails before
its end. -/
structure TakesLine (max : Nat) (ending : StreamEnd) (bytes s : List UInt8) (result : ReadBytes) :
    Prop where
  tooLong : max - bytes.length < chunkLen s → result = .tooLong
  ok : chunkLen s ≤ max - bytes.length → 10 ∈ s ∨ ending = .eof → ∃ left,
    result = .ok (bytes ++ s.take (chunkLen s)) left ∧ left.rest = s.drop (chunkLen s) ∧
      left.ending = ending
  failed : chunkLen s ≤ max - bytes.length → 10 ∉ s → ending = .ioError → result = .otherError

theorem takesLine_of_mem (max : Nat) (ending : StreamEnd) (reads : List Chunk) {available : List UInt8}
    (h : 10 ∈ available) (bytes : List UInt8) :
    TakesLine max ending bytes (rest ⟨available,reads,ending⟩)
      (readBytes max ending reads available bytes) := by
  obtain ⟨line,more,hav,hline,hlen⟩ := chunkLen_of_mem h
  have hle : chunkLen available ≤ available.length := by
    rw [hlen,hav]
    simp
  have hrest : chunkLen (rest ⟨available,reads,ending⟩) = chunkLen available := by
    unfold rest
    rw [hlen,hav,List.append_assoc,chunkLen_append_of_notMem hline,List.cons_append,chunkLen_cons,
      if_pos rfl]
  rw [readBytes_of_mem max ending reads h]
  refine ⟨fun hgt => ?_,fun hcap _ => ?_,fun _ hno => ?_⟩
  · rw [hrest] at hgt
    exact if_pos hgt
  · rw [hrest] at hcap ⊢
    rw [if_neg (Nat.not_lt.mpr hcap)]
    refine ⟨⟨available.drop (chunkLen available),reads,ending⟩,?_,?_,rfl⟩
    · unfold rest
      rw [List.take_append_of_le_length hle]
    · unfold rest
      rw [List.drop_append_of_le_length hle]
  · exact absurd (List.mem_append_left _ h) hno

/-- By induction on the reads: what was taken before them has no line feed and is not too long. -/
theorem takesLine_readBytes (max : Nat) (ending : StreamEnd) (reads : List Chunk)
    (available : List UInt8) {bytes : List UInt8} (hb : 10 ∉ bytes) (hl : bytes.length ≤ max) :
    TakesLine max ending bytes (rest ⟨available,reads,ending⟩)
      (readBytes max ending reads available bytes) := by
  induction reads generalizing available bytes with
  | nil =>
    by_cases h : 10 ∈ available
    · exact takesLine_of_mem max ending [] h bytes
    · have hrest : rest ⟨available,[],ending⟩ = available := List.append_nil _
      rw [readBytes_of_notMem max ending [] h hb,hrest]
      have hlen := chunkLen_of_notMem h
      refine ⟨fun hgt => ?_,fun hcap hend => ?_,fun hcap _ hend => ?_⟩
      · rw [hlen] at hgt
        exact if_pos hgt
      · rw [hlen] at hcap ⊢
        rw [if_neg (Nat.not_lt.mpr hcap)]
        have hend := hend.resolve_left h
        subst hend
        refine ⟨⟨[],[],.eof⟩,?_,?_,rfl⟩
        · rw [List.take_length]
        · rw [List.drop_length]
          rfl
      · rw [hlen] at hcap
        subst hend
        exact if_neg (Nat.not_lt.mpr hcap)
  | cons chunk reads ih =>
    by_cases h : 10 ∈ available
    · exact takesLine_of_mem max ending (chunk :: reads) h bytes
    · set tail := rest ⟨chunk.val,reads,ending⟩ with htail
      have hrest : rest ⟨available,chunk :: reads,ending⟩ = available ++ tail := rfl
      have hlen := chunkLen_append_of_notMem h tail
      rw [readBytes_of_notMem max ending _ h hb,hrest]
      by_cases hcap : max - bytes.length < available.length
      · rw [if_pos hcap]
        refine ⟨fun _ => rfl,fun hle => ?_,fun hle => ?_⟩
        · omega
        · omega
      · rw [if_neg hcap]
        have hlength : (bytes ++ available).length = bytes.length + available.length := List.length_append
        have hno : 10 ∉ bytes ++ available := by
          rw [List.mem_append,not_or]
          exact ⟨hb,h⟩
        have hstep := ih chunk.val hno (by omega)
        rw [← htail] at hstep
        change TakesLine max ending bytes (available ++ tail)
          (readBytes max ending reads chunk.val (bytes ++ available))
        refine ⟨fun hgt => ?_,fun hle hend => ?_,fun hle hline hend => ?_⟩
        · exact hstep.tooLong (by omega)
        · obtain ⟨left,hok,hleft,hending⟩ := hstep.ok (by omega)
            (hend.imp_left fun hm => (List.mem_append.mp hm).resolve_left h)
          refine ⟨left,?_,?_,hending⟩
          · rw [hok,hlen,List.take_length_add_append,List.append_assoc]
          · rw [hleft,hlen,List.drop_length_add_append]
        · exact hstep.failed (by omega) (fun hm => hline (List.mem_append_right _ hm)) hend

end BufReader

/-! The pieces of a stream. -/

/-- The first piece is the first line, with its end. -/
theorem frames_line {line : List UInt8} (h : 10 ∉ line) (s : List UInt8) :
    frames (line ++ 10 :: s) = ((line ++ [10]) :: (frames s).1,(frames s).2) := by
  induction line with
  | nil => simp [frames]
  | cons byte line ih =>
    rw [List.mem_cons,not_or] at h
    rw [List.cons_append,frames,ih h.2]
    simp [Ne.symm h.1]

/-- Without a line feed nothing is cut. -/
theorem frames_of_notMem {s : List UInt8} (h : 10 ∉ s) : frames s = ([],s) := by
  induction s with
  | nil => rfl
  | cons byte s ih =>
    rw [List.mem_cons,not_or] at h
    rw [frames,ih h.2]
    simp [Ne.symm h.1]

/-- The first piece, and then what follows it. -/
theorem runReader_chunk {s : List UInt8} {ending : StreamEnd} (hs : s ≠ []) (h : 10 ∈ s ∨ ending = .eof) :
    runReader ⟨s,ending⟩ = match readLine (s.take (chunkLen s)) with
      | .error reason => [.closed reason]
      | .ok text => if text = "" then runReader ⟨s.drop (chunkLen s),ending⟩
        else .line text :: runReader ⟨s.drop (chunkLen s),ending⟩ := by
  by_cases hline : 10 ∈ s
  · obtain ⟨line,rest,rfl,hno,hlen⟩ := chunkLen_of_mem hline
    have htake : (line ++ 10 :: rest).take (chunkLen (line ++ 10 :: rest)) = line ++ [10] := by
      rw [hlen,List.take_length_add_append]
      rfl
    have hdrop : (line ++ 10 :: rest).drop (chunkLen (line ++ 10 :: rest)) = rest := by
      rw [hlen,List.drop_length_add_append]
      rfl
    have hframes : Output.frames ⟨line ++ 10 :: rest,ending⟩ =
        (line ++ [10]) :: Output.frames ⟨rest,ending⟩ := by
      unfold Output.frames
      simp only [frames_line hno]
      cases ending with
      | eof =>
        simp only
        split
        · rfl
        · rfl
      | ioError => rfl
    rw [htake,hdrop]
    unfold runReader
    simp only [hframes,frames_line hno]
    cases ending with
    | eof => rfl
    | ioError => rfl
  · have hend := h.resolve_left hline
    subst hend
    rw [chunkLen_of_notMem hline,List.take_length,List.drop_length]
    unfold runReader Output.frames
    simp only [frames_of_notMem hline,if_neg hs]
    rfl

theorem runReader_ioError {s : List UInt8} (h : 10 ∉ s) :
    runReader ⟨s,.ioError⟩ =
      [.closed (if s.length > maxLineBytes then .lineTooLong else .ioError)] := by
  unfold runReader Output.frames
  simp only [frames_of_notMem h]
  rfl

theorem chunkLen_pos {s : List UInt8} (h : s ≠ []) : 0 < chunkLen s := by
  cases s with
  | nil => exact absurd rfl h
  | cons byte rest =>
    rw [chunkLen_cons]
    split <;> omega

theorem chunkLen_le (s : List UInt8) : chunkLen s ≤ s.length := by
  induction s with
  | nil => exact Nat.le_refl _
  | cons byte rest ih =>
    rw [chunkLen_cons,List.length_cons]
    split <;> omega

namespace BufReader

/-- A call gives the first piece of what is left, decoded, unless it is too long or the transport fails
before its end. -/
theorem readLineCapped_eq (max : Nat) (r : BufReader) :
    (max < chunkLen r.rest ∧ readLineCapped max r = .tooLong) ∨
    (chunkLen r.rest ≤ max ∧ 10 ∉ r.rest ∧ r.ending = .ioError ∧
      readLineCapped max r = .otherError) ∨
    (chunkLen r.rest ≤ max ∧ (10 ∈ r.rest ∨ r.ending = .eof) ∧ ∃ left,
      left.rest = r.rest.drop (chunkLen r.rest) ∧ left.ending = r.ending ∧
      readLineCapped max r = if r.rest = [] then .ok 0 "" left
        else match String.fromUTF8? (ByteArray.mk (r.rest.take (chunkLen r.rest)).toArray) with
          | none => .invalidData
          | some line => .ok line.utf8ByteSize line left) := by
  have hspec := takesLine_readBytes max r.ending r.reads r.buffer (List.not_mem_nil (a := 10))
    (Nat.zero_le _)
  change TakesLine max r.ending [] r.rest _ at hspec
  unfold readLineCapped
  by_cases hcap : max < chunkLen r.rest
  · left
    rw [hspec.tooLong hcap]
    exact ⟨hcap,rfl⟩
  · have hcap := Nat.le_of_not_lt hcap
    right
    by_cases hend : 10 ∈ r.rest ∨ r.ending = .eof
    · right
      obtain ⟨left,hok,hleft,hending⟩ := hspec.ok hcap hend
      refine ⟨hcap,hend,left,hleft,hending,?_⟩
      rw [hok]
      have hempty : r.rest.take (chunkLen r.rest) = [] ↔ r.rest = [] := by
        constructor
        · intro htake
          by_contra hne
          have hpos := chunkLen_pos hne
          have hle := chunkLen_le r.rest
          have hlen := congrArg List.length htake
          rw [List.length_take,List.length_nil] at hlen
          omega
        · intro hnil
          rw [hnil,List.take_nil]
      simp only [List.nil_append,hempty]
    · left
      rw [not_or] at hend
      have hio : r.ending = .ioError := by
        cases hr : r.ending with
        | eof => exact absurd hr hend.2
        | ioError => rfl
      rw [hspec.failed hcap hend.1 hio]
      exact ⟨hcap,hend.1,hio,rfl⟩

/-- A line that is read takes bytes off the stream. -/
theorem readLineCapped_lt {max : Nat} {r : BufReader} {bytes : Nat} {line : String} {left : BufReader}
    (h : readLineCapped max r = .ok bytes line left) (hbytes : bytes ≠ 0) :
    left.rest.length < r.rest.length := by
  obtain ⟨-,hr⟩ | ⟨-,-,-,hr⟩ | ⟨-,-,more,hmore,-,hr⟩ := readLineCapped_eq max r
  · rw [hr] at h
    cases h
  · rw [hr] at h
    cases h
  · rw [hr] at h
    split at h
    · cases h
      exact absurd rfl hbytes
    · next hne =>
      have hpos := chunkLen_pos hne
      have hle := chunkLen_le r.rest
      split at h
      · cases h
      · cases h
        rw [hmore,List.length_drop]
        omega

/-- The reader of a connection. -/
def runReader (r : BufReader) : List ConnectionInbound :=
  match h : readLineCapped maxLineBytes r with
  | .ok bytes line left =>
    if hbytes : bytes = 0 then [.closed .eof]
    else
      have := readLineCapped_lt h hbytes
      let line := String.ofList (line.toList.rdropWhile fun c => c = '\n' ∨ c = '\r')
      if line = "" then runReader left else .line line :: runReader left
  | .tooLong => [.closed .lineTooLong]
  | .invalidData => [.closed .invalidUtf8]
  | .otherError => [.closed .ioError]
termination_by r.rest.length

theorem utf8ByteSize_of_fromUTF8? {bytes : List UInt8} {line : String}
    (h : String.fromUTF8? (ByteArray.mk bytes.toArray) = some line) :
    line.utf8ByteSize = bytes.length := by
  unfold String.fromUTF8? at h
  split at h
  · cases h
    rfl
  · cases h

theorem runReader_def (r : BufReader) :
    runReader r = match readLineCapped maxLineBytes r with
      | .ok bytes line left =>
        if bytes = 0 then [.closed .eof]
        else
          let line := String.ofList (line.toList.rdropWhile fun c => c = '\n' ∨ c = '\r')
          if line = "" then runReader left else .line line :: runReader left
      | .tooLong => [.closed .lineTooLong]
      | .invalidData => [.closed .invalidUtf8]
      | .otherError => [.closed .ioError] := by
  rw [runReader.eq_def]
  split
  · next h => simp only [h,dite_eq_ite]
  · next h => rw [h]
  · next h => rw [h]
  · next h => rw [h]

/-- However the transport splits the stream, the reader sends what the pieces of the stream say. -/
theorem runReader_eq (r : BufReader) : runReader r = Ncp.runReader ⟨r.rest,r.ending⟩ := by
  rw [runReader_def]
  obtain ⟨hcap,hr⟩ | ⟨hcap,hline,hio,hr⟩ | ⟨hcap,hend,left,hleft,hending,hr⟩ :=
    readLineCapped_eq maxLineBytes r
  · rw [hr]
    by_cases hend : 10 ∈ r.rest ∨ r.ending = .eof
    · have hne : r.rest ≠ [] := by
        intro hnil
        rw [hnil] at hcap
        exact absurd hcap (Nat.not_lt_zero _)
      have hlong : (r.rest.take (chunkLen r.rest)).length > maxLineBytes := by
        have := chunkLen_le r.rest
        rw [List.length_take]
        omega
      rw [runReader_chunk hne hend,readLine,if_pos hlong]
    · rw [not_or] at hend
      have hio : r.ending = .ioError := by
        cases hr : r.ending with
        | eof => exact absurd hr hend.2
        | ioError => rfl
      rw [chunkLen_of_notMem hend.1] at hcap
      rw [hio,runReader_ioError hend.1,if_pos hcap]
  · rw [hr,hio,runReader_ioError hline]
    rw [chunkLen_of_notMem hline] at hcap
    rw [if_neg (Nat.not_lt.mpr hcap)]
  · rw [hr]
    by_cases hnil : r.rest = []
    · have heof : r.ending = .eof := hend.resolve_left (by rw [hnil]; exact List.not_mem_nil)
      rw [if_pos hnil,hnil,heof]
      rfl
    · have hpos := chunkLen_pos hnil
      have hle := chunkLen_le r.rest
      have hshort : ¬(r.rest.take (chunkLen r.rest)).length > maxLineBytes := by
        rw [List.length_take]
        omega
      rw [if_neg hnil,runReader_chunk hnil hend,readLine,if_neg hshort]
      cases hline : String.fromUTF8? (ByteArray.mk (r.rest.take (chunkLen r.rest)).toArray) with
      | none => rfl
      | some line =>
        have hbytes : line.utf8ByteSize ≠ 0 := by
          rw [utf8ByteSize_of_fromUTF8? hline,List.length_take]
          omega
        have hlt : left.rest.length < r.rest.length := by
          rw [hleft,List.length_drop]
          omega
        simp only [if_neg hbytes]
        rw [runReader_eq left,hleft,hending]
termination_by r.rest.length

end BufReader
/-! Frames that were admitted. -/

/-- Only the line feed has its byte in its encoding. -/
theorem eq_lf_of_mem_utf8EncodeChar {c : Char} (h : 10 ∈ String.utf8EncodeChar c) : c = '\n' := by
  have hbyte : ∀ n, UInt8.ofNat n = 10 → n % 256 = 10 := by
    intro n hn
    have := congrArg UInt8.toNat hn
    rwa [UInt8.toNat_ofNat'] at this
  have hval : ∀ n, n = c.val.toNat → n = 10 := by
    intro n hn
    unfold String.utf8EncodeChar at h
    rw [← hn] at h
    simp only at h
    split at h
    · have := hbyte _ (List.mem_singleton.mp h).symm
      omega
    -- the bytes of a longer encoding are all at least 128
    · exfalso
      split at h
      · simp only [List.mem_cons,List.not_mem_nil,or_false] at h
        obtain h | h := h <;> have := hbyte _ h.symm <;> omega
      · split at h
        · simp only [List.mem_cons,List.not_mem_nil,or_false] at h
          obtain h | h | h := h <;> have := hbyte _ h.symm <;> omega
        · simp only [List.mem_cons,List.not_mem_nil,or_false] at h
          obtain h | h | h | h := h <;> have := hbyte _ h.symm <;> omega
  apply Char.ext
  exact UInt32.toNat_inj.mp (hval _ rfl)

theorem utf8_eq (s : String) : utf8 s = s.toList.flatMap String.utf8EncodeChar := by
  unfold utf8
  rw [← String.utf8Encode_toList,List.utf8Encode,List.data_toByteArray]

theorem utf8_push_lf (s : String) : utf8 (s.push '\n') = utf8 s ++ [10] := by
  rw [utf8_eq,utf8_eq,String.toList_push,List.flatMap_append]
  rfl

theorem lf_notMem_utf8 {s : String} (h : '\n' ∉ s.toList) : 10 ∉ utf8 s := by
  intro hmem
  rw [utf8_eq,List.mem_flatMap] at hmem
  obtain ⟨c,hc,hbyte⟩ := hmem
  rw [eq_lf_of_mem_utf8EncodeChar hbyte] at hc
  exact h hc

theorem fromUTF8?_utf8 (s : String) : String.fromUTF8? (ByteArray.mk (utf8 s).toArray) = some s := by
  unfold String.fromUTF8?
  exact dif_pos s.isValidUTF8

/-- Without line feeds only the carriage returns are trimmed. -/
theorem rdropWhile_of_notMem {text : List Char} (h : '\n' ∉ text) :
    text.rdropWhile (fun c => c = '\n' ∨ c = '\r') = text.rdropWhile (fun c => c = '\r') := by
  induction text using List.reverseRecOn with
  | nil => rfl
  | append_singleton text c ih =>
    rw [List.mem_append,List.mem_singleton,not_or] at h
    by_cases hc : c = '\r'
    · rw [List.rdropWhile_concat_pos _ _ _ (by simp [hc]),List.rdropWhile_concat_pos _ _ _ (by simp [hc])]
      exact ih h.1
    · rw [List.rdropWhile_concat_neg _ _ _ (by simp [hc,Ne.symm h.2]),
        List.rdropWhile_concat_neg _ _ _ (by simp [hc])]

/-- An admitted payload as it is read. -/
def trimReturns (payload : String) : String :=
  String.ofList (payload.toList.rdropWhile fun c => c = '\r')

/-- A line as it was sent, and its line feed, are read as the line without the carriage returns at its
end. -/
theorem readLine_utf8 {s : String} (h : '\n' ∉ s.toList) (hlen : s.utf8ByteSize + 1 ≤ maxLineBytes) :
    readLine (utf8 s ++ [10]) = .ok (trimReturns s) := by
  have hshort : ¬(utf8 s ++ [10]).length > maxLineBytes := by
    have : (utf8 s).length = s.utf8ByteSize := rfl
    rw [List.length_append,this]
    exact Nat.not_lt.mpr hlen
  rw [readLine,if_neg hshort,← utf8_push_lf,fromUTF8?_utf8]
  unfold trimReturns
  simp only [String.toList_push]
  rw [List.rdropWhile_concat_pos _ _ _ (by simp),rdropWhile_of_notMem h]

/-- What is admitted has no line feed, and fits on the wire with one. -/
theorem admitFrame_ok {payload admitted : String} (h : admitFrame payload = .ok admitted) :
    '\n' ∉ admitted.toList ∧ admitted.utf8ByteSize + 1 ≤ maxLineBytes := by
  unfold admitFrame at h
  simp only at h
  generalize (if payload.toList.getLast? = some '\n' then payload.toList.dropLast
    else payload.toList) = text at h
  by_cases hno : '\n' ∈ text
  · rw [if_pos hno] at h
    cases h
  · rw [if_neg hno] at h
    by_cases hlen : (String.ofList text).utf8ByteSize + 1 > maxLineBytes
    · rw [if_pos hlen] at h
      cases h
    · rw [if_neg hlen] at h
      cases h
      rw [String.toList_ofList]
      exact ⟨hno,Nat.le_of_not_lt hlen⟩

theorem admitted_fit {payloads admitted : List String}
    (h : List.Forall₂ (fun payload line => admitFrame payload = .ok line) payloads admitted) :
    ∀ line ∈ admitted, '\n' ∉ line.toList ∧ line.utf8ByteSize + 1 ≤ maxLineBytes := by
  induction h with
  | nil => exact List.forall_mem_nil _
  | cons hadmit _ ih => exact List.forall_mem_cons.mpr ⟨admitFrame_ok hadmit,ih⟩

/-- The admitted payloads on the wire. -/
def wire (admitted : List String) : List UInt8 := admitted.flatMap fun payload => utf8 (payload.push '\n')

/-- By induction on the payloads: each is the first piece of the stream that starts with it. -/
theorem runReader_wire {admitted : List String}
    (h : ∀ payload ∈ admitted, '\n' ∉ payload.toList ∧ payload.utf8ByteSize + 1 ≤ maxLineBytes) :
    runReader ⟨wire admitted,.eof⟩ =
      ((admitted.map trimReturns).filter (· ≠ "")).map .line ++ [.closed .eof] := by
  induction admitted with
  | nil => rfl
  | cons payload rest ih =>
    obtain ⟨hno,hlen⟩ := h payload List.mem_cons_self
    have hrest := ih fun other hmem => h other (List.mem_cons_of_mem _ hmem)
    have hwire : wire (payload :: rest) = utf8 payload ++ 10 :: wire rest := by
      unfold wire
      rw [List.flatMap_cons,utf8_push_lf,List.append_assoc]
      rfl
    have hchunk : chunkLen (wire (payload :: rest)) = (utf8 payload).length + 1 := by
      rw [hwire,chunkLen_append_of_notMem (lf_notMem_utf8 hno),chunkLen_cons,if_pos rfl]
    have hne : wire (payload :: rest) ≠ [] := by
      rw [hwire]
      simp
    rw [runReader_chunk hne (.inr rfl),hchunk,hwire,List.take_length_add_append,
      List.drop_length_add_append]
    change (match readLine (utf8 payload ++ [10]) with
      | .error reason => [ConnectionInbound.closed reason]
      | .ok text => if text = "" then runReader ⟨wire rest,.eof⟩
        else .line text :: runReader ⟨wire rest,.eof⟩) = _
    rw [readLine_utf8 hno hlen,hrest]
    by_cases hempty : trimReturns payload = ""
    · simp [hempty]
    · simp [hempty]

/-- Framing does not depend on the chunks, the end of the stream is sent once and last, and what was
admitted is read back. -/
theorem runReader_framing :
    (∀ reads ending, BufReader.runReader ⟨[],reads,ending⟩ =
      runReader ⟨reads.flatMap (·.val),ending⟩) ∧
    (∀ reads ending, ∃ (ls : List String) (reason : ReaderEnd),
      BufReader.runReader ⟨[],reads,ending⟩ = ls.map .line ++ [.closed reason]) ∧
    (∀ payloads admitted reads,
      List.Forall₂ (fun payload line => admitFrame payload = .ok line) payloads admitted →
      reads.flatMap (·.val) = wire admitted →
      BufReader.runReader ⟨[],reads,.eof⟩ =
        ((admitted.map trimReturns).filter (· ≠ "")).map .line ++ [.closed .eof]) := by
  have heq : ∀ reads ending, BufReader.runReader ⟨[],reads,ending⟩ =
      runReader ⟨reads.flatMap (·.val),ending⟩ := fun reads ending => BufReader.runReader_eq _
  refine ⟨heq,fun reads ending => ?_,fun payloads admitted reads hadmit hreads => ?_⟩
  · obtain ⟨ls,reason,hread,-⟩ := runReader_ends ⟨reads.flatMap (·.val),ending⟩
    exact ⟨ls,reason,by rw [heq,hread]⟩
  · rw [heq,hreads]
    exact runReader_wire (admitted_fit hadmit)

/-- Two payloads in three reads, the first of them with a line feed and a carriage return. -/
theorem runReader_framing_split :
    BufReader.runReader ⟨[],[⟨utf8 "hé\r\nth",by decide⟩,⟨utf8 "ere",by decide⟩,⟨[10],by decide⟩],.eof⟩ =
      [.line "hé",.line "there",.closed .eof] :=
  runReader_framing.2.2 ["hé\r\n","there"] ["hé\r","there"] _ (by decide) (by decide)

end Nefor.Ncp
