import Mathlib.Data.List.TakeDrop
import Mathlib.Algebra.Order.Ring.Nat
import Nefor.Utf8

/-! Positions in a text that is kept as bytes: a position is read as the text that starts there,
which it has only between two characters. -/
namespace Nefor.SourceText

/-- The number of bytes. -/
def byteLen (cs : List Char) : Nat := (cs.map Char.utf8Size).sum

def encode (cs : List Char) : List UInt8 := cs.flatMap String.utf8EncodeChar

/-- `text.get(pos..)`. -/
def suffix : List Char → Nat → Option (List Char)
  | cs, 0 => some cs
  | [], _ + 1 => none
  | c :: cs, pos + 1 => if c.utf8Size ≤ pos + 1 then suffix cs (pos + 1 - c.utf8Size) else none

/-- `text.as_bytes().get(pos)`. -/
def byteAt (text : List Char) (pos : Nat) : Option UInt8 := (encode text)[pos]?

/-- `text.get(pos..)?.chars().next()`. -/
def charAt (text : List Char) (pos : Nat) : Option Char := (suffix text pos).bind List.head?

/-- The characters that some bytes at the start of a text make. -/
def takeBytes : List Char → Nat → Option (List Char)
  | _, 0 => some []
  | [], _ + 1 => none
  | c :: cs, n + 1 =>
    if c.utf8Size ≤ n + 1 then (takeBytes cs (n + 1 - c.utf8Size)).map (c :: ·) else none

/-- `text.get(start..finish)`. -/
def slice (text : List Char) (start finish : Nat) : Option (List Char) :=
  (suffix text start).bind fun cs => takeBytes cs (finish - start)

/-- `text.find(pattern)`. -/
def find (pattern : List Char) : List Char → Option Nat
  | [] => if pattern <+: [] then some 0 else none
  | c :: cs => if pattern <+: c :: cs then some 0 else (find pattern cs).map (c.utf8Size + ·)

/-- `while pos < text.len() && p(bytes[pos]) { pos += 1 }`, for a number of rounds that is at least
the number of bytes left. -/
def skipBytes (text : List Char) (p : UInt8 → Bool) : Nat → Nat → Nat
  | 0, pos => pos
  | rounds + 1, pos =>
    match byteAt text pos with
    | some b => if p b then skipBytes text p rounds (pos + 1) else pos
    | none => pos

/-- `while let Some(c) = next_char(text, pos) { if !p(c) { break; } pos += c.len_utf8() }`. -/
def skipChars (text : List Char) (p : Char → Bool) : Nat → Nat → Nat
  | 0, pos => pos
  | rounds + 1, pos =>
    match charAt text pos with
    | some c => if p c then skipChars text p rounds (pos + c.utf8Size) else pos
    | none => pos

/-- The text from a position on. -/
def At (text : List Char) (pos : Nat) (rest : List Char) : Prop := ∃ before, text = before ++ rest ∧ pos = byteLen before

variable {text before rest w cs : List Char} {pos n : Nat} {c : Char}

@[simp] theorem byteLen_nil : byteLen [] = 0 := rfl

@[simp] theorem byteLen_cons : byteLen (c :: cs) = c.utf8Size + byteLen cs := by
  simp [byteLen]

@[simp] theorem byteLen_append : byteLen (w ++ rest) = byteLen w + byteLen rest := by
  simp [byteLen]

@[simp] theorem encode_nil : encode [] = [] := rfl

@[simp] theorem encode_cons : encode (c :: cs) = String.utf8EncodeChar c ++ encode cs := List.flatMap_cons

@[simp] theorem encode_append : encode (w ++ rest) = encode w ++ encode rest := List.flatMap_append

theorem length_encode : (encode cs).length = byteLen cs := by
  induction cs with
  | nil => rfl
  | cons c cs ih => rw [encode_cons,List.length_append,ih,byteLen_cons,String.length_utf8EncodeChar]

theorem byteLen_pos (h : w ≠ []) : 0 < byteLen w := by
  cases w with
  | nil => exact absurd rfl h
  | cons c w =>
    have hc := c.utf8Size_pos
    rw [byteLen_cons]
    omega

theorem suffix_append : suffix (before ++ rest) (byteLen before) = some rest := by
  induction before with
  | nil => cases rest <;> rfl
  | cons c before ih =>
    have hc := c.utf8Size_pos
    obtain ⟨n,hn⟩ : ∃ n, byteLen (c :: before) = n + 1 := ⟨byteLen (c :: before) - 1,by rw [byteLen_cons]; omega⟩
    rw [hn,List.cons_append,suffix,← hn,byteLen_cons,if_pos (by omega),Nat.add_sub_cancel_left]
    exact ih

theorem takeBytes_append : takeBytes (w ++ rest) (byteLen w) = some w := by
  induction w with
  | nil => cases rest <;> rfl
  | cons c w ih =>
    have hc := c.utf8Size_pos
    obtain ⟨n,hn⟩ : ∃ n, byteLen (c :: w) = n + 1 := ⟨byteLen (c :: w) - 1,by rw [byteLen_cons]; omega⟩
    rw [hn,List.cons_append,takeBytes,← hn,byteLen_cons,if_pos (by omega),Nat.add_sub_cancel_left,ih]
    rfl

/-! Positions. -/

theorem at_zero (text : List Char) : At text 0 text := ⟨[],rfl,rfl⟩

theorem At.advance (h : At text pos (w ++ rest)) : At text (pos + byteLen w) rest := by
  obtain ⟨before,rfl,rfl⟩ := h
  exact ⟨before ++ w,by simp,by simp⟩

theorem At.next (h : At text pos (c :: rest)) : At text (pos + c.utf8Size) rest := by
  have hone := At.advance (w := [c]) h
  simpa using hone

theorem At.suffix (h : At text pos rest) : suffix text pos = some rest := by
  obtain ⟨before,rfl,rfl⟩ := h
  exact suffix_append

theorem At.charAt (h : At text pos rest) : charAt text pos = rest.head? := by
  rw [SourceText.charAt,h.suffix]
  rfl

theorem At.slice (h : At text pos (w ++ rest)) : slice text pos (pos + byteLen w) = some w := by
  rw [SourceText.slice,h.suffix,Nat.add_sub_cancel_left]
  exact takeBytes_append

theorem At.byteLen (h : At text pos rest) : byteLen text = pos + byteLen rest := by
  obtain ⟨before,rfl,rfl⟩ := h
  exact byteLen_append

theorem At.byteAt (h : At text pos rest) (i : Nat) : byteAt text (pos + i) = (encode rest)[i]? := by
  obtain ⟨before,rfl,rfl⟩ := h
  rw [SourceText.byteAt,encode_append,List.getElem?_append_right (by rw [length_encode]; omega),length_encode,
    Nat.add_sub_cancel_left]

theorem At.lt_iff (h : At text pos rest) : pos < SourceText.byteLen text ↔ rest ≠ [] := by
  rw [h.byteLen]
  constructor
  · rintro hlt rfl
    simp at hlt
  · intro hne
    have hpos := byteLen_pos hne
    omega

/-! Bytes and characters. -/

/-- The byte of a character below 128. -/
def byte (c : Char) : UInt8 := UInt8.ofNat c.toNat

theorem utf8EncodeChar_ascii (h : c.toNat < 128) : String.utf8EncodeChar c = [byte c] := by
  unfold String.utf8EncodeChar
  simp only
  rw [if_pos (by change c.toNat ≤ 127; omega)]
  rfl

theorem byte_toNat (h : c.toNat < 128) : (byte c).toNat = c.toNat := by
  rw [byte,UInt8.toNat_ofNat']
  omega

theorem byte_inj {d : Char} (hc : c.toNat < 128) (hd : d.toNat < 128) : byte c = byte d ↔ c = d := by
  constructor
  · intro h
    have hn := congrArg UInt8.toNat h
    rw [byte_toNat hc,byte_toNat hd] at hn
    exact Char.ext (UInt32.toNat_inj.mp hn)
  · exact fun h => h ▸ rfl

/-- All bytes of another character are at least 128. -/
theorem le_of_mem_utf8EncodeChar {b : UInt8} (h : ¬ c.toNat < 128) (hb : b ∈ String.utf8EncodeChar c) : 128 ≤ b.toNat := by
  by_contra hlt
  have hone := utf8EncodeChar_eq (by omega) hb
  have hlen := congrArg List.length hone
  rw [String.length_utf8EncodeChar,List.length_singleton,Char.utf8Size_eq_one_iff] at hlen
  exact h (Nat.lt_succ_of_le (UInt32.le_iff_toNat_le.mp hlen))

theorem utf8Size_ascii (h : c.toNat < 128) : c.utf8Size = 1 := by
  rw [← String.length_utf8EncodeChar,utf8EncodeChar_ascii h,List.length_singleton]

/-- The byte at the start of a character. -/
theorem At.byteAt_cons (h : At text pos (c :: cs)) : SourceText.byteAt text pos = (String.utf8EncodeChar c).head? := by
  have hb := h.byteAt 0
  rw [Nat.add_zero,encode_cons] at hb
  rw [hb]
  cases he : String.utf8EncodeChar c with
  | nil =>
    have hlen := String.length_utf8EncodeChar c
    have hpos := c.utf8Size_pos
    rw [he,List.length_nil] at hlen
    omega
  | cons b bs => rfl

theorem At.byteAt_isSome (h : At text pos (c :: cs)) : (SourceText.byteAt text pos).isSome = true := by
  rw [h.byteAt_cons,List.isSome_head?,List.ne_nil_iff_length_pos,String.length_utf8EncodeChar]
  exact c.utf8Size_pos

theorem At.byteAt_ascii (h : At text pos (c :: cs)) (hc : c.toNat < 128) : SourceText.byteAt text pos = some (byte c) := by
  rw [h.byteAt_cons,utf8EncodeChar_ascii hc]
  rfl

theorem At.byteAt_nil (h : At text pos []) : SourceText.byteAt text pos = none := by
  have hb := h.byteAt 0
  rwa [Nat.add_zero,encode_nil,List.getElem?_nil] at hb

/-- A byte test that other characters fail. -/
def asciiTest (p : UInt8 → Bool) (c : Char) : Bool := decide (c.toNat < 128) && p (byte c)

/-- The bytes of a character are passed one by one. -/
theorem skipBytes_bytes {p : UInt8 → Bool} {bs : List UInt8} {rounds : Nat} (hbytes : ∀ i, (hi : i < bs.length) →
    byteAt text (pos + i) = some (bs[i])) (hp : ∀ b ∈ bs, p b = true) :
    skipBytes text p (bs.length + rounds) pos = skipBytes text p rounds (pos + bs.length) := by
  induction bs generalizing pos with
  | nil => simp
  | cons b bs ih =>
    obtain ⟨hb,hrest⟩ := List.forall_mem_cons.mp hp
    have hfirst := hbytes 0 (by simp)
    rw [Nat.add_zero,List.getElem_cons_zero] at hfirst
    rw [List.length_cons,show bs.length + 1 + rounds = bs.length + rounds + 1 by omega,skipBytes,hfirst]
    simp only [hb,if_true]
    rw [ih (fun i hi => ?_) hrest]
    · congr 1
      omega
    · have hnext := hbytes (i + 1) (by rw [List.length_cons]; omega)
      rw [List.getElem_cons_succ] at hnext
      rw [← hnext]
      congr 1
      omega

theorem At.skipBytes {p : UInt8 → Bool} {q : Char → Bool} {rounds : Nat} (h : At text pos rest)
    (hpass : ∀ c, q c = true → ∀ b ∈ String.utf8EncodeChar c, p b = true)
    (hstop : ∀ c, q c = false → ∀ b, (String.utf8EncodeChar c).head? = some b → p b = false)
    (hrounds : SourceText.byteLen rest ≤ rounds) :
    skipBytes text p rounds pos = pos + SourceText.byteLen (rest.takeWhile q) := by
  induction rest generalizing pos rounds with
  | nil =>
    cases rounds with
    | zero => rfl
    | succ rounds =>
      rw [SourceText.skipBytes,h.byteAt_nil]
      rfl
  | cons c rest ih =>
    rw [byteLen_cons] at hrounds
    cases hq : q c with
    | true =>
      obtain ⟨more,rfl⟩ : ∃ more, rounds = (String.utf8EncodeChar c).length + more :=
        ⟨rounds - c.utf8Size,by rw [String.length_utf8EncodeChar]; omega⟩
      rw [String.length_utf8EncodeChar] at hrounds
      rw [skipBytes_bytes (fun i hi => ?_) (hpass c hq),String.length_utf8EncodeChar,ih h.next (by omega),
        List.takeWhile_cons,if_pos hq,byteLen_cons]
      · omega
      · rw [h.byteAt,encode_cons,List.getElem?_append_left hi,List.getElem?_eq_getElem hi]
    | false =>
      have hsize := c.utf8Size_pos
      obtain ⟨more,rfl⟩ : ∃ more, rounds = more + 1 := ⟨rounds - 1,by omega⟩
      rw [SourceText.skipBytes,List.takeWhile_cons,if_neg (by simp [hq])]
      cases hb : SourceText.byteAt text pos with
      | none => rfl
      | some b =>
        rw [h.byteAt_cons] at hb
        simp [hstop c hq b hb]

theorem takeWhile_word {p : Char → Bool} (hw : ∀ c ∈ w, p c = true) (hnext : ∀ c, rest.head? = some c → p c = false) :
    (w ++ rest).takeWhile p = w := by
  rw [List.takeWhile_append_of_pos hw]
  cases rest with
  | nil => simp
  | cons c rest => simp [hnext c rfl]

theorem takeWhile_split (p : Char → Bool) (cs : List Char) : ∃ rest, cs = cs.takeWhile p ++ rest ∧
    (∀ c ∈ cs.takeWhile p, p c = true) ∧ ∀ c, rest.head? = some c → p c = false := by
  refine ⟨cs.dropWhile p,List.takeWhile_append_dropWhile.symm,List.all_eq_true.mp List.all_takeWhile,fun c hc => ?_⟩
  have hnot := List.head?_dropWhile_not p cs
  rw [hc] at hnot
  exact hnot

theorem At.skipChars {p : Char → Bool} {rounds : Nat} (h : At text pos rest) (hrounds : rest.length ≤ rounds) :
    skipChars text p rounds pos = pos + SourceText.byteLen (rest.takeWhile p) := by
  induction rest generalizing pos rounds with
  | nil =>
    cases rounds with
    | zero => rfl
    | succ rounds =>
      rw [SourceText.skipChars,h.charAt]
      rfl
  | cons c rest ih =>
    obtain ⟨more,rfl⟩ : ∃ more, rounds = more + 1 := ⟨rounds - 1,by rw [List.length_cons] at hrounds; omega⟩
    rw [List.length_cons] at hrounds
    rw [SourceText.skipChars,h.charAt,List.head?_cons,List.takeWhile_cons]
    simp only
    split
    · rw [ih h.next (by omega),byteLen_cons]
      omega
    · rfl

theorem length_le_byteLen : cs.length ≤ byteLen cs := by
  induction cs with
  | nil => exact Nat.le_refl 0
  | cons c cs ih =>
    have hc := c.utf8Size_pos
    rw [List.length_cons,byteLen_cons]
    omega

/-- A character that begins with a byte below 128. -/
theorem At.one_byte {b : UInt8} (h : At text pos (c :: cs)) (hb : SourceText.byteAt text pos = some b)
    (hlt : b.toNat < 128) : c.toNat < 128 ∧ byte c = b ∧ At text (pos + 1) cs := by
  have hascii : c.toNat < 128 := by
    by_contra hnot
    rw [h.byteAt_cons] at hb
    have hle := le_of_mem_utf8EncodeChar hnot (List.mem_of_mem_head? hb)
    omega
  have hnext := h.next
  rw [h.byteAt_ascii hascii] at hb
  rw [utf8Size_ascii hascii] at hnext
  exact ⟨hascii,Option.some.inj hb,hnext⟩

/-- A character that a byte below 128 stands for. -/
theorem At.head_eq {d : Char} (h : At text pos cs) (hb : SourceText.byteAt text pos = some (byte d)) (hd : d.toNat < 128) :
    ∃ ds, cs = d :: ds := by
  cases cs with
  | nil =>
    rw [h.byteAt_nil] at hb
    cases hb
  | cons c cs =>
    obtain ⟨hc,heq,-⟩ := h.one_byte hb (by rw [byte_toNat hd]; exact hd)
    rw [(byte_inj hc hd).mp heq]
    exact ⟨cs,rfl⟩

/-- A byte test that is false from 128 on stops at every other character. -/
theorem At.skipAscii {p : UInt8 → Bool} (h : At text pos rest) (hp : ∀ b : UInt8, 128 ≤ b.toNat → p b = false) :
    SourceText.skipBytes text p (SourceText.byteLen text) pos = pos + SourceText.byteLen (rest.takeWhile (asciiTest p)) := by
  apply h.skipBytes
  · intro c hc b hb
    obtain ⟨hascii,hpass⟩ := Bool.and_eq_true_iff.mp hc
    rw [utf8EncodeChar_ascii (of_decide_eq_true hascii),List.mem_singleton] at hb
    rw [hb]
    exact hpass
  · intro c hc b hb
    by_cases hascii : c.toNat < 128
    · rw [utf8EncodeChar_ascii hascii,List.head?_cons,Option.some.injEq] at hb
      simpa [asciiTest,hascii,hb] using hc
    · exact hp b (le_of_mem_utf8EncodeChar hascii (List.mem_of_mem_head? hb))
  · rw [h.byteLen]
    omega

/-! Lines. -/

theorem At.skipLine (h : At text pos (cs ++ rest)) (hcs : '\n' ∉ cs) (hnext : ∀ c, rest.head? = some c → c = '\n') :
    SourceText.skipBytes text (fun b => b != byte '\n') (SourceText.byteLen text) pos = pos + SourceText.byteLen cs := by
  have hline : (cs ++ rest).takeWhile (fun c => c != '\n') = cs := by
    apply takeWhile_word
    · intro c hc
      simp only [bne_iff_ne,ne_eq]
      rintro rfl
      exact hcs hc
    · intro c hc
      simp [hnext c hc]
  rw [h.skipBytes (q := fun c => c != '\n') (fun c hc b hb => ?_) (fun c hc b hb => ?_) (by rw [h.byteLen]; omega),hline]
  · simp only [bne_iff_ne,ne_eq] at hc ⊢
    rintro rfl
    by_cases hascii : c.toNat < 128
    · rw [utf8EncodeChar_ascii hascii,List.mem_singleton,byte_inj (by decide) hascii] at hb
      exact hc hb.symm
    · have hle := le_of_mem_utf8EncodeChar hascii hb
      revert hle
      decide
  · obtain rfl : c = '\n' := by simpa using hc
    rw [utf8EncodeChar_ascii (by decide),List.head?_cons,Option.some.injEq] at hb
    simp [← hb]

theorem line_split (cs : List Char) : ∃ line rest, cs = line ++ rest ∧ '\n' ∉ line ∧
    ∀ c, rest.head? = some c → c = '\n' := by
  obtain ⟨rest,hcs,hline,hnext⟩ := takeWhile_split (fun c => c != '\n') cs
  refine ⟨_,rest,hcs,fun hmem => ?_,fun c hc => ?_⟩
  · simpa using hline _ hmem
  · simpa using hnext c hc

/-! Search. -/

/-- No occurrence of the pattern starts in the text, when the pattern follows it. -/
def Free (pattern body : List Char) : Prop := ∀ a b, body = a ++ b → b ≠ [] → ¬ pattern <+: b ++ pattern

theorem free_cons {pattern body : List Char} :
    Free pattern (c :: body) ↔ ¬ pattern <+: c :: body ++ pattern ∧ Free pattern body := by
  constructor
  · intro h
    refine ⟨h [] (c :: body) rfl (by simp),fun a b hab hb => ?_⟩
    exact h (c :: a) b (by rw [hab]; rfl) hb
  · rintro ⟨hfirst,hrest⟩ a b hab hb
    cases a with
    | nil =>
      rw [List.nil_append] at hab
      rwa [← hab]
    | cons d a => exact hrest a b (List.cons_eq_cons.mp hab).2 hb

/-- An occurrence that starts before a pattern lies in the text up to the end of that pattern. -/
theorem prefix_of_append {pattern a b : List Char} : pattern <+: a ++ pattern ++ b ↔ pattern <+: a ++ pattern := by
  constructor
  · intro h
    exact List.prefix_of_prefix_length_le h (List.prefix_append _ _) (by simp)
  · intro h
    exact h.trans (List.prefix_append _ _)

theorem find_sound {pattern : List Char} (h : find pattern cs = some n) :
    ∃ body rest, cs = body ++ pattern ++ rest ∧ n = byteLen body ∧ Free pattern body := by
  have hfree : Free pattern [] := fun a b hab hb => absurd (List.append_eq_nil_iff.mp hab.symm).2 hb
  induction cs generalizing n with
  | nil =>
    unfold find at h
    split at h
    · rename_i hp
      exact ⟨[],[],by simp [List.prefix_nil.mp hp],(Option.some.inj h).symm,hfree⟩
    · cases h
  | cons c cs ih =>
    unfold find at h
    split at h
    · rename_i hp
      obtain ⟨rest,hrest⟩ := hp
      exact ⟨[],rest,by simp [hrest],(Option.some.inj h).symm,hfree⟩
    · rename_i hp
      obtain ⟨m,hm,rfl⟩ := Option.map_eq_some_iff.mp h
      obtain ⟨body,rest,rfl,rfl,hbody⟩ := ih hm
      refine ⟨c :: body,rest,by simp,by simp,free_cons.mpr ⟨fun hpre => hp ?_,hbody⟩⟩
      have hwhole := (prefix_of_append (a := c :: body) (b := rest)).mpr hpre
      simpa using hwhole

theorem find_free {pattern body : List Char} (hpattern : pattern ≠ []) (h : Free pattern body) :
    find pattern (body ++ pattern ++ rest) = some (byteLen body) := by
  induction body with
  | nil =>
    cases pattern with
    | nil => exact absurd rfl hpattern
    | cons p pattern =>
      rw [List.nil_append,List.cons_append,find,if_pos]
      · rfl
      · exact List.prefix_append (p :: pattern) rest
  | cons c body ih =>
    obtain ⟨hfirst,hbody⟩ := free_cons.mp h
    rw [List.cons_append,List.cons_append,find,if_neg,ih hbody]
    · simp
    · intro hpre
      apply hfirst
      rw [← prefix_of_append (b := rest)]
      simpa using hpre

/-! Tokens in a text. -/

/-- The bytes of a token. -/
structure Span where
  start : Nat
  finish : Nat
  deriving DecidableEq, Repr

/-- Nothing but blanks and comments up to the end of their lines. -/
inductive Gap (blank : Char → Bool) (comment : List Char) : List Char → Option Char → Prop
  | nil {next : Option Char} : Gap blank comment [] next
  | blank {c : Char} {g : List Char} {next : Option Char} : blank c = true → Gap blank comment g next →
    Gap blank comment (c :: g) next
  | comment {cs g : List Char} {next : Option Char} : '\n' ∉ cs → (∀ c, g.head?.or next = some c → c = '\n') →
    Gap blank comment g next → Gap blank comment (comment ++ cs ++ g) next

/-- The spans of some words of the text from a position on, with gaps between them. -/
inductive Laid (gap : List Char → Option Char → Prop) : Nat → List Char → List Span → Prop
  | nil {pos : Nat} {g : List Char} : gap g none → Laid gap pos g []
  | cons {pos : Nat} {g w rest : List Char} {spans : List Span} : gap g (w ++ rest).head? →
    Laid gap (pos + byteLen g + byteLen w) rest spans →
    Laid gap pos (g ++ w ++ rest) (⟨pos + byteLen g,pos + byteLen g + byteLen w⟩ :: spans)

section
variable {gap : List Char → Option Char → Prop} {spans : List Span} {g : List Char}

theorem Laid.start_le (h : Laid gap pos cs spans) : ∀ span ∈ spans, pos ≤ span.start ∧ span.start ≤ span.finish := by
  induction h with
  | nil _ => simp
  | cons _ _ ih =>
    refine List.forall_mem_cons.mpr ⟨⟨by simp,by simp⟩,fun span hspan => ?_⟩
    have hrest := ih span hspan
    exact ⟨by omega,hrest.2⟩

/-- The spans are disjoint and increase. -/
theorem Laid.pairwise (h : Laid gap pos cs spans) : spans.Pairwise fun a b => a.finish ≤ b.start := by
  induction h with
  | nil _ => exact .nil
  | cons _ hlaid ih => exact .cons (fun span hspan => (hlaid.start_le span hspan).1) ih

/-- The spans lie between characters. -/
theorem Laid.slice (h : Laid gap pos cs spans) (hat : At text pos cs) :
    ∀ span ∈ spans, (slice text span.start span.finish).isSome = true := by
  induction h with
  | nil _ => simp
  | @cons pos g w rest spans _ _ ih =>
    rw [List.append_assoc] at hat
    have hword := hat.advance
    refine List.forall_mem_cons.mpr ⟨?_,ih hword.advance⟩
    rw [hword.slice]
    rfl

theorem Laid.prepend (hgap : ∀ g' next, gap g' next → g'.head?.or next = cs.head? → gap (g ++ g') next)
    (h : Laid gap (pos + byteLen g) cs spans) : Laid gap pos (g ++ cs) spans := by
  cases h with
  | nil h =>
    apply Laid.nil
    exact hgap _ _ h Option.or_none
  | @cons _ g' w rest spans h hlaid =>
    have hhead : g'.head?.or (w ++ rest).head? = (g' ++ w ++ rest).head? := by
      rw [List.append_assoc]
      exact List.head?_append.symm
    have hcons := @Laid.cons _ pos (g ++ g') w rest spans (hgap _ _ h hhead)
    simp only [byteLen_append,List.append_assoc,← Nat.add_assoc] at hcons ⊢
    exact hcons hlaid

theorem Laid.token {gap : List Char → Option Char → Prop} (hgap : ∀ next, gap [] next)
    (h : Laid gap (pos + byteLen w) cs spans) : Laid gap pos (w ++ cs) (⟨pos,pos + byteLen w⟩ :: spans) := by
  have hcons := @Laid.cons _ pos [] w cs spans (hgap _)
  simpa using hcons h

theorem Laid.blank {blank : Char → Bool} {comment : List Char} (hblank : blank c = true)
    (h : Laid (Gap blank comment) (pos + c.utf8Size) cs spans) : Laid (Gap blank comment) pos (c :: cs) spans := by
  apply Laid.prepend (g := [c])
  · exact fun g' next hg _ => .blank hblank hg
  · simpa using h

theorem Laid.comment {blank : Char → Bool} {comment body : List Char} (hbody : '\n' ∉ body)
    (hend : ∀ c, cs.head? = some c → c = '\n')
    (h : Laid (Gap blank comment) (pos + byteLen (comment ++ body)) cs spans) :
    Laid (Gap blank comment) pos (comment ++ body ++ cs) spans := by
  apply Laid.prepend
  · exact fun g' next hg hhead => .comment hbody (by rwa [hhead]) hg
  · exact h

/-- Spans that are disjoint, increase and lie between characters, with nothing but gaps around them. -/
structure Covers (gap : List Char → Option Char → Prop) (text : List Char) (spans : List Span) : Prop where
  disjoint : spans.Pairwise fun a b => a.finish ≤ b.start
  boundary : ∀ span ∈ spans, (SourceText.slice text span.start span.finish).isSome = true
  laid : Laid gap 0 text spans

theorem Laid.covers {gap : List Char → Option Char → Prop} (h : Laid gap 0 text spans) : Covers gap text spans :=
  ⟨h.pairwise,h.slice (at_zero text),h⟩

end

end Nefor.SourceText
