import Nefor.Mag.LexerReads
import Nefor.Mag.NewSyntax

/-! Every round of the tokenizer takes a part of the text: a blank, a comment or the text of a
token, or it reports an error. -/
namespace Nefor.Mag.NewSyntax
open SourceText
open Lexer (LexError Literal slice_at parseI64 parseI64_literal)

variable {F : Type} {parseFloat : List Char → Option F} {text rest cs : List Char} {cursor start : Nat} {c : Char}
  {b : UInt8}

/-- A part of the text makes a token. -/
structure Makes (start : Nat) (w : List Char) (token : Token F) : Prop where
  nonempty : w ≠ []
  span : token.span = ⟨start,start + byteLen w⟩
  literal : ∀ n, token.kind = .int n → Literal w n

/-- A token is made from the text at a position, or an error is reported. -/
def Lexes (start : Nat) (rest : List Char) (x : Except LexError (Token F × Nat)) : Prop :=
  (∃ d, x = .error (.diagnostic d)) ∨
    ∃ token w rest', rest = w ++ rest' ∧ x = .ok (token,start + byteLen w) ∧ Makes start w token

/-- A token other than an integer. -/
theorem Lexes.other {w : List Char} {kind : TokenKind F} {x : Except LexError (Token F × Nat)} (hne : w ≠ [])
    (hx : x = .ok (⟨kind,⟨start,start + byteLen w⟩⟩,start + byteLen w)) (hkind : ∀ n, kind ≠ .int n) :
    Lexes start (w ++ rest) x :=
  .inr ⟨_,w,rest,rfl,hx,hne,rfl,fun n hn => absurd hn (hkind n)⟩

theorem isByteOf_iff {chars : List Char} (hascii : ∀ d ∈ chars, d.toNat < 128) :
    isByteOf chars b = true ↔ ∃ d ∈ chars, d.toNat < 128 ∧ b = byte d := by
  unfold isByteOf
  rw [List.contains_iff_mem,List.mem_map]
  constructor
  · intro h
    obtain ⟨d,hd,rfl⟩ := h
    exact ⟨d,hd,hascii d hd,rfl⟩
  · intro h
    obtain ⟨d,hd,-,rfl⟩ := h
    exact ⟨d,hd,rfl⟩

/-- The character of a byte that is one of some characters. -/
theorem of_isByteOf {chars : List Char} (h : At text start (c :: cs)) (hb : byteAt text start = some b)
    (hascii : ∀ d ∈ chars, d.toNat < 128) (hof : isByteOf chars b = true) : c ∈ chars ∧ At text (start + 1) cs := by
  obtain ⟨d,hd,hlt,rfl⟩ := (isByteOf_iff hascii).mp hof
  obtain ⟨hc,heq,hafter⟩ := h.one_byte hb (by rw [byte_toNat hlt]; exact hlt)
  rw [(byte_inj hc hlt).mp heq]
  exact ⟨hd,hafter⟩

theorem of_byte {d : Char} (h : At text start (c :: cs)) (hb : byteAt text start = some b) (hd : d.toNat < 128)
    (heq : b = byte d) : c = d ∧ At text (start + 1) cs := by
  rw [heq] at hb
  obtain ⟨hc,hbyte,hafter⟩ := h.one_byte hb (by rw [byte_toNat hd]; exact hd)
  exact ⟨(byte_inj hc hd).mp hbyte,hafter⟩

theorem isDigitByte_large (b : UInt8) (h : 128 ≤ b.toNat) : isDigitByte b = false := by
  simp only [isDigitByte,Bool.and_eq_false_iff,decide_eq_false_iff_not]
  omega

theorem isIdentByte_large (b : UInt8) (h : 128 ≤ b.toNat) : isIdentByte b = false := by
  have hne : ∀ d : UInt8, d.toNat < 128 → (b == d) = false := by
    intro d hd
    rw [beq_eq_false_iff_ne]
    rintro rfl
    omega
  have halpha : isAlphaByte b = false := by
    simp only [isAlphaByte,Bool.or_eq_false_iff,Bool.and_eq_false_iff,decide_eq_false_iff_not]
    omega
  rw [isIdentByte,halpha,isDigitByte_large b h,hne _ (by decide),hne _ (by decide)]
  rfl

theorem asciiTest_isDigitByte : asciiTest isDigitByte c = c.isDigit := by
  rw [Bool.eq_iff_iff]
  simp only [asciiTest,isDigitByte,Char.isDigit,Bool.and_eq_true,decide_eq_true_eq,UInt32.le_iff_toNat_le]
  have h48 : '0'.val.toNat = 48 := rfl
  have h57 : '9'.val.toNat = 57 := rfl
  have hc : c.toNat = c.val.toNat := rfl
  constructor
  · intro h
    obtain ⟨hlt,hlow,hhigh⟩ := h
    rw [byte_toNat hlt] at hlow hhigh
    omega
  · intro h
    have hlt : c.toNat < 128 := by omega
    rw [byte_toNat hlt]
    omega

/-! Strings. -/

theorem lexStringFrom_lexes {value : List Char} {rounds : Nat} (h : At text cursor rest) (hrounds : rest.length < rounds) :
    (∃ d, lexStringFrom (F := F) text start rounds value cursor = .error (.diagnostic d)) ∨
      ∃ value' w rest', rest = w ++ rest' ∧ lexStringFrom (F := F) text start rounds value cursor =
        .ok (⟨.string value',⟨start,cursor + byteLen w⟩⟩,cursor + byteLen w) := by
  induction rounds using Nat.strongRecOn generalizing cursor rest value with
  | _ rounds ih =>
    obtain ⟨more,rfl⟩ : ∃ more, rounds = more + 1 := ⟨rounds - 1,by omega⟩
    unfold lexStringFrom
    cases rest with
    | nil =>
      rw [if_neg fun hlt => h.lt_iff.mp hlt rfl]
      exact .inl ⟨_,rfl⟩
    | cons c rest =>
      rw [List.length_cons] at hrounds
      have hchar : nextChar text cursor = .ok (c,cursor + c.utf8Size) := by
        rw [nextChar,h.suffix]
        rfl
      rw [if_pos (h.lt_iff.mpr (by simp)),hchar]
      simp only [bind,Except.bind]
      split
      · refine .inr ⟨value,[c],rest,rfl,?_⟩
        simp
      · split
        · exact .inl ⟨_,rfl⟩
        · split
          · split
            · exact .inl ⟨_,rfl⟩
            · rename_i hafter
              cases rest with
              | nil =>
                have hlen := h.next.byteLen
                rw [byteLen_nil] at hlen
                omega
              | cons e rest =>
                rw [List.length_cons] at hrounds
                have hescaped : nextChar text (cursor + c.utf8Size) = .ok (e,cursor + c.utf8Size + e.utf8Size) := by
                  rw [nextChar,h.next.suffix]
                  rfl
                rw [hescaped]
                simp only
                split
                · obtain hd | ⟨value',w,rest',rfl,hok⟩ := ih more (by omega) h.next.next (by omega)
                  · exact .inl hd
                  · refine .inr ⟨value',c :: e :: w,rest',rfl,?_⟩
                    rw [hok,byteLen_cons,byteLen_cons]
                    simp only [Nat.add_assoc]
                · exact .inl ⟨_,rfl⟩
          · obtain hd | ⟨value',w,rest',rfl,hok⟩ := ih more (by omega) h.next (by omega)
            · exact .inl hd
            · refine .inr ⟨value',c :: w,rest',rfl,?_⟩
              rw [hok,byteLen_cons,Nat.add_assoc]

theorem lexString_lexes (h : At text start ('"' :: cs)) : Lexes (F := F) start ('"' :: cs) (lexString text start) := by
  have hafter : At text (start + 1) cs := At.next h
  unfold lexString startsWith
  rw [h.suffix]
  simp only [bind,Except.bind]
  split
  · rename_i hquotes
    obtain ⟨more,hmore⟩ := of_decide_eq_true hquotes
    have hbody : At text (start + 3) more := by
      rw [← hmore] at h
      exact h.advance
    rw [hbody.suffix]
    simp only
    cases hfind : find Lexer.quotes more with
    | none => exact .inl ⟨_,rfl⟩
    | some n =>
      obtain ⟨body,rest,rfl,rfl,-⟩ := find_sound hfind
      rw [List.append_assoc] at hbody
      have hthree : byteLen Lexer.quotes = 3 := by decide
      have hword : start + byteLen (Lexer.quotes ++ (body ++ Lexer.quotes)) = start + 3 + byteLen body + 3 := by
        rw [byteLen_append,byteLen_append,hthree]
        omega
      rw [← hmore,← List.append_assoc]
      apply Lexes.other (by simp [Lexer.quotes])
      · simp only [slice_at hbody]
        rw [hword]
      · simp
  · have hrounds : cs.length < byteLen text + 1 := by
      have hlen := hafter.byteLen
      have hle := @length_le_byteLen cs
      omega
    obtain hd | ⟨value,w,rest,rfl,hok⟩ := @lexStringFrom_lexes F _ _ _ start [] _ hafter hrounds
    · exact .inl hd
    · have hword : start + byteLen ('"' :: w) = start + 1 + byteLen w := by
        rw [byteLen_cons,show Char.utf8Size '"' = 1 by decide,Nat.add_assoc]
      rw [← List.cons_append]
      apply Lexes.other (by simp)
      · rw [hok,hword]
      · simp

/-! Names. -/

theorem backtickEnd_ends {rounds : Nat} (h : At text cursor rest) (hrounds : rest.length < rounds) :
    (∃ d, backtickEnd text start rounds cursor = .error (.diagnostic d)) ∨
      ∃ w rest', rest = w ++ rest' ∧ backtickEnd text start rounds cursor = .ok (cursor + byteLen w) ∧
        (rest' = [] ∨ byteAt text (cursor + byteLen w) = some backtick) := by
  induction rounds generalizing cursor rest with
  | zero => omega
  | succ rounds ih =>
    unfold backtickEnd
    cases rest with
    | nil =>
      rw [h.byteAt_nil]
      exact .inr ⟨[],[],rfl,rfl,.inl rfl⟩
    | cons c rest =>
      rw [List.length_cons] at hrounds
      cases hb : byteAt text cursor with
      | none =>
        have hsome := h.byteAt_isSome
        rw [hb] at hsome
        cases hsome
      | some b =>
        simp only
        split
        · rename_i heq
          refine .inr ⟨[],c :: rest,rfl,rfl,.inr ?_⟩
          rw [← heq]
          exact hb
        · split
          · exact .inl ⟨_,rfl⟩
          · rw [h.suffix]
            simp only [List.head?_cons,Option.map_some,Option.getD_some]
            obtain hd | ⟨w,rest',rfl,hok,hend⟩ := ih h.next (by omega)
            · exact .inl hd
            · refine .inr ⟨c :: w,rest',rfl,?_,?_⟩
              · rw [hok,byteLen_cons,Nat.add_assoc]
              · rw [byteLen_cons,← Nat.add_assoc]
                exact hend

theorem lexBacktick_lexes (h : At text start (c :: cs)) (hb : byteAt text start = some backtick) :
    Lexes (F := F) start (c :: cs) (lexBacktick text start) := by
  obtain ⟨hc,-,hafter⟩ := h.one_byte hb (by decide)
  have hsize := utf8Size_ascii hc
  have hrounds : cs.length < byteLen text + 1 := by
    have hlen := hafter.byteLen
    have hle := @length_le_byteLen cs
    omega
  unfold lexBacktick
  obtain ⟨d,hd⟩ | ⟨w,rest,rfl,hok,hend⟩ := @backtickEnd_ends _ _ _ start _ hafter hrounds
  · rw [hd]
    exact .inl ⟨d,rfl⟩
  · rw [hok]
    simp only [bind,Except.bind]
    split
    · exact .inl ⟨_,rfl⟩
    · rename_i hne
      split
      · exact .inl ⟨_,rfl⟩
      · have hclose := hafter.advance
        cases rest with
        | nil =>
          have hlen := hclose.byteLen
          rw [byteLen_nil,Nat.add_zero] at hlen
          exact absurd hlen.symm hne
        | cons e rest =>
          obtain ⟨he,-,-⟩ := hclose.one_byte (hend.resolve_left (by simp)) (by decide)
          have hlast := utf8Size_ascii he
          have hword : start + byteLen (c :: w ++ [e]) = start + 1 + byteLen w + 1 := by
            rw [byteLen_append,byteLen_cons,byteLen_cons,byteLen_nil,hsize,hlast]
            omega
          rw [slice_at hafter,← List.singleton_append (l := rest),← List.cons_append,← List.append_assoc]
          apply Lexes.other (by simp)
          · rw [hword]
          · simp

theorem isAlphaByte_lt (h : isAlphaByte b = true) : b.toNat < 128 := by
  simp only [isAlphaByte,Bool.or_eq_true,Bool.and_eq_true,decide_eq_true_eq] at h
  omega

theorem lexIdent_lexes (h : At text start (c :: cs)) (hb : byteAt text start = some b) (hlt : b.toNat < 128) :
    Lexes (F := F) start (c :: cs) (lexIdent text start) := by
  obtain ⟨hc,-,hafter⟩ := h.one_byte hb hlt
  obtain ⟨rest,hcs,-,-⟩ := takeWhile_split (asciiTest isIdentByte) cs
  have hword : start + byteLen (c :: cs.takeWhile (asciiTest isIdentByte)) =
      start + 1 + byteLen (cs.takeWhile (asciiTest isIdentByte)) := by
    rw [byteLen_cons,utf8Size_ascii hc,Nat.add_assoc]
  have hslice : Lexer.slice text start (start + byteLen (c :: cs.takeWhile (asciiTest isIdentByte))) =
      .ok (c :: cs.takeWhile (asciiTest isIdentByte)) := by
    apply @slice_at _ rest _ _
    rw [List.cons_append,← hcs]
    exact h
  unfold lexIdent
  rw [hafter.skipAscii isIdentByte_large,← hword]
  simp only [hslice]
  have hsplit : c :: cs = c :: cs.takeWhile (asciiTest isIdentByte) ++ rest := by
    rw [List.cons_append,← hcs]
  rw [hsplit]
  exact Lexes.other (by simp) rfl (by simp)

/-! Numbers. -/

/-- The number goes on from the position after its sign. -/
theorem numberEnd_ends {signed : Bool} {first : Nat} (hfirst : (if signed then start + 1 else start) = first)
    (h : At text first rest) : ∃ w rest', rest = w ++ rest' ∧
      (numberEnd text start signed = (first + byteLen w,false) ∧ (∀ c ∈ w, c.isDigit = true) ∧
        (∀ c, rest'.head? = some c → c.isDigit = false) ∨
      numberEnd text start signed = (first + byteLen w,true) ∧ w ≠ []) := by
  have hfun : asciiTest isDigitByte = Char.isDigit := by
    funext c
    exact asciiTest_isDigitByte
  obtain ⟨rest',hrest,hd,hnext⟩ := takeWhile_split Char.isDigit rest
  have hskip := h.skipAscii isDigitByte_large
  rw [hfun] at hskip
  unfold numberEnd
  rw [hfirst,hskip]
  simp only
  split
  · rename_i hpoint
    simp only [Bool.and_eq_true,decide_eq_true_eq] at hpoint
    rw [hrest] at h
    obtain ⟨ds,rfl⟩ := h.advance.head_eq hpoint.1 (by decide)
    have hafter := h.advance.next
    rw [show Char.utf8Size '.' = 1 by decide] at hafter
    obtain ⟨rest'',hds,-,-⟩ := takeWhile_split Char.isDigit ds
    have hmore := hafter.skipAscii isDigitByte_large
    rw [hfun] at hmore
    refine ⟨rest.takeWhile Char.isDigit ++ ('.' :: ds.takeWhile Char.isDigit),rest'',?_,.inr ⟨?_,by simp⟩⟩
    · rw [List.append_assoc,List.cons_append,← hds]
      exact hrest
    · rw [hmore,byteLen_append,byteLen_cons,show Char.utf8Size '.' = 1 by decide]
      simp only [Nat.add_assoc]
  · exact ⟨_,rest',hrest,.inl ⟨rfl,hd,hnext⟩⟩

theorem lexNumber_lexes {signed : Bool} {sign : List Char} (hsign : sign = if signed then ['-'] else [])
    (h : At text start (sign ++ c :: cs)) (hc : c.isDigit = true) :
    Lexes start (sign ++ c :: cs) (lexNumber parseFloat text signed start) := by
  have hfirst : (if signed then start + 1 else start) = start + byteLen sign := by
    rw [hsign]
    cases signed <;> rfl
  obtain ⟨w,rest,hcs,hends⟩ := numberEnd_ends hfirst h.advance
  have hword : start + byteLen sign + byteLen w = start + byteLen (sign ++ w) := by
    rw [byteLen_append,Nat.add_assoc]
  rw [hcs,← List.append_assoc] at h ⊢
  unfold lexNumber
  obtain ⟨hend,hd,hnext⟩ | ⟨hend,hne⟩ := hends
  · have hne : w ≠ [] := by
      rintro rfl
      rw [List.nil_append] at hcs
      rw [← hcs] at hnext
      exact absurd hc (by simp [hnext c rfl])
    have hliteral : ∃ m, Literal (sign ++ w) m := by
      rw [hsign]
      cases signed with
      | true => exact ⟨_,.negative hne hd⟩
      | false => exact ⟨_,.unsigned hne hd⟩
    obtain ⟨m,hm⟩ := hliteral
    rw [hend]
    simp only [hword,slice_at h,bind,Except.bind,Bool.false_eq_true,if_false]
    cases hparse : parseI64 (sign ++ w) with
    | none => exact .inl ⟨_,rfl⟩
    | some n =>
      rw [parseI64_literal hm] at hparse
      split at hparse
      · obtain rfl := Option.some.inj hparse
        refine .inr ⟨_,_,rest,rfl,rfl,by simp [hne],rfl,fun n hn => ?_⟩
        rw [← TokenKind.int.inj hn]
        exact hm
      · cases hparse
  · rw [hend]
    simp only [hword,slice_at h,bind,Except.bind,if_true]
    cases parseFloat (sign ++ w) with
    | none => exact .inl ⟨_,rfl⟩
    | some x => exact Lexes.other (by simp [hne]) rfl (by simp)

/-! Operators. -/

theorem startsWith_at {pattern : List Char} (h : At text cursor rest) :
    startsWith text pattern cursor = .ok (decide (pattern <+: rest)) := by
  rw [startsWith,h.suffix]

theorem isOperatorByte_lt (h : isOperatorByte b = true) : b.toNat < 128 := by
  obtain ⟨d,-,hd,rfl⟩ := (isByteOf_iff (by simp)).mp h
  rw [byte_toNat hd]
  exact hd

theorem operatorEnd_ends {rounds : Nat} (h : At text cursor rest) (hrounds : rest.length < rounds) :
    ∃ w rest', rest = w ++ rest' ∧ operatorEnd text rounds cursor = .ok (cursor + byteLen w) := by
  induction rounds generalizing cursor rest with
  | zero => omega
  | succ rounds ih =>
    unfold operatorEnd
    split
    · exact ⟨[],rest,rfl,rfl⟩
    · rename_i b hb
      split
      · rename_i hoperator
        rw [startsWith_at h,startsWith_at h,startsWith_at h]
        simp only [bind,Except.bind]
        split
        · exact ⟨[],rest,rfl,rfl⟩
        · cases rest with
          | nil =>
            rw [h.byteAt_nil] at hb
            cases hb
          | cons c rest =>
            rw [List.length_cons] at hrounds
            obtain ⟨hc,-,hafter⟩ := h.one_byte hb (isOperatorByte_lt hoperator)
            obtain ⟨w,rest',rfl,hok⟩ := ih hafter (by omega)
            refine ⟨c :: w,rest',rfl,?_⟩
            rw [hok,byteLen_cons,utf8Size_ascii hc,Nat.add_assoc]
      · exact ⟨[],rest,rfl,rfl⟩

/-- An operator takes the byte that it begins with. -/
theorem lexOperator_lexes (h : At text start (c :: cs)) (hb : byteAt text start = some b) (hoperator : isOperatorByte b = true)
    (hno : ¬ ['/','/'] <+: c :: cs ∧ ¬ ['-','>'] <+: c :: cs ∧ ¬ ['=','>'] <+: c :: cs) :
    Lexes (F := F) start (c :: cs) (lexOperator text start) := by
  obtain ⟨hc,-,hafter⟩ := h.one_byte hb (isOperatorByte_lt hoperator)
  have hrounds : cs.length < byteLen text := by
    have hlen := h.byteLen
    have hle := @length_le_byteLen (c :: cs)
    rw [List.length_cons] at hle
    omega
  obtain ⟨w,rest,rfl,hok⟩ := operatorEnd_ends hafter hrounds
  have hword : start + byteLen (c :: w) = start + 1 + byteLen w := by
    rw [byteLen_cons,utf8Size_ascii hc,Nat.add_assoc]
  have hend : operatorEnd text (byteLen text + 1) start = .ok (start + byteLen (c :: w)) := by
    unfold operatorEnd
    rw [hb]
    simp only [hoperator,if_true,startsWith_at h,bind,Except.bind,hno.1,hno.2.1,hno.2.2,decide_false,Bool.or_self,
      Bool.false_eq_true,if_false]
    rw [hok,hword]
  rw [← List.cons_append] at h ⊢
  unfold lexOperator
  rw [hend]
  simp only [bind,Except.bind,slice_at h]
  exact Lexes.other (by simp) rfl (by simp)

/-! One round. -/

def isBlank (c : Char) : Bool := [' ','\t','\r'].contains c

/-- A blank, or a comment up to the end of its line. -/
def Skips (w : List Char) (next : Option Char) : Prop :=
  (∃ d, w = [d] ∧ isBlank d = true) ∨
    ∃ body, w = ['/','/'] ++ body ∧ '\n' ∉ body ∧ ∀ d, next = some d → d = '\n'

/-- A round takes a part of the text, or an error is reported. -/
def Round (start : Nat) (rest : List Char) (x : Except LexError (Option (Token F) × Nat)) : Prop :=
  (∃ d, x = .error (.diagnostic d)) ∨ ∃ token w rest', rest = w ++ rest' ∧ w ≠ [] ∧ x = .ok (token,start + byteLen w) ∧
    (∀ t, token = some t → Makes start w t) ∧ (token = none → Skips w rest'.head?)

theorem Lexes.round {x : Except LexError (Token F × Nat)} (h : Lexes start rest x) : Round start rest (pushed x) := by
  obtain ⟨d,rfl⟩ | ⟨token,w,rest',hrest,rfl,hmakes⟩ := h
  · exact .inl ⟨d,rfl⟩
  · refine .inr ⟨some token,w,rest',hrest,hmakes.nonempty,rfl,fun t ht => ?_,fun ht => (by cases ht)⟩
    rwa [← Option.some.inj ht]

theorem round_single {w : List Char} {width : Nat} {kind : TokenKind F} (hne : w ≠ []) (hwidth : byteLen w = width)
    (hkind : ∀ n, kind ≠ .int n) : Round start (w ++ rest) (single kind start width) := by
  refine .inr ⟨some ⟨kind,⟨start,start + width⟩⟩,w,rest,rfl,hne,?_,fun t ht => ?_,fun ht => (by cases ht)⟩
  · rw [hwidth]
    rfl
  · obtain rfl := Option.some.inj ht
    exact ⟨hne,by rw [hwidth],fun n hn => absurd hn (hkind n)⟩

theorem round_skip {w : List Char} (hne : w ≠ []) (h : Skips w rest.head?) :
    Round (F := F) start (w ++ rest) (.ok (none,start + byteLen w)) :=
  .inr ⟨none,w,rest,rfl,hne,rfl,fun t ht => (by cases ht),fun _ => h⟩

/-- The next byte, when it is known. -/
theorem peek_eq {d : Char} (hafter : At text (start + 1) cs) (hpeek : byteAt text (start + 1) = some (byte d))
    (hd : d.toNat < 128) : ∃ ds, cs = d :: ds ∧ At text (start + 2) ds := by
  obtain ⟨ds,rfl⟩ := hafter.head_eq hpeek hd
  have hnext := hafter.next
  rw [utf8Size_ascii hd] at hnext
  exact ⟨ds,rfl,hnext⟩

theorem isDigitByte_lt (h : isDigitByte b = true) : b.toNat < 128 := by
  simp only [isDigitByte,Bool.and_eq_true,decide_eq_true_eq] at h
  omega

/-- The character of a digit. -/
theorem digit_of (h : At text start (c :: cs)) (hb : byteAt text start = some b) (hdigit : isDigitByte b = true) :
    c.isDigit = true := by
  obtain ⟨hc,heq,-⟩ := h.one_byte hb (isDigitByte_lt hdigit)
  rw [← asciiTest_isDigitByte,asciiTest,heq,hdigit,Bool.and_true]
  exact decide_eq_true hc

theorem lexOne_round {last : Option (TokenKind F)} (h : At text start (c :: cs)) (hb : byteAt text start = some b) :
    Round start (c :: cs) (lexOne parseFloat text last start b) := by
  have hone : ∀ {d : Char}, d.toNat < 128 → b = byte d → c = d ∧ At text (start + 1) cs := fun hd heq => of_byte h hb hd heq
  unfold lexOne lexByte
  by_cases hblank : isByteOf [' ','\t','\r'] b = true
  · obtain ⟨hc,hafter⟩ := of_isByteOf h hb (by simp) hblank
    have hsize : c.utf8Size = 1 := by
      simp only [List.mem_cons,List.not_mem_nil,or_false] at hc
      obtain rfl | rfl | rfl := hc <;> decide
    have hskip := @round_skip F cs start [c] (by simp)
      (.inl ⟨c,rfl,by simpa [isBlank] using hc⟩)
    rw [if_pos hblank]
    simpa [hsize] using hskip
  rw [if_neg hblank]
  by_cases hnewline : b = byte '\n'
  · obtain ⟨rfl,-⟩ := hone (by decide) hnewline
    rw [if_pos hnewline]
    exact round_single (w := ['\n']) (by simp) (by decide) (by simp)
  rw [if_neg hnewline]
  by_cases hcomment : (decide (b = byte '/') && decide (byteAt text (start + 1) = some (byte '/'))) = true
  · rw [if_pos hcomment]
    simp only [Bool.and_eq_true,decide_eq_true_eq] at hcomment
    obtain ⟨rfl,hafter⟩ := hone (by decide) hcomment.1
    obtain ⟨ds,rfl,hline⟩ := peek_eq hafter hcomment.2 (by decide)
    obtain ⟨line,rest,rfl,hbody,hend⟩ := line_split ds
    have hword : start + byteLen (['/','/'] ++ line) = start + 2 + byteLen line := by
      rw [byteLen_append,show byteLen ['/','/'] = 2 by decide,Nat.add_assoc]
    rw [hline.skipLine hbody hend,← hword]
    exact round_skip (w := ['/','/'] ++ line) (by simp) (.inr ⟨line,rfl,hbody,hend⟩)
  rw [if_neg hcomment]
  by_cases hquote : b = byte '"'
  · obtain ⟨rfl,-⟩ := hone (by decide) hquote
    rw [if_pos hquote]
    exact (lexString_lexes h).round
  rw [if_neg hquote]
  by_cases hbacktick : b = backtick
  · rw [if_pos hbacktick]
    rw [hbacktick] at hb
    exact (lexBacktick_lexes h hb).round
  rw [if_neg hbacktick]
  by_cases hdigit : isDigitByte b = true
  · rw [if_pos hdigit]
    exact (@lexNumber_lexes _ _ _ _ _ _ false [] rfl h (digit_of h hb hdigit)).round
  rw [if_neg hdigit]
  by_cases hsigned : (decide (b = byte '-') && (byteAt text (start + 1)).any isDigitByte &&
      !last.any tokenCanEndExpression) = true
  · rw [if_pos hsigned]
    simp only [Bool.and_eq_true,decide_eq_true_eq] at hsigned
    obtain ⟨⟨heq,hpeek⟩,-⟩ := hsigned
    obtain ⟨rfl,hafter⟩ := hone (by decide) heq
    cases hp : byteAt text (start + 1) with
    | none => simp [hp] at hpeek
    | some d =>
      rw [hp] at hpeek
      cases cs with
      | nil =>
        rw [hafter.byteAt_nil] at hp
        cases hp
      | cons e es =>
        exact (@lexNumber_lexes _ _ _ _ _ _ true ['-'] rfl h (digit_of hafter hp hpeek)).round
  rw [if_neg hsigned]
  by_cases hident : (isAlphaByte b || decide (b = byte '_')) = true
  · rw [if_pos hident]
    simp only [Bool.or_eq_true,decide_eq_true_eq] at hident
    have hlt : b.toNat < 128 := by
      obtain halpha | rfl := hident
      · exact isAlphaByte_lt halpha
      · decide
    exact (lexIdent_lexes h hb hlt).round
  rw [if_neg hident]
  by_cases harrow : (decide (b = byte '-') && decide (byteAt text (start + 1) = some (byte '>'))) = true
  · rw [if_pos harrow]
    simp only [Bool.and_eq_true,decide_eq_true_eq] at harrow
    obtain ⟨rfl,hafter⟩ := hone (by decide) harrow.1
    obtain ⟨ds,rfl,-⟩ := peek_eq hafter harrow.2 (by decide)
    exact round_single (w := ['-','>']) (by simp) (by decide) (by simp)
  rw [if_neg harrow]
  by_cases hfat : (decide (b = byte '=') && decide (byteAt text (start + 1) = some (byte '>'))) = true
  · rw [if_pos hfat]
    simp only [Bool.and_eq_true,decide_eq_true_eq] at hfat
    obtain ⟨rfl,hafter⟩ := hone (by decide) hfat.1
    obtain ⟨ds,rfl,-⟩ := peek_eq hafter hfat.2 (by decide)
    exact round_single (w := ['=','>']) (by simp) (by decide) (by simp)
  rw [if_neg hfat]
  by_cases hpunct : isByteOf ['(',')','[',']','{','}',',',':','.'] b = true
  · obtain ⟨hc,hafter⟩ := of_isByteOf h hb (by simp) hpunct
    have hsize : byteLen [c] = 1 := by
      simp only [List.mem_cons,List.not_mem_nil,or_false] at hc
      obtain rfl | rfl | rfl | rfl | rfl | rfl | rfl | rfl | rfl := hc <;> decide
    rw [if_pos hpunct]
    exact round_single (w := [c]) (by simp) hsize (by simp)
  rw [if_neg hpunct]
  by_cases hoperator : isOperatorByte b = true
  · rw [if_pos hoperator]
    apply Lexes.round
    apply lexOperator_lexes h hb hoperator
    have htwo : ∀ {d e : Char}, d.toNat < 128 → e.toNat < 128 → [d,e] <+: c :: cs →
        (decide (b = byte d) && decide (byteAt text (start + 1) = some (byte e))) = true := by
      intro d e hd he hpre
      obtain ⟨more,hmore⟩ := hpre
      obtain ⟨rfl,rfl⟩ := List.cons_eq_cons.mp hmore
      have hnext : At text (start + 1) (e :: more) := by
        have hnext := h.next
        rwa [utf8Size_ascii hd] at hnext
      rw [h.byteAt_ascii hd] at hb
      rw [hnext.byteAt_ascii he]
      simp [Option.some.inj hb]
    exact ⟨fun hp => hcomment (htwo (by decide) (by decide) hp),fun hp => harrow (htwo (by decide) (by decide) hp),
      fun hp => hfat (htwo (by decide) (by decide) hp)⟩
  rw [if_neg hoperator,h.suffix]
  exact .inl ⟨_,rfl⟩

/-! The loop. -/

/-- The integers among some tokens are those that their texts denote. -/
def Denotes (text : List Char) (tokens : List (Token F)) : Prop := ∀ token ∈ tokens, ∀ n, token.kind = .int n →
  ∃ w, SourceText.slice text token.span.start token.span.finish = some w ∧ Literal w n

theorem Makes.denotes {w : List Char} {token : Token F} (hmakes : Makes start w token) (h : At text start (w ++ rest)) :
    ∀ n, token.kind = .int n → ∃ w, SourceText.slice text token.span.start token.span.finish = some w ∧ Literal w n := by
  intro n hn
  refine ⟨w,?_,hmakes.literal n hn⟩
  rw [hmakes.span]
  exact h.slice

theorem tokenizeFrom_cases {tokens : List (Token F)} {rounds : Nat} (h : At text cursor rest) (hrounds : rest.length < rounds) :
    (∃ d, tokenizeFrom parseFloat text rounds cursor tokens = .error (.diagnostic d)) ∨
      ∃ more, tokenizeFrom parseFloat text rounds cursor tokens = .ok (tokens ++ more) ∧ Denotes text more ∧
        Laid (Gap isBlank ['/','/']) cursor rest (more.map (·.span)) := by
  induction rounds generalizing cursor rest tokens with
  | zero => omega
  | succ rounds ih =>
    unfold tokenizeFrom
    cases hrest : rest with
    | nil =>
      rw [hrest] at h
      rw [h.byteAt_nil]
      refine .inr ⟨_,rfl,fun token htoken n hn => ?_,?_⟩
      · rw [List.mem_singleton.mp htoken] at hn
        cases hn
      · exact Laid.token (w := []) (fun _ => .nil) (.nil .nil)
    | cons c cs =>
      rw [hrest] at h hrounds
      cases hb : byteAt text cursor with
      | none =>
        have hsome := h.byteAt_isSome
        rw [hb] at hsome
        cases hsome
      | some b =>
        obtain ⟨d,hd⟩ | ⟨token,w,rest',hcs,hne,hok,hmakes,hskips⟩ :=
          @lexOne_round _ parseFloat _ _ _ _ _ (tokens.getLast?.map (·.kind)) h hb
        · simp only [hd]
          exact .inl ⟨d,rfl⟩
        · rw [hcs] at h hrounds ⊢
          have hpos := List.length_pos_iff.mpr hne
          rw [List.length_append] at hrounds
          simp only [hok,bind,Except.bind]
          obtain hd | ⟨more,hmore,hdenotes,hlaid⟩ := @ih _ _ (tokens ++ token.toList) h.advance (by omega)
          · exact .inl hd
          · refine .inr ⟨token.toList ++ more,?_,?_,?_⟩
            · rw [hmore,List.append_assoc]
            · intro t ht
              cases List.mem_append.mp ht with
              | inl hfirst => exact (hmakes t (Option.mem_toList.mp hfirst)).denotes h
              | inr hmem => exact hdenotes t hmem
            · cases htoken : token with
              | none =>
                obtain ⟨d,rfl,hblank⟩ | ⟨body,rfl,hbody,hend⟩ := hskips htoken
                · exact Laid.blank hblank (by simpa using hlaid)
                · exact Laid.comment hbody hend hlaid
              | some t =>
                simp only [Option.toList_some,List.cons_append,List.nil_append,List.map_cons,(hmakes t htoken).span]
                exact Laid.token (fun _ => .nil) hlaid

/-- An accepted text has the tokens that its parts make, and a text that is not accepted has an error. -/
theorem tokenize_cases (parseFloat : List Char → Option F) (text : List Char) :
    (∃ d, tokenize parseFloat text = .error (.diagnostic d)) ∨ ∃ tokens, tokenize parseFloat text = .ok tokens ∧
      Denotes text tokens ∧ Covers (Gap isBlank ['/','/']) text (tokens.map (·.span)) := by
  obtain hd | ⟨more,hok,hdenotes,hlaid⟩ := @tokenizeFrom_cases _ parseFloat _ _ _ [] _ (at_zero text)
    (Nat.lt_succ_of_le length_le_byteLen)
  · exact .inl hd
  · exact .inr ⟨more,hok,hdenotes,hlaid.covers⟩

end Nefor.Mag.NewSyntax
