import Nefor.Mag.Lexer

/-! What the tokenizer reads: a text is accepted exactly when it is a sequence of lexemes, and its
tokens are theirs. -/
namespace Nefor.Mag.Lexer
open SourceText

variable {F : Type} {parseFloat : List Char → Option F} {zero : F} {input rest w cs : List Char} {pos : Nat}
  {next : Option Char} {c : Char}

/-! The lexemes. -/

/-- Symbol characters that no other one follows. -/
def Word (w : List Char) (next : Option Char) : Prop :=
  (∀ c ∈ w, isSymbolChar c = true) ∧ ∀ c, next = some c → isSymbolChar c = false

/-- Digits, and whether a point stands among or after them. -/
inductive Number : List Char → Option Char → Bool → Prop
  | integer {digits : List Char} {next : Option Char} : (∀ c ∈ digits, c.isDigit = true) →
    (∀ c, next = some c → c.isDigit = false ∧ c ≠ '.') → Number digits next false
  | float {digits more : List Char} {next : Option Char} : (∀ c ∈ digits, c.isDigit = true) →
    (∀ c ∈ more, c.isDigit = true) → (∀ c, next = some c → c.isDigit = false) → Number (digits ++ '.' :: more) next true

/-- What stands between quotes, with the value that it denotes. -/
inductive StringBody : List Char → List Char → Prop
  | nil : StringBody [] []
  | plain {c : Char} {body value : List Char} : c ≠ '"' → c ≠ '\\' → StringBody body value →
    StringBody (c :: body) (c :: value)
  | escaped {c d : Char} {body value : List Char} : unescape c = some d → StringBody body value →
    StringBody ('\\' :: c :: body) (d :: value)

/-- A part of the text that one round reads, and its token. -/
inductive Lexeme (parseFloat : List Char → Option F) (zero : F) : List Char → Option Char → Option (TokenKind F) → Prop
  | blank {c : Char} {next : Option Char} : isBlank c = true → Lexeme parseFloat zero [c] next none
  | comment {cs : List Char} {next : Option Char} : '\n' ∉ cs → (∀ c, next = some c → c = '\n') →
    Lexeme parseFloat zero (';' :: cs) next none
  | punctuation {c : Char} {next : Option Char} {kind : TokenKind F} : punctuation c = some kind →
    Lexeme parseFloat zero [c] next (some kind)
  | colon {next : Option Char} : (∀ c, next = some c → isSymbolStart c = false) →
    Lexeme parseFloat zero [':'] next (some .colon)
  | keyword {c : Char} {cs : List Char} {next : Option Char} : isSymbolStart c = true → Word (c :: cs) next →
    Lexeme parseFloat zero (':' :: c :: cs) next (some (.keyword (c :: cs)))
  | arrow {next : Option Char} : Lexeme parseFloat zero ['-','>'] next (some .arrow)
  | negative {c : Char} {cs : List Char} {next : Option Char} {float : Bool} : c.isDigit = true →
    Number (c :: cs) next float →
    Lexeme parseFloat zero ('-' :: c :: cs) next (some (numberKind parseFloat zero ('-' :: c :: cs) float))
  | dashed {cs : List Char} {next : Option Char} : (∀ c, cs.head?.or next = some c → c ≠ '>' ∧ c.isDigit = false) →
    Word cs next → Lexeme parseFloat zero ('-' :: cs) next (some (.symbol ('-' :: cs)))
  | raw {body : List Char} {next : Option Char} : Free quotes body →
    Lexeme parseFloat zero (quotes ++ (body ++ quotes)) next (some (.str body))
  | str {body value : List Char} {next : Option Char} : StringBody body value → (body = [] → next ≠ some '"') →
    Lexeme parseFloat zero ('"' :: (body ++ ['"'])) next (some (.str value))
  | number {c : Char} {cs : List Char} {next : Option Char} {float : Bool} : c.isDigit = true →
    Number (c :: cs) next float →
    Lexeme parseFloat zero (c :: cs) next (some (numberKind parseFloat zero (c :: cs) float))
  | symbol {c : Char} {cs : List Char} {next : Option Char} : isSymbolStart c = true → Word (c :: cs) next →
    Lexeme parseFloat zero (c :: cs) next (some (wordKind (c :: cs)))

/-- A text as a sequence of lexemes. -/
inductive Reading (parseFloat : List Char → Option F) (zero : F) : List Char → List (List Char × Option (TokenKind F)) → Prop
  | nil : Reading parseFloat zero [] []
  | cons {w rest : List Char} {kind : Option (TokenKind F)} {lexemes : List (List Char × Option (TokenKind F))} :
    Lexeme parseFloat zero w rest.head? kind → Reading parseFloat zero rest lexemes →
    Reading parseFloat zero (w ++ rest) ((w,kind) :: lexemes)

/-- The tokens of some lexemes from a position on. -/
def tokensOf : Nat → List (List Char × Option (TokenKind F)) → List (Token F)
  | _, [] => []
  | pos, (w,kind) :: lexemes =>
    (kind.map fun kind => ⟨kind,⟨pos,pos + byteLen w⟩⟩).toList ++ tokensOf (pos + byteLen w) lexemes

/-! Words and numbers. -/

theorem slice_at (h : At input pos (w ++ rest)) : slice input pos (pos + byteLen w) = .ok w := by
  unfold slice
  rw [h.slice]

theorem readSymbol_word (h : At input pos (w ++ rest)) (hw : Word w rest.head?) :
    readSymbol input pos = .ok (w,pos + byteLen w) := by
  have hrounds : (w ++ rest).length ≤ byteLen input := by
    have hlen := h.byteLen
    have hle := @length_le_byteLen (w ++ rest)
    omega
  unfold readSymbol
  rw [h.skipChars hrounds,takeWhile_word hw.1 hw.2]
  simp only [slice_at h]
  rfl

theorem readNumberFrom_digits {digits value : List Char} {float : Bool} {rounds : Nat} (h : At input pos (digits ++ rest))
    (hd : ∀ c ∈ digits, c.isDigit = true) : readNumberFrom input (digits.length + rounds) value float pos =
      readNumberFrom input rounds (value ++ digits) float (pos + byteLen digits) := by
  induction digits generalizing pos value with
  | nil => simp
  | cons c digits ih =>
    obtain ⟨hc,hrest⟩ := List.forall_mem_cons.mp hd
    have hsize : c.utf8Size = 1 := by
      apply utf8Size_ascii
      simp only [Char.isDigit,Bool.and_eq_true,decide_eq_true_eq] at hc
      have hle := UInt32.le_iff_toNat_le.mp hc.2
      exact Nat.lt_of_le_of_lt hle (by decide)
    have hnext := h.next
    rw [hsize] at hnext
    rw [List.length_cons,show digits.length + 1 + rounds = digits.length + rounds + 1 by omega,readNumberFrom,h.charAt]
    simp only [List.cons_append,List.head?_cons,hc,if_true]
    rw [ih hnext hrest,byteLen_cons,hsize,List.append_assoc,List.singleton_append,Nat.add_assoc]

theorem readNumberFrom_stop {value : List Char} {float : Bool} {rounds : Nat} (h : At input pos rest)
    (hstop : ∀ c, rest.head? = some c → c.isDigit = false ∧ (c = '.' → float = true)) :
    readNumberFrom input rounds value float pos = (value,float,pos) := by
  cases rounds with
  | zero => rfl
  | succ rounds =>
    rw [readNumberFrom,h.charAt]
    cases hc : rest.head? with
    | none => rfl
    | some c =>
      obtain ⟨hdigit,hpoint⟩ := hstop c hc
      by_cases hp : c = '.'
      · simp [hp,hpoint hp]
      · simp [hdigit,hp]

theorem readNumberFrom_number {value : List Char} {float : Bool} (h : At input pos (w ++ rest))
    (hn : Number w rest.head? float) :
    readNumberFrom input (byteLen input) value false pos = (value ++ w,float,pos + byteLen w) := by
  have hlen := h.byteLen
  have hle := @length_le_byteLen (w ++ rest)
  rw [List.length_append] at hle
  cases hn with
  | integer hd hnext =>
    obtain ⟨rounds,hrounds⟩ : ∃ rounds, byteLen input = w.length + rounds := ⟨byteLen input - w.length,by omega⟩
    rw [hrounds,readNumberFrom_digits h hd,readNumberFrom_stop h.advance]
    intro c hc
    exact ⟨(hnext c hc).1,fun hp => absurd hp (hnext c hc).2⟩
  | @float digits more _ hd hm hnext =>
    rw [List.length_append,List.length_cons] at hle
    obtain ⟨rounds,hrounds⟩ : ∃ rounds, byteLen input = digits.length + ((more.length + rounds) + 1) :=
      ⟨byteLen input - digits.length - more.length - 1,by omega⟩
    rw [List.append_assoc] at h
    have hpoint := h.advance
    have hmore := hpoint.next
    rw [hrounds,readNumberFrom_digits h hd,readNumberFrom,hpoint.charAt]
    simp only [List.cons_append,List.head?_cons]
    rw [if_neg (by decide),if_pos (by decide)]
    have hsize : Char.utf8Size '.' = 1 := by decide
    rw [hsize] at hmore
    rw [readNumberFrom_digits hmore hm,readNumberFrom_stop hmore.advance]
    · simp [hsize,Nat.add_assoc]
    · exact fun c hc => ⟨hnext c hc,fun _ => rfl⟩

/-- Every text starts with a number, which may be empty. -/
theorem number_split (cs : List Char) : ∃ w rest float, cs = w ++ rest ∧ Number w rest.head? float := by
  obtain ⟨rest,hcs,hd,hnext⟩ := takeWhile_split Char.isDigit cs
  cases rest with
  | nil => exact ⟨_,_,false,hcs,.integer hd (by simp)⟩
  | cons c rest =>
    by_cases hc : c = '.'
    · obtain ⟨rest',hrest,hm,hnext'⟩ := takeWhile_split Char.isDigit rest
      refine ⟨_,rest',true,?_,.float hd hm hnext'⟩
      rw [hc,hrest] at hcs
      rw [List.append_assoc]
      exact hcs
    · refine ⟨_,_,false,hcs,.integer hd fun d hd' => ?_⟩
      obtain rfl := Option.some.inj hd'
      exact ⟨hnext c rfl,hc⟩

/-! Strings. -/

theorem readString_body {body value start : List Char} {opener rounds : Nat} (h : At input pos (body ++ '"' :: rest))
    (hbody : StringBody body value) (hrounds : body.length < rounds) :
    readString input opener rounds start pos = .ok (start ++ value,pos + byteLen body + 1) := by
  induction hbody generalizing pos start rounds with
  | nil =>
    obtain ⟨more,rfl⟩ : ∃ more, rounds = more + 1 := ⟨rounds - 1,by omega⟩
    rw [readString,h.charAt]
    simp [show Char.utf8Size '"' = 1 by decide]
  | @plain c body value hquote hslash _ ih =>
    rw [List.length_cons] at hrounds
    obtain ⟨more,rfl⟩ : ∃ more, rounds = more + 1 := ⟨rounds - 1,by omega⟩
    rw [readString,h.charAt]
    simp only [List.cons_append,List.head?_cons]
    rw [if_neg hquote,if_neg hslash,ih h.next (by omega),byteLen_cons]
    simp [Nat.add_assoc]
  | @escaped c d body value hd _ ih =>
    rw [List.length_cons,List.length_cons] at hrounds
    obtain ⟨more,rfl⟩ : ∃ more, rounds = more + 1 := ⟨rounds - 1,by omega⟩
    have hnext : At input (pos + Char.utf8Size '\\') (c :: (body ++ '"' :: rest)) := h.next
    rw [readString,h.charAt]
    simp only [List.cons_append,List.head?_cons]
    rw [if_neg (by decide),if_pos trivial,hnext.charAt]
    simp only [List.head?_cons,hd]
    rw [ih hnext.next (by omega),byteLen_cons,byteLen_cons]
    simp [Nat.add_assoc]

/-- Otherwise there is an error. -/
theorem readString_error {start : List Char} {opener rounds : Nat} (h : At input pos rest) (hrounds : rest.length < rounds)
    (hno : ∀ body value rest', StringBody body value → rest ≠ body ++ '"' :: rest') :
    ∃ d, readString input opener rounds start pos = .error (.diagnostic d) := by
  induction rounds using Nat.strongRecOn generalizing pos rest start with
  | _ rounds ih =>
    obtain ⟨more,rfl⟩ : ∃ more, rounds = more + 1 := ⟨rounds - 1,by omega⟩
    rw [readString,h.charAt]
    cases rest with
    | nil => exact ⟨_,rfl⟩
    | cons c rest =>
      rw [List.length_cons] at hrounds
      simp only [List.head?_cons]
      by_cases hquote : c = '"'
      · rw [hquote] at hno
        exact absurd rfl (hno [] [] rest .nil)
      · rw [if_neg hquote]
        by_cases hslash : c = '\\'
        · rw [if_pos hslash,h.next.charAt]
          cases rest with
          | nil => exact ⟨_,rfl⟩
          | cons e rest =>
            rw [List.length_cons] at hrounds
            simp only [List.head?_cons]
            cases hd : unescape e with
            | none => exact ⟨_,rfl⟩
            | some d =>
              apply ih more (by omega) h.next.next (by omega)
              intro body value rest' hbody hrest
              refine hno ('\\' :: e :: body) (d :: value) rest' (.escaped hd hbody) ?_
              rw [hslash,hrest]
              rfl
        · rw [if_neg hslash]
          apply ih more (by omega) h.next (by omega)
          intro body value rest' hbody hrest
          exact hno (c :: body) (c :: value) rest' (.plain hquote hslash hbody) (by rw [hrest]; rfl)

/-! The character that decides. -/

/-- A character that begins a word is none of those that are looked for before. -/
theorem plain_of {p : Char → Bool} (hp : ∀ d ∈ [' ','\t','\n','\r',',',';','(',')','[',']','{','}','|','+',':','-','"'],
    p d = false) (hc : p c = true) : isBlank c = false ∧ c ≠ ';' ∧ punctuation (F := F) c = none ∧ c ≠ ':' ∧
      c ≠ '-' ∧ c ≠ '"' := by
  have hne : ∀ d, p d = false → c ≠ d := by
    intro d hd heq
    rw [heq,hd] at hc
    cases hc
  simp only [List.forall_mem_cons,List.not_mem_nil,false_imp_iff,implies_true,and_true] at hp
  obtain ⟨h1,h2,h3,h4,h5,h6,h7,h8,h9,h10,h11,h12,h13,h14,h15,h16,h17⟩ := hp
  refine ⟨?_,hne _ h6,?_,hne _ h15,hne _ h16,hne _ h17⟩
  · simp [isBlank,hne _ h1,hne _ h2,hne _ h3,hne _ h4,hne _ h5]
  · simp [punctuation,hne _ h7,hne _ h8,hne _ h9,hne _ h10,hne _ h11,hne _ h12,hne _ h13,hne _ h14]

theorem punctuation_some {kind : TokenKind F} (h : punctuation c = some kind) :
    isBlank c = false ∧ c ≠ ';' ∧ c.utf8Size = 1 := by
  unfold punctuation at h
  split at h
  all_goals first | exact ⟨by decide,by decide,by decide⟩ | cases h

theorem isSymbolChar_of_start (h : isSymbolStart c = true) : isSymbolChar c = true := by
  unfold isSymbolStart at h
  unfold isSymbolChar
  rw [Bool.or_eq_true] at h ⊢
  apply h.imp
  · intro ha
    rw [Char.isAlphanum,ha,Bool.true_or]
  · simp only [List.contains_eq_mem,decide_eq_true_eq,List.mem_cons,List.not_mem_nil,or_false]
    tauto

theorem not_isDigit_of_start (h : isSymbolStart c = true) : ¬ c.isDigit = true := by
  intro hd
  simp only [Char.isDigit,Bool.and_eq_true,decide_eq_true_eq,UInt32.le_iff_toNat_le] at hd
  unfold isSymbolStart at h
  cases Bool.or_eq_true_iff.mp h with
  | inl ha =>
    change (decide (c.val ≥ 'A'.val ∧ c.val ≤ 'Z'.val) || (c.val ≥ 'a'.val && c.val ≤ 'z'.val)) = true at ha
    simp only [Bool.or_eq_true,Bool.and_eq_true,decide_eq_true_eq,ge_iff_le,UInt32.le_iff_toNat_le] at ha
    have h48 : '0'.val.toNat = 48 := rfl
    have h57 : '9'.val.toNat = 57 := rfl
    have h65 : 'A'.val.toNat = 65 := rfl
    have h97 : 'a'.val.toNat = 97 := rfl
    omega
  | inr hm =>
    simp only [List.contains_eq_mem,decide_eq_true_eq,List.mem_cons,List.not_mem_nil,or_false] at hm
    obtain rfl | rfl | rfl | rfl | rfl | rfl | rfl := hm <;> revert hd <;> decide

theorem any_head {p : Char → Bool} {o : Option Char} (h : ∀ c, o = some c → p c = false) : o.any p = false := by
  cases o with
  | none => rfl
  | some c => exact h c rfl

/-- An opening quote is followed by two more only in a raw string. -/
theorem not_quotes {body value : List Char} (hbody : StringBody body value) (hnext : body = [] → rest.head? ≠ some '"') :
    ¬ quotes <+: '"' :: (body ++ ['"'] ++ rest) := by
  intro hpre
  obtain ⟨more,hmore⟩ := hpre
  cases hbody with
  | nil =>
    simp only [quotes,List.nil_append,List.cons_append,List.cons.injEq,true_and] at hmore
    apply hnext rfl
    rw [← hmore]
    rfl
  | plain hquote _ _ =>
    simp only [quotes,List.cons_append,List.cons.injEq,true_and] at hmore
    exact hquote hmore.1.symm
  | escaped _ _ => simp [quotes] at hmore

/-! One round. -/

theorem lexOne_char (h : At input pos (c :: cs)) :
    lexOne parseFloat zero input pos = lexChar parseFloat zero input pos (c :: cs) c := by
  unfold lexOne
  rw [h.suffix]
  rfl

/-- The character is looked at after blanks, comments and punctuation. -/
theorem lexChar_other (hblank : isBlank c = false) (hcomment : c ≠ ';') (hpunctuation : punctuation (F := F) c = none) :
    lexChar parseFloat zero input pos cs c =
      if c = ':' then
        if (charAt input (pos + 1)).any isSymbolStart then do
          let (value,finish) ← readSymbol input (pos + 1)
          .ok (some ⟨.keyword value,⟨pos,finish⟩⟩,finish)
        else .ok (some ⟨.colon,⟨pos,pos + 1⟩⟩,pos + 1)
      else if c = '-' then
        if charAt input (pos + 1) = some '>' then .ok (some ⟨.arrow,⟨pos,pos + 1 + 1⟩⟩,pos + 1 + 1)
        else if (charAt input (pos + 1)).any Char.isDigit then
          let (kind,finish) := readNumber parseFloat zero input (pos + 1) true
          .ok (some ⟨kind,⟨pos,finish⟩⟩,finish)
        else do
          let (symbol,finish) ← readSymbol input (pos + 1)
          .ok (some ⟨.symbol ('-' :: symbol),⟨pos,finish⟩⟩,finish)
      else if c = '"' then
        if quotes <+: cs then do
          let (value,finish) ← readRawMultilineString input (pos + 3) pos
          .ok (some ⟨.str value,⟨pos,finish⟩⟩,finish)
        else do
          let (value,finish) ← readString input pos (byteLen input + 1) [] (pos + 1)
          .ok (some ⟨.str value,⟨pos,finish⟩⟩,finish)
      else if c.isDigit then
        let (kind,finish) := readNumber parseFloat zero input pos false
        .ok (some ⟨kind,⟨pos,finish⟩⟩,finish)
      else if isSymbolStart c then do
        let (symbol,finish) ← readSymbol input pos
        .ok (some ⟨wordKind symbol,⟨pos,finish⟩⟩,finish)
      else .error (lexError ("unexpected character: '" ++ c.toString ++ "'") ⟨pos,pos + c.utf8Size⟩ none) := by
  unfold lexChar
  rw [if_neg (by simp [hblank]),if_neg hcomment,hpunctuation]

theorem lexOne_lexeme {kind : Option (TokenKind F)} (h : At input pos (w ++ rest))
    (hl : Lexeme parseFloat zero w rest.head? kind) : lexOne parseFloat zero input pos =
      .ok (kind.map fun kind => ⟨kind,⟨pos,pos + byteLen w⟩⟩,pos + byteLen w) := by
  have hcolon : Char.utf8Size ':' = 1 := by decide
  have hdash : Char.utf8Size '-' = 1 := by decide
  have hquote : Char.utf8Size '"' = 1 := by decide
  cases hl with
  | @blank c _ hblank =>
    rw [lexOne_char h,lexChar,if_pos hblank]
    simp
  | @comment cs _ hcs hnext =>
    have hafter : At input (pos + Char.utf8Size ';') (cs ++ rest) := At.next h
    rw [lexOne_char h,lexChar,if_neg (by decide),if_pos rfl,hafter.skipLine hcs hnext,byteLen_cons,Nat.add_assoc]
    rfl
  | @punctuation c _ kind hkind =>
    obtain ⟨hblank,hcomment,hsize⟩ := punctuation_some hkind
    rw [lexOne_char h,lexChar,if_neg (by simp [hblank]),if_neg hcomment,hkind]
    simp [hsize]
  | colon hnext =>
    have hafter : At input (pos + 1) rest := At.next h
    rw [lexOne_char h,lexChar_other rfl (by decide) rfl,if_pos rfl,hafter.charAt,any_head hnext]
    rfl
  | @keyword c cs _ hstart hw =>
    have hafter : At input (pos + 1) (c :: cs ++ rest) := At.next h
    have hany : (charAt input (pos + 1)).any isSymbolStart = true := by
      rw [hafter.charAt]
      exact hstart
    rw [lexOne_char h,lexChar_other rfl (by decide) rfl,if_pos rfl,if_pos hany,readSymbol_word hafter hw]
    simp [bind,Except.bind,hcolon,Nat.add_assoc]
  | arrow =>
    have hafter : At input (pos + 1) ('>' :: rest) := At.next h
    have harrow : charAt input (pos + 1) = some '>' := hafter.charAt
    rw [lexOne_char h,lexChar_other rfl (by decide) rfl,if_neg (by decide),if_pos rfl,if_pos harrow]
    rfl
  | @negative c cs _ float hc hn =>
    have hafter : At input (pos + 1) (c :: cs ++ rest) := At.next h
    have hne : charAt input (pos + 1) ≠ some '>' := by
      rw [hafter.charAt]
      intro heq
      obtain rfl := Option.some.inj heq
      revert hc
      decide
    have hany : (charAt input (pos + 1)).any Char.isDigit = true := by
      rw [hafter.charAt]
      exact hc
    rw [lexOne_char h,lexChar_other rfl (by decide) rfl,if_neg (by decide),if_pos rfl,if_neg hne,if_pos hany,readNumber,
      if_pos rfl,readNumberFrom_number hafter hn]
    simp [hdash,Nat.add_assoc]
  | @dashed cs _ hnext hw =>
    have hafter : At input (pos + 1) (cs ++ rest) := At.next h
    have hhead : charAt input (pos + 1) = cs.head?.or rest.head? := by
      rw [hafter.charAt]
      exact List.head?_append
    rw [lexOne_char h,lexChar_other rfl (by decide) rfl,if_neg (by decide),if_pos rfl,hhead,
      if_neg (fun heq => (hnext _ heq).1 rfl),any_head fun c hc => (hnext c hc).2,readSymbol_word hafter hw]
    simp [bind,Except.bind,hdash,Nat.add_assoc]
  | @raw body _ hfree =>
    have hbody : At input (pos + 3) (body ++ (quotes ++ rest)) := by
      have hskip := @At.advance _ (body ++ (quotes ++ rest)) quotes _ (by simpa using h)
      exact hskip
    have hread : readRawMultilineString input (pos + 3) pos = .ok (body,pos + 3 + byteLen body + 3) := by
      unfold readRawMultilineString
      rw [hbody.suffix,← List.append_assoc]
      simp only [find_free (show quotes ≠ [] by decide) hfree,slice_at hbody]
      rfl
    have hopen : At input pos ('"' :: ('"' :: '"' :: (body ++ quotes) ++ rest)) := h
    rw [lexOne_char hopen,lexChar_other rfl (by decide) rfl,if_neg (by decide),if_neg (by decide),if_pos rfl,
      if_pos ⟨_,(List.append_assoc _ _ _).symm⟩,hread]
    have hthree : byteLen quotes = 3 := by decide
    simp [bind,Except.bind,hthree,Nat.add_assoc]
  | @str body value _ hbody hnext =>
    have hopen : At input pos ('"' :: (body ++ ['"'] ++ rest)) := h
    have hafter : At input (pos + 1) (body ++ '"' :: rest) := by
      have hone : At input (pos + 1) (body ++ ['"'] ++ rest) := hopen.next
      rw [List.append_assoc] at hone
      exact hone
    have hrounds : body.length < byteLen input + 1 := by
      have hlen := hafter.byteLen
      have hle := @length_le_byteLen body
      rw [byteLen_append] at hlen
      omega
    rw [lexOne_char hopen,lexChar_other rfl (by decide) rfl,if_neg (by decide),if_neg (by decide),if_pos rfl,
      if_neg (not_quotes hbody hnext),readString_body hafter hbody hrounds]
    simp [bind,Except.bind,hquote,Nat.add_assoc]
  | @number c cs _ float hc hn =>
    obtain ⟨hblank,hcomment,hpunctuation,hcolon,hdash,hquote⟩ := plain_of (F := F) (p := Char.isDigit) (by simp) hc
    rw [lexOne_char h,lexChar_other hblank hcomment hpunctuation,if_neg hcolon,if_neg hdash,if_neg hquote,if_pos hc,
      readNumber,if_neg (by decide),readNumberFrom_number h hn]
    rfl
  | @symbol c cs _ hstart hw =>
    obtain ⟨hblank,hcomment,hpunctuation,hcolon,hdash,hquote⟩ := plain_of (F := F) (p := isSymbolStart) (by simp [isSymbolStart]) hstart
    rw [lexOne_char h,lexChar_other hblank hcomment hpunctuation,if_neg hcolon,if_neg hdash,if_neg hquote,
      if_neg (not_isDigit_of_start hstart),if_pos hstart,readSymbol_word h hw]
    rfl

theorem word_split (cs : List Char) : ∃ w rest, cs = w ++ rest ∧ Word w rest.head? := by
  obtain ⟨rest,hcs,hw,hnext⟩ := takeWhile_split isSymbolChar cs
  exact ⟨_,rest,hcs,hw,hnext⟩

theorem Word.cons (hw : Word w next) (hc : isSymbolChar c = true) : Word (c :: w) next :=
  ⟨List.forall_mem_cons.mpr ⟨hc,hw.1⟩,hw.2⟩

theorem Number.cons {float : Bool} (hn : Number w next float) (hc : c.isDigit = true) : Number (c :: w) next float := by
  cases hn with
  | integer hd hnext => exact .integer (List.forall_mem_cons.mpr ⟨hc,hd⟩) hnext
  | float hd hm hnext => exact @Number.float (c :: _) _ _ (List.forall_mem_cons.mpr ⟨hc,hd⟩) hm hnext

/-- A round reads a lexeme or reports an error. -/
theorem lexOne_cases (h : At input pos (c :: cs)) : (∃ d, lexOne parseFloat zero input pos = .error (.diagnostic d)) ∨
    ∃ w rest kind, c :: cs = w ++ rest ∧ w ≠ [] ∧ Lexeme parseFloat zero w rest.head? kind := by
  by_cases hblank : isBlank c = true
  · exact .inr ⟨[c],cs,_,rfl,by simp,.blank hblank⟩
  rw [Bool.not_eq_true] at hblank
  by_cases hcomment : c = ';'
  · obtain ⟨line,rest,hcs,hline,hnext⟩ := line_split cs
    rw [hcomment,hcs]
    exact .inr ⟨';' :: line,rest,_,rfl,by simp,.comment hline hnext⟩
  cases hpunctuation : punctuation (F := F) c with
  | some kind => exact .inr ⟨[c],cs,_,rfl,by simp,.punctuation hpunctuation⟩
  | none =>
    have hother := @lexChar_other _ parseFloat zero input (c :: cs) pos _
      hblank hcomment hpunctuation
    by_cases hcolon : c = ':'
    · rw [hcolon]
      by_cases hstart : ∃ d ds, cs = d :: ds ∧ isSymbolStart d = true
      · obtain ⟨d,ds,rfl,hd⟩ := hstart
        obtain ⟨w,rest,rfl,hw⟩ := word_split ds
        exact .inr ⟨':' :: d :: w,rest,_,rfl,by simp,.keyword hd (hw.cons (isSymbolChar_of_start hd))⟩
      · refine .inr ⟨[':'],cs,_,rfl,by simp,.colon fun d hd => ?_⟩
        obtain ⟨ds,rfl⟩ := List.head?_eq_some_iff.mp hd
        rw [← Bool.not_eq_true]
        exact fun hs => hstart ⟨d,ds,rfl,hs⟩
    by_cases hdash : c = '-'
    · rw [hdash]
      by_cases harrow : ∃ ds, cs = '>' :: ds
      · obtain ⟨ds,rfl⟩ := harrow
        exact .inr ⟨['-','>'],ds,_,rfl,by simp,.arrow⟩
      by_cases hdigit : ∃ d ds, cs = d :: ds ∧ d.isDigit = true
      · obtain ⟨d,ds,rfl,hd⟩ := hdigit
        obtain ⟨w,rest,float,rfl,hn⟩ := number_split ds
        exact .inr ⟨'-' :: d :: w,rest,_,rfl,by simp,.negative hd (hn.cons hd)⟩
      · obtain ⟨w,rest,rfl,hw⟩ := word_split cs
        refine .inr ⟨'-' :: w,rest,_,rfl,by simp,.dashed (fun d hd => ?_) hw⟩
        rw [← List.head?_append] at hd
        obtain ⟨ds,hds⟩ := List.head?_eq_some_iff.mp hd
        constructor
        · rintro rfl
          exact harrow ⟨ds,hds⟩
        · rw [← Bool.not_eq_true]
          exact fun hdig => hdigit ⟨d,ds,hds,hdig⟩
    rw [if_neg hcolon,if_neg hdash] at hother
    by_cases hquote : c = '"'
    · rw [if_pos hquote] at hother
      by_cases hquotes : quotes <+: c :: cs
      · rw [if_pos hquotes] at hother
        obtain ⟨more,hmore⟩ := hquotes
        have hbody : At input (pos + 3) more := by
          rw [← hmore] at h
          exact h.advance
        cases hfind : find quotes more with
        | none =>
          have hread : ∃ d, readRawMultilineString input (pos + 3) pos = .error (.diagnostic d) := by
            unfold readRawMultilineString
            rw [hbody.suffix]
            simp only [hfind]
            exact ⟨_,rfl⟩
          obtain ⟨d,hd⟩ := hread
          refine .inl ⟨d,?_⟩
          rw [lexOne_char h,hother,hd]
          rfl
        | some n =>
          obtain ⟨body,rest,rfl,-,hfree⟩ := find_sound hfind
          refine .inr ⟨quotes ++ (body ++ quotes),rest,_,?_,by simp [quotes],.raw hfree⟩
          rw [← hmore]
          simp
      · rw [if_neg hquotes] at hother
        have hafter : At input (pos + 1) cs := by
          rw [hquote] at h
          exact h.next
        by_cases hstring : ∃ body value rest, StringBody body value ∧ cs = body ++ '"' :: rest
        · obtain ⟨body,value,rest,hbody,rfl⟩ := hstring
          rw [hquote] at hquotes ⊢
          refine .inr ⟨'"' :: (body ++ ['"']),rest,_,by simp,by simp,.str hbody fun hnil hnext => hquotes ?_⟩
          obtain ⟨ds,rfl⟩ := List.head?_eq_some_iff.mp hnext
          rw [hnil]
          exact ⟨ds,rfl⟩
        · have hrounds : cs.length < byteLen input + 1 := by
            have hlen := hafter.byteLen
            have hle := @length_le_byteLen cs
            omega
          obtain ⟨d,hd⟩ := @readString_error _ _ _ [] pos _ hafter hrounds fun body value rest hbody hcs =>
            hstring ⟨body,value,rest,hbody,hcs⟩
          refine .inl ⟨d,?_⟩
          rw [lexOne_char h,hother,hd]
          rfl
    rw [if_neg hquote] at hother
    by_cases hdigit : c.isDigit = true
    · obtain ⟨w,rest,float,rfl,hn⟩ := number_split cs
      exact .inr ⟨c :: w,rest,_,rfl,by simp,.number hdigit (hn.cons hdigit)⟩
    by_cases hstart : isSymbolStart c = true
    · obtain ⟨w,rest,rfl,hw⟩ := word_split cs
      exact .inr ⟨c :: w,rest,_,rfl,by simp,.symbol hstart (hw.cons (isSymbolChar_of_start hstart))⟩
    · rw [if_neg hdigit,if_neg hstart] at hother
      exact .inl ⟨_,(lexOne_char h).trans hother⟩

/-! The loop. -/

theorem Lexeme.ne_nil {kind : Option (TokenKind F)} (h : Lexeme parseFloat zero w next kind) : w ≠ [] := by
  cases h <;> simp [quotes]

/-- A text of lexemes is accepted with their tokens. -/
theorem tokenizeFrom_reading {lexemes : List (List Char × Option (TokenKind F))} {tokens : List (Token F)} {rounds : Nat}
    (hr : Reading parseFloat zero rest lexemes) (h : At input pos rest) (hrounds : rest.length < rounds) :
    tokenizeFrom parseFloat zero input rounds pos tokens = .ok (tokens ++ tokensOf pos lexemes) := by
  induction hr generalizing pos tokens rounds with
  | nil =>
    obtain ⟨more,rfl⟩ : ∃ more, rounds = more + 1 := ⟨rounds - 1,by omega⟩
    have hend : ¬ pos < byteLen input := fun hlt => h.lt_iff.mp hlt rfl
    rw [tokenizeFrom,if_neg hend,tokensOf,List.append_nil]
  | @cons w rest kind lexemes hl _ ih =>
    have hne := hl.ne_nil
    have hpos := List.length_pos_iff.mpr hne
    rw [List.length_append] at hrounds
    obtain ⟨more,rfl⟩ : ∃ more, rounds = more + 1 := ⟨rounds - 1,by omega⟩
    have hlt : pos < byteLen input := h.lt_iff.mpr (by simp [hne])
    rw [tokenizeFrom,if_pos hlt,lexOne_lexeme h hl]
    simp only [bind,Except.bind]
    rw [ih h.advance (by omega),tokensOf,List.append_assoc]

/-- An accepted text is a text of lexemes, and nothing but an error is returned for another one. -/
theorem tokenizeFrom_cases {tokens : List (Token F)} {rounds : Nat} (h : At input pos rest) (hrounds : rest.length < rounds) :
    (∃ d, tokenizeFrom parseFloat zero input rounds pos tokens = .error (.diagnostic d)) ∨
      ∃ lexemes, Reading parseFloat zero rest lexemes := by
  induction rounds generalizing pos rest tokens with
  | zero => omega
  | succ rounds ih =>
    cases hrest : rest with
    | nil => exact .inr ⟨[],.nil⟩
    | cons c cs =>
      rw [hrest] at h hrounds
      have hlt : pos < byteLen input := h.lt_iff.mpr (by simp)
      rw [tokenizeFrom,if_pos hlt]
      obtain ⟨d,hd⟩ | ⟨w,rest',kind,hcs,hne,hl⟩ := @lexOne_cases _ parseFloat zero _ _ _ _ h
      · rw [hd]
        exact .inl ⟨d,rfl⟩
      · rw [hcs] at h hrounds ⊢
        have hpos := List.length_pos_iff.mpr hne
        rw [List.length_append] at hrounds
        rw [lexOne_lexeme h hl]
        simp only [bind,Except.bind]
        obtain hd | ⟨lexemes,hr⟩ := ih h.advance (by omega)
        · exact .inl hd
        · exact .inr ⟨_,.cons hl hr⟩

theorem tokenizeSource_reading {lexemes : List (List Char × Option (TokenKind F))}
    (h : Reading parseFloat zero input lexemes) : tokenizeSource parseFloat zero input = .ok (tokensOf 0 lexemes) :=
  tokenizeFrom_reading h (at_zero input) (Nat.lt_succ_of_le length_le_byteLen)

theorem tokenizeSource_cases (parseFloat : List Char → Option F) (zero : F) (input : List Char) :
    (∃ d, tokenizeSource parseFloat zero input = .error (.diagnostic d)) ∨
      ∃ lexemes, Reading parseFloat zero input lexemes :=
  tokenizeFrom_cases (at_zero input) (Nat.lt_succ_of_le length_le_byteLen)

/-! The layout. -/

/-- The tokens lie in the text with blanks and comments between them. -/
theorem Reading.laid {lexemes : List (List Char × Option (TokenKind F))} (h : Reading parseFloat zero rest lexemes) :
    Laid (Gap isBlank [';']) pos rest ((tokensOf pos lexemes).map (·.span)) := by
  induction h generalizing pos with
  | nil => exact .nil .nil
  | @cons w rest kind lexemes hl _ ih =>
    rw [tokensOf]
    cases hl with
    | blank hblank => exact Laid.blank hblank (by simpa using ih)
    | @comment cs _ hcs hnext =>
      have hlaid := @Laid.comment _ pos _ _ [';'] _ hcs hnext (@ih (pos + byteLen (';' :: cs)))
      exact hlaid
    | _ => exact Laid.token (fun _ => .nil) ih

/-- Every token is that of a lexeme which its span covers. -/
theorem Reading.token {lexemes : List (List Char × Option (TokenKind F))} (hr : Reading parseFloat zero rest lexemes)
    (h : At input pos rest) : ∀ token ∈ tokensOf pos lexemes, ∃ w,
      (w,some token.kind) ∈ lexemes ∧ SourceText.slice input token.span.start token.span.finish = some w := by
  induction hr generalizing pos with
  | nil => simp [tokensOf]
  | @cons w rest kind lexemes _ _ ih =>
    intro token htoken
    rw [tokensOf] at htoken
    cases List.mem_append.mp htoken with
    | inl hfirst =>
      obtain ⟨kind',hkind,rfl⟩ := Option.map_eq_some_iff.mp (Option.mem_toList.mp hfirst)
      exact ⟨w,by simp [hkind],h.slice⟩
    | inr hrest =>
      obtain ⟨w',hmem,hslice⟩ := ih h.advance token hrest
      exact ⟨w',List.mem_cons_of_mem _ hmem,hslice⟩

theorem Reading.lexeme {lexemes : List (List Char × Option (TokenKind F))} (hr : Reading parseFloat zero rest lexemes)
    (h : At input pos rest) {kind : TokenKind F} (hmem : (w,some kind) ∈ lexemes) : ∃ token ∈ tokensOf pos lexemes,
      token.kind = kind ∧ SourceText.slice input token.span.start token.span.finish = some w := by
  induction hr generalizing pos with
  | nil => cases hmem
  | cons _ _ ih =>
    rw [tokensOf]
    cases List.mem_cons.mp hmem with
    | inl heq =>
      obtain ⟨rfl,rfl⟩ := Prod.mk.inj heq
      exact ⟨_,List.mem_append_left _ (List.mem_singleton.mpr rfl),rfl,h.slice⟩
    | inr hmem =>
      obtain ⟨token,htoken,hrest⟩ := ih h.advance hmem
      exact ⟨token,List.mem_append_right _ htoken,hrest⟩

/-! Integers. -/

/-- A decimal text and the number that it denotes. -/
inductive Literal : List Char → Int → Prop
  | unsigned {digits : List Char} : digits ≠ [] → (∀ c ∈ digits, c.isDigit = true) → Literal digits (digitsValue digits)
  | negative {digits : List Char} : digits ≠ [] → (∀ c ∈ digits, c.isDigit = true) →
    Literal ('-' :: digits) (-digitsValue digits)

theorem Literal.unique {m n : Int} (hm : Literal w m) (hn : Literal w n) : m = n := by
  have hdash : Char.isDigit '-' = false := by decide
  cases hm with
  | unsigned _ hd =>
    cases hn with
    | unsigned _ _ => rfl
    | negative _ _ => simp [hd '-' List.mem_cons_self] at hdash
  | negative _ _ =>
    cases hn with
    | unsigned _ hd => simp [hd '-' List.mem_cons_self] at hdash
    | negative _ _ => rfl

theorem parseDigits_eq {digits : List Char} {negative : Bool} (hne : digits ≠ []) (hd : ∀ c ∈ digits, c.isDigit = true) :
    parseDigits negative digits = if inI64 (if negative then -(digitsValue digits : Int) else digitsValue digits)
      then some (if negative then -(digitsValue digits : Int) else digitsValue digits) else none := by
  have hall : digits.all Char.isDigit = true := List.all_eq_true.mpr hd
  simp [parseDigits,hall,hne]

/-- A decimal text is parsed when its number is in range. -/
theorem parseI64_literal {n : Int} (h : Literal w n) : parseI64 w = if inI64 n then some n else none := by
  cases h with
  | negative hne hd => exact parseDigits_eq hne hd
  | unsigned hne hd =>
    unfold parseI64
    split
    · exact absurd (hd '-' List.mem_cons_self) (by decide)
    · exact absurd (hd '+' List.mem_cons_self) (by decide)
    · exact parseDigits_eq hne hd

theorem Number.digits (h : Number w next false) : ∀ c ∈ w, c.isDigit = true := by
  cases h with
  | integer hd _ => exact hd

theorem punctuation_ne_int (n : Int) : punctuation c ≠ some (TokenKind.int n : TokenKind F) := by
  unfold punctuation
  split <;> simp

theorem wordKind_ne_int (n : Int) : wordKind w ≠ (TokenKind.int n : TokenKind F) := by
  unfold wordKind
  split_ifs <;> simp

/-- An integer token is a literal, or zero for a literal that is out of range. -/
theorem Lexeme.int {n : Int} (h : Lexeme parseFloat zero w next (some (.int n))) :
    ∃ m, Literal w m ∧ n = if inI64 m then m else 0 := by
  generalize hkind : some (TokenKind.int n : TokenKind F) = kind at h
  have hnumber : ∀ {value : List Char} {float : Bool}, some (TokenKind.int n : TokenKind F) =
      some (numberKind parseFloat zero value float) → float = false ∧ n = (parseI64 value).getD 0 := by
    intro value float heq
    cases float with
    | true => cases heq
    | false => exact ⟨rfl,TokenKind.int.inj (Option.some.inj heq)⟩
  have hvalue : ∀ {m : Int}, Literal w m → n = (parseI64 w).getD 0 → ∃ m, Literal w m ∧ n = if inI64 m then m else 0 := by
    intro m hm hn
    refine ⟨m,hm,?_⟩
    rw [hn,parseI64_literal hm]
    split
    · rfl
    · rfl
  cases h with
  | negative hc hn =>
    obtain ⟨rfl,heq⟩ := hnumber hkind
    exact hvalue (.negative (by simp) hn.digits) heq
  | number hc hn =>
    obtain ⟨rfl,heq⟩ := hnumber hkind
    exact hvalue (.unsigned (by simp) hn.digits) heq
  | punctuation hp => exact absurd (hp.trans hkind.symm) (punctuation_ne_int n)
  | symbol _ _ => exact absurd (Option.some.inj hkind).symm (wordKind_ne_int n)
  | _ => cases hkind

end Nefor.Mag.Lexer
