import Nefor.Mag.NewSyntaxReads

/-! Number literals and token spans of both notations. -/
namespace Nefor.Mag
open SourceText

section
variable {F : Type} (parseFloat : List Char → Option F) (zero : F) (text : List Char)

/-- The integer tokens of an s-expression denote what their texts do. -/
def Lexer.Denotes (tokens : List (Lexer.Token F)) : Prop := ∀ token ∈ tokens, ∀ n, token.kind = .int n →
  ∃ w, SourceText.slice text token.span.start token.span.finish = some w ∧ Lexer.Literal w n

/-- What both tokenizers owe a text that they accept. -/
structure LexedFaithfully : Prop where
  lisp : ∀ tokens, Lexer.tokenizeSource parseFloat zero text = .ok tokens →
    Lexer.Denotes text tokens ∧ Covers (Gap Lexer.isBlank [';']) text (tokens.map (·.span))
  newSyntax : ∀ tokens, NewSyntax.tokenize parseFloat text = .ok tokens →
    NewSyntax.Denotes text tokens ∧ Covers (Gap NewSyntax.isBlank ['/','/']) text (tokens.map (·.span))

/-- Every integer among the lexemes of the text is in range. -/
def IntegersInRange : Prop := ∀ lexemes, Lexer.Reading parseFloat zero text lexemes →
  ∀ w n m, (w,some (.int n)) ∈ lexemes → Lexer.Literal w m → Lexer.inI64 m = true

end

variable {F : Type} {parseFloat : List Char → Option F} {zero : F} {text : List Char}

theorem newSyntax_faithful : ∀ tokens, NewSyntax.tokenize parseFloat text = .ok tokens →
    NewSyntax.Denotes text tokens ∧ Covers (Gap NewSyntax.isBlank ['/','/']) text (tokens.map (·.span)) := by
  intro tokens htokens
  obtain ⟨d,hd⟩ | ⟨tokens',hok,hfaithful⟩ := NewSyntax.tokenize_cases parseFloat text
  · rw [hd] at htokens
    cases htokens
  · rw [hok] at htokens
    rwa [← Except.ok.inj htokens]

/-- A lexeme that is an integer belongs to a reading. -/
theorem reading_int {lexemes : List (List Char × Option (Lexer.TokenKind F))} {rest w : List Char} {n : Int}
    (hr : Lexer.Reading parseFloat zero rest lexemes) (hmem : (w,some (.int n)) ∈ lexemes) :
    ∃ m, Lexer.Literal w m ∧ n = if Lexer.inI64 m then m else 0 := by
  induction hr with
  | nil => cases hmem
  | cons hl _ ih =>
    cases List.mem_cons.mp hmem with
    | inl heq =>
      obtain ⟨rfl,rfl⟩ := Prod.mk.inj heq
      exact hl.int
    | inr hmem => exact ih hmem

/-- Both tokenizers are faithful to a text exactly when its integers as an s-expression are in range. -/
theorem lexedFaithfully_iff (parseFloat : List Char → Option F) (zero : F) (text : List Char) :
    LexedFaithfully parseFloat zero text ↔ IntegersInRange parseFloat zero text := by
  constructor
  · intro h lexemes hr w n m hmem hm
    obtain ⟨m',hm',hn⟩ := reading_int hr hmem
    obtain rfl := hm.unique hm'
    obtain ⟨token,htoken,hkind,hslice⟩ := hr.lexeme (at_zero text) hmem
    obtain ⟨w',hw',hliteral⟩ := (h.lisp _ (Lexer.tokenizeSource_reading hr)).1 token htoken n hkind
    rw [hslice] at hw'
    obtain rfl := Option.some.inj hw'
    have heq := hliteral.unique hm
    by_contra hrange
    rw [if_neg hrange] at hn
    rw [hn] at heq
    rw [← heq] at hrange
    exact hrange (by decide)
  · intro h
    refine ⟨fun tokens htokens => ?_,newSyntax_faithful⟩
    obtain ⟨d,hd⟩ | ⟨lexemes,hr⟩ := Lexer.tokenizeSource_cases parseFloat zero text
    · rw [hd] at htokens
      cases htokens
    · rw [Lexer.tokenizeSource_reading hr] at htokens
      obtain rfl := Except.ok.inj htokens
      refine ⟨fun token htoken n hn => ?_,hr.laid.covers⟩
      obtain ⟨w,hmem,hslice⟩ := hr.token (at_zero text) token htoken
      rw [hn] at hmem
      obtain ⟨m,hm,heq⟩ := reading_int hr hmem
      rw [if_pos (h lexemes hr w n m hmem hm)] at heq
      exact ⟨w,hslice,heq ▸ hm⟩

/-- One more than the largest integer is read as zero. -/
theorem lexedFaithfully_overflow :
    ¬ ∀ text, LexedFaithfully (fun _ => none) () text := by
  intro h
  have htokens : Lexer.tokenizeSource (fun _ => none) () ['9','2','2','3','3','7','2','0','3','6','8','5','4','7','7','5',
      '8','0','8'] = .ok [⟨.int 0,⟨0,19⟩⟩] := by
    decide
  obtain ⟨w,hw,hliteral⟩ := ((h _).lisp _ htokens).1 _ List.mem_cons_self 0 rfl
  have hslice : w = ['9','2','2','3','3','7','2','0','3','6','8','5','4','7','7','5','8','0','8'] := by
    apply Option.some.inj
    rw [← hw]
    decide
  rw [hslice] at hliteral
  have heq := hliteral.unique (.unsigned (by simp) (by simp))
  revert heq
  decide

end Nefor.Mag
