import Nefor.Tool.PatternParse
import Nefor.Tool.PatternLanguage

/-! A pattern compiles when the grammar has it, and the matcher it compiles to decides its language
but for iterations that must be empty. -/
namespace Nefor.Tool
open Nefor.Tool.Parser Anchored

/-! The recursion of the parser. -/

/-- Where a sequence ends. -/
def Ends (rest : Bytes) : Prop := rest = [] ∨ rest.head? = some (byte '|') ∨ rest.head? = some (byte ')')

/-- Where an alternation ends. -/
def Stops (rest : Bytes) : Prop := rest = [] ∨ rest.head? = some (byte ')')

theorem Ends.plain {rest : Bytes} (h : Ends rest) : Plain rest := by
  intro c hc heq
  obtain rfl | h | h := h
  · cases heq
  · rw [heq] at h
    obtain rfl := Option.some.inj h
    exact absurd hc (by decide)
  · rw [heq] at h
    obtain rfl := Option.some.inj h
    exact absurd hc (by decide)

theorem Stops.ends {rest : Bytes} (h : Stops rest) : Ends rest := h.imp_right .inr

/-- What is read is what the grammar has, with so much fuel. -/
structure Sound (fuel : Nat) : Prop where
  atom : ∀ {char p q node}, p.rest = char :: (p.skip 1).rest → char ≠ byte '|' ∧ char ≠ byte ')' →
    Parser.atom fuel char (p.skip 1) = .ok (node,q) → ∃ text, Reads p text q ∧ Atom text node
  sequence : ∀ {p q items}, Parser.sequence fuel p = .ok (items,q) →
    ∃ text, Reads p text q ∧ Sequence text items ∧ Ends q.rest
  branches : ∀ {p q branches}, Ends p.rest → Parser.branches fuel p = .ok (branches,q) →
    ∃ text, Reads p text q ∧ Branches text branches ∧ Stops q.rest
  alternation : ∀ {p q node}, Parser.alternation fuel p = .ok (node,q) →
    ∃ text, Reads p text q ∧ Pattern text node ∧ Stops q.rest

theorem groupStart_sound {p q : Parser} (h : p.groupStart = .ok q) :
    q = p ∨ Reads p [byte '?',byte ':'] q := by
  unfold groupStart at h
  split at h
  · rename_i hpeek
    split at h
    · rename_i hcolon
      cases h
      right
      have hrest := peek_eq hpeek
      apply @Reads.skip _ _ ((p.skip 2).rest)
      rw [hrest] at hcolon
      cases hmore : (p.skip 1).rest with
      | nil => simp [hmore] at hcolon
      | cons c more =>
        have hc : c = byte ':' := by simpa [hmore] using hcolon
        rw [hrest,hmore,hc,← p.skip_skip 1 1,Parser.skip,hmore]
        rfl
    · cases h
  · cases h
    exact .inl rfl

theorem sound_atom {fuel : Nat} (ih : Sound fuel) {char : UInt8} {p q : Parser} {node : Node}
    (hp : p.rest = char :: (p.skip 1).rest) (hstop : char ≠ byte '|' ∧ char ≠ byte ')')
    (h : Parser.atom (fuel + 1) char (p.skip 1) = .ok (node,q)) : ∃ text, Reads p text q ∧ Atom text node := by
  have hone := Reads.skip_one hp
  unfold Parser.atom at h
  split at h
  · rename_i hopen
    subst hopen
    obtain ⟨r,hstart,h⟩ := bind_ok.mp h
    obtain ⟨⟨n,r'⟩,halt,h⟩ := bind_ok.mp h
    obtain ⟨text,hread,hpattern,-⟩ := ih.alternation halt
    simp only at h
    split at h
    · cases h
    · rename_i hclose
      have hend := Reads.skip_one (peek_eq (not_not.mp hclose))
      cases h
      obtain rfl | hbare := groupStart_sound hstart
      · exact ⟨_,hone.append (hread.append hend),.group hpattern⟩
      · exact ⟨_,hone.append (hbare.append (hread.append hend)),.bare hpattern⟩
  · rename_i hopen
    obtain ⟨text,hread,hsimple⟩ := simple_sound hp hopen hstop h
    exact ⟨text,hread,.simple hsimple⟩

theorem sound_sequence {fuel : Nat} (ih : Sound fuel) {p q : Parser} {items : List Node}
    (h : Parser.sequence (fuel + 1) p = .ok (items,q)) : ∃ text, Reads p text q ∧ Sequence text items ∧ Ends q.rest := by
  unfold Parser.sequence at h
  split at h
  · rename_i hrest
    cases h
    exact ⟨[],Reads.nil p,.nil,.inl hrest⟩
  · rename_i c rest hrest
    split at h
    · rename_i hc
      cases h
      refine ⟨[],Reads.nil p,.nil,.inr ?_⟩
      rw [hrest]
      exact hc.imp (congrArg some) (congrArg some)
    · rename_i hc
      obtain ⟨⟨n,r⟩,hatom,h⟩ := bind_ok.mp h
      obtain ⟨⟨item,r'⟩,hquantifier,h⟩ := bind_ok.mp h
      obtain ⟨⟨more,r''⟩,hmore,h⟩ := bind_ok.mp h
      cases h
      obtain ⟨t,hread,ha⟩ := ih.atom (Reads.skip_one hrest).1 (not_or.mp hc) hatom
      obtain ⟨t',hread',hq,-⟩ := quantifier_sound hquantifier
      obtain ⟨t'',hread'',hs,hends⟩ := ih.sequence hmore
      exact ⟨_,hread.append (hread'.append hread''),.cons ha hq hs,hends⟩

theorem sound_branches {fuel : Nat} (ih : Sound fuel) {p q : Parser} {branches : List Node} (hp : Ends p.rest)
    (h : Parser.branches (fuel + 1) p = .ok (branches,q)) :
    ∃ text, Reads p text q ∧ Branches text branches ∧ Stops q.rest := by
  unfold Parser.branches at h
  split at h
  · rename_i hpeek
    have hone := Reads.skip_one (peek_eq hpeek)
    obtain ⟨⟨items,r⟩,hsequence,h⟩ := bind_ok.mp h
    obtain ⟨⟨rest,r'⟩,hrest,h⟩ := bind_ok.mp h
    cases h
    obtain ⟨t,hread,hs,hends⟩ := ih.sequence hsequence
    obtain ⟨t',hread',hb,hstops⟩ := ih.branches hends hrest
    exact ⟨byte '|' :: (t ++ t'),hone.append (hread.append hread'),.cons hs hb,hstops⟩
  · rename_i hpeek
    cases h
    refine ⟨[],Reads.nil p,.nil,?_⟩
    obtain h | h | h := hp
    · exact .inl h
    · exact absurd h hpeek
    · exact .inr h

theorem sound_alternation {fuel : Nat} (ih : Sound fuel) {p q : Parser} {node : Node}
    (h : Parser.alternation (fuel + 1) p = .ok (node,q)) : ∃ text, Reads p text q ∧ Pattern text node ∧ Stops q.rest := by
  unfold Parser.alternation at h
  obtain ⟨⟨items,r⟩,hsequence,h⟩ := bind_ok.mp h
  obtain ⟨⟨rest,r'⟩,hrest,h⟩ := bind_ok.mp h
  cases h
  obtain ⟨t,hread,hs,hends⟩ := ih.sequence hsequence
  obtain ⟨t',hread',hb,hstops⟩ := ih.branches hends hrest
  refine ⟨t ++ t',hread.append hread',?_,hstops⟩
  cases rest with
  | nil =>
    cases hb
    rw [List.append_nil]
    exact .sequence hs
  | cons branch rest => exact .alternation hs hb (List.cons_ne_nil _ _)

theorem sound : ∀ fuel, Sound fuel
  | 0 => by
    refine ⟨fun _ _ h => ?_,fun h => ?_,fun _ h => ?_,fun h => ?_⟩
    · cases h
    · cases h
    · cases h
    · cases h
  | fuel + 1 => ⟨sound_atom (sound fuel),sound_sequence (sound fuel),sound_branches (sound fuel),
      sound_alternation (sound fuel)⟩

/-- What the grammar has is read, with fuel for its length. -/
structure Complete (fuel : Nat) : Prop where
  atom : ∀ {text node p q}, Atom text node → Reads p text q → 3 * text.length ≤ fuel →
    ∃ c more, text = c :: more ∧ c ≠ byte '|' ∧ c ≠ byte ')' ∧ c ∉ quantifiers ∧
      Parser.atom fuel c (p.skip 1) = .ok (node,q)
  sequence : ∀ {text items p q}, Sequence text items → Reads p text q → Ends q.rest → 3 * text.length + 1 ≤ fuel →
    Plain p.rest ∧ Parser.sequence fuel p = .ok (items,q)
  branches : ∀ {text branches p q}, Branches text branches → Reads p text q → Stops q.rest → 3 * text.length + 2 ≤ fuel →
    Ends p.rest ∧ Parser.branches fuel p = .ok (branches,q)
  alternation : ∀ {text node p q}, Pattern text node → Reads p text q → Stops q.rest → 3 * text.length + 3 ≤ fuel →
    Plain p.rest ∧ Parser.alternation fuel p = .ok (node,q)

theorem groupStart_plain {p : Parser} (h : Plain p.rest) : p.groupStart = .ok p := if_neg (h _ (by decide))

theorem groupStart_bare {p q : Parser} (h : Reads p [byte '?',byte ':'] q) : p.groupStart = .ok q := by
  have hcolon : p.rest[1]? = some (byte ':') := by
    rw [h.1]
    rfl
  rw [groupStart,if_pos h.peek,if_pos hcolon,h.eq_skip]
  rfl

theorem complete_group {fuel : Nat} (ih : Complete fuel) {text : Bytes} {node : Node} {p q r : Parser}
    (h : Pattern text node) (hstart : p.groupStart = .ok r) (hr : Reads r (text ++ [byte ')']) q)
    (hfuel : 3 * text.length + 3 ≤ fuel) : Parser.atom (fuel + 1) (byte '(') p = .ok (node,q) := by
  obtain ⟨r',hread,hclose⟩ := hr.split
  have hstops : Stops r'.rest := .inr hclose.peek
  unfold Parser.atom
  rw [if_pos rfl]
  refine bind_ok.mpr ⟨r,hstart,bind_ok.mpr ⟨_,(ih.alternation h hread hstops hfuel).2,?_⟩⟩
  simp only
  rw [if_neg (not_not.mpr hclose.peek),hclose.eq_skip]
  rfl

theorem complete_atom {fuel : Nat} (ih : Complete fuel) {text : Bytes} {node : Node} {p q : Parser} (h : Atom text node)
    (hr : Reads p text q) (hfuel : 3 * text.length ≤ fuel + 1) :
    ∃ c more, text = c :: more ∧ c ≠ byte '|' ∧ c ≠ byte ')' ∧ c ∉ quantifiers ∧
      Parser.atom (fuel + 1) c (p.skip 1) = .ok (node,q) := by
  cases h with
  | simple h =>
    obtain ⟨c,more,rfl,hopen,hbar,hclose,hquant,hsimple⟩ := simple_complete hr h
    refine ⟨c,more,rfl,hbar,hclose,hquant,?_⟩
    rw [Parser.atom,if_neg hopen]
    exact hsimple
  | @group text _ h =>
    refine ⟨_,_,rfl,by decide,by decide,by decide,?_⟩
    simp only [List.length_cons,List.length_append,List.length_nil] at hfuel
    obtain ⟨r,hread,hclose⟩ := hr.split_cons.2.split
    have hplain := (ih.alternation h hread (.inr hclose.peek) (by omega)).1
    exact complete_group ih h (groupStart_plain hplain) hr.split_cons.2 (by omega)
  | @bare text _ h =>
    refine ⟨_,_,rfl,by decide,by decide,by decide,?_⟩
    simp only [List.length_cons,List.length_append,List.length_nil] at hfuel
    obtain ⟨r,hbare,hmore⟩ := @Reads.split _ _ [byte '?',byte ':'] _ hr.split_cons.2
    exact complete_group ih h (groupStart_bare hbare) hmore (by omega)

theorem complete_sequence {fuel : Nat} (ih : Complete fuel) {text : Bytes} {items : List Node} {p q : Parser}
    (h : Sequence text items) (hr : Reads p text q) (hends : Ends q.rest) (hfuel : 3 * text.length + 1 ≤ fuel + 1) :
    Plain p.rest ∧ Parser.sequence (fuel + 1) p = .ok (items,q) := by
  cases h with
  | nil =>
    obtain rfl := hr.eq_of_nil
    refine ⟨hends.plain,?_⟩
    unfold Parser.sequence
    split
    · rfl
    · rename_i c rest hrest
      rw [if_pos]
      obtain h | h | h := hends
      · rw [hrest] at h
        cases h
      · exact .inl (by simpa [hrest] using h)
      · exact .inr (by simpa [hrest] using h)
  | @cons atom quantifier rest node item items hatom hquantifier hrest =>
    simp only [List.length_append] at hfuel
    obtain ⟨r,hra,hmore⟩ := hr.split
    obtain ⟨r',hrq,hrs⟩ := hmore.split
    obtain ⟨c,more,rfl,hbar,hclose,hquant,hparse⟩ := ih.atom hatom hra (by omega)
    simp only [List.length_cons] at hfuel
    obtain ⟨hplain,hsequence⟩ := ih.sequence hrest hrs hends (by omega)
    have hp := hra.head
    refine ⟨?_,?_⟩
    · intro d hd heq
      rw [hp] at heq
      obtain rfl := Option.some.inj heq
      exact hquant hd
    · unfold Parser.sequence
      rw [hp]
      simp only
      rw [if_neg (not_or.mpr ⟨hbar,hclose⟩)]
      exact bind_ok.mpr ⟨_,hparse,bind_ok.mpr ⟨_,quantifier_complete hrq hquantifier hplain,
        bind_ok.mpr ⟨_,hsequence,rfl⟩⟩⟩

theorem complete_branches {fuel : Nat} (ih : Complete fuel) {text : Bytes} {branches : List Node} {p q : Parser}
    (h : Branches text branches) (hr : Reads p text q) (hstops : Stops q.rest)
    (hfuel : 3 * text.length + 2 ≤ fuel + 1) :
    Ends p.rest ∧ Parser.branches (fuel + 1) p = .ok (branches,q) := by
  cases h with
  | nil =>
    obtain rfl := hr.eq_of_nil
    refine ⟨hstops.ends,?_⟩
    unfold Parser.branches
    rw [if_neg]
    intro hpeek
    obtain h | h := hstops
    · rw [Parser.peek,h] at hpeek
      cases hpeek
    · rw [Parser.peek,h] at hpeek
      exact absurd (Option.some.inj hpeek) (by decide)
  | @cons text rest items branches hitems hrest =>
    simp only [List.length_cons,List.length_append] at hfuel
    obtain ⟨r,hread,hmore⟩ := hr.split_cons.2.split
    obtain ⟨hends,hbranches⟩ := ih.branches hrest hmore hstops (by omega)
    obtain ⟨-,hsequence⟩ := ih.sequence hitems hread hends (by omega)
    refine ⟨.inr (.inl hr.peek),?_⟩
    unfold Parser.branches
    rw [if_pos hr.peek]
    exact bind_ok.mpr ⟨_,hsequence,bind_ok.mpr ⟨_,hbranches,rfl⟩⟩

theorem complete_alternation {fuel : Nat} (ih : Complete fuel) {text : Bytes} {node : Node} {p q : Parser}
    (h : Pattern text node) (hr : Reads p text q) (hstops : Stops q.rest) (hfuel : 3 * text.length + 3 ≤ fuel + 1) :
    Plain p.rest ∧ Parser.alternation (fuel + 1) p = .ok (node,q) := by
  cases h with
  | @sequence text items hitems =>
    obtain ⟨hplain,hsequence⟩ := ih.sequence hitems hr hstops.ends (by omega)
    obtain ⟨-,hbranches⟩ := ih.branches .nil (Reads.nil q) hstops (by simp only [List.length_nil]; omega)
    refine ⟨hplain,?_⟩
    unfold Parser.alternation
    exact bind_ok.mpr ⟨_,hsequence,bind_ok.mpr ⟨_,hbranches,rfl⟩⟩
  | @alternation text rest items branches hitems hrest hne =>
    simp only [List.length_append] at hfuel
    obtain ⟨r,hread,hmore⟩ := hr.split
    obtain ⟨hends,hbranches⟩ := ih.branches hrest hmore hstops (by omega)
    obtain ⟨hplain,hsequence⟩ := ih.sequence hitems hread hends (by omega)
    refine ⟨hplain,?_⟩
    unfold Parser.alternation
    refine bind_ok.mpr ⟨_,hsequence,bind_ok.mpr ⟨_,hbranches,?_⟩⟩
    cases branches with
    | nil => exact absurd rfl hne
    | cons branch branches => rfl

theorem complete : ∀ fuel, Complete fuel
  | 0 => by
    refine ⟨fun h hr hfuel => ?_,fun _ _ _ hfuel => by omega,fun _ _ _ hfuel => by omega,fun _ _ _ hfuel => by omega⟩
    cases h with
    | simple h =>
      obtain ⟨c,more,rfl,-⟩ := simple_complete hr h
      simp at hfuel
    | group h => simp at hfuel
    | bare h => simp at hfuel
  | fuel + 1 => ⟨complete_atom (complete fuel),complete_sequence (complete fuel),complete_branches (complete fuel),
      complete_alternation (complete fuel)⟩

/-- A source compiles exactly when it is a pattern. -/
theorem compile_iff {source : Bytes} {node : Node} : compile source = .ok node ↔ Pattern source node := by
  unfold compile
  constructor
  · intro h
    obtain ⟨⟨n,q⟩,halt,h⟩ := bind_ok.mp h
    simp only at h
    split at h
    · cases h
    · rename_i hrest
      cases h
      obtain ⟨text,hread,hpattern,-⟩ := (sound _).alternation halt
      have hsource : source = text ++ q.rest := hread.1
      rw [not_not.mp hrest,List.append_nil] at hsource
      rwa [hsource]
  · intro h
    have hread : Reads ⟨1,source⟩ source ⟨1 + source.length,[]⟩ := ⟨(List.append_nil source).symm,rfl⟩
    refine bind_ok.mpr ⟨_,((complete _).alternation h hread (.inl rfl) le_rfl).2,rfl⟩

/-! The loops of the parser have enough rounds. -/

theorem ended_fail {α : Type} (p : Parser) (message : Bytes) : Avoids Failure.fuel (p.fail message : Except Failure α) := by
  intro h
  cases h

theorem escape_ended (p : Parser) : Avoids Failure.fuel p.escape := by
  unfold escape
  split
  · exact ended_fail _ _
  · split
    · exact avoids_ok _ _
    · split
      · exact avoids_ok _ _
      · exact avoids_ite (avoids_ok _ _) (ended_fail _ _)

theorem rangeEnd_ended (char : UInt8) (p : Parser) : Avoids Failure.fuel (rangeEnd char p) := by
  unfold rangeEnd
  refine avoids_ite (avoids_bind (escape_ended p) fun a _ => ?_) (avoids_ok _ _)
  obtain ⟨e,q⟩ := a
  cases e with
  | test => exact ended_fail _ _
  | byte => exact avoids_ok _ _

theorem range_ended (low : UInt8) (p : Parser) : Avoids Failure.fuel (range low p) := by
  unfold range
  split
  · refine avoids_ite (avoids_bind (rangeEnd_ended _ _) fun a _ => ?_) (avoids_ok _ _)
    exact avoids_ite (ended_fail _ _) (avoids_ok _ _)
  · exact avoids_ok _ _

theorem item_ended (char : UInt8) (p : Parser) : Avoids Failure.fuel (Parser.item char p) := by
  unfold Parser.item
  refine avoids_ite (avoids_bind (escape_ended p) fun a _ => ?_) (avoids_ite (ended_fail _ _) (range_ended _ _))
  obtain ⟨e,q⟩ := a
  cases e with
  | test => exact avoids_ok _ _
  | byte => exact range_ended _ _

theorem items_ended {fuel : Nat} {first : Bool} {p : Parser} (h : p.rest.length < fuel) :
    Avoids Failure.fuel (Parser.items fuel first p) := by
  induction fuel generalizing first p with
  | zero => omega
  | succ fuel ih =>
    unfold Parser.items take
    cases hrest : p.rest with
    | nil => exact ended_fail _ _
    | cons c rest =>
      simp only [List.head?_cons]
      split
      · exact avoids_ite (ended_fail _ _) (avoids_ok _ _)
      · rename_i hc
        refine avoids_bind (item_ended _ _) fun a ha => avoids_bind (ih ?_) fun _ _ => avoids_ok _ _
        have hp := (Reads.skip_one hrest).1
        have hlen : ∀ {text}, Reads p text a.2 → text ≠ [] → a.2.rest.length < fuel := by
          intro text hread hne
          have := hread.length_eq
          have := List.length_pos_iff.mpr hne
          omega
        obtain ⟨e,kind,negate,-,hr,-⟩ | ⟨t,b,-,hr,hsingle,-⟩ | ⟨t,t',low,high,-,-,hr,-⟩ := item_sound hp hc ha
        · exact hlen hr (by simp)
        · exact hlen hr (by cases hsingle <;> simp)
        · exact hlen hr (by simp)

theorem charClass_ended (p : Parser) : Avoids Failure.fuel p.charClass :=
  avoids_bind (items_ended (Nat.lt_succ_self _)) fun _ _ => avoids_ok _ _

theorem braces_ended (p : Parser) : Avoids Failure.fuel p.braces := by
  unfold braces
  split
  · exact ended_fail _ _
  · exact avoids_ite (ended_fail _ _) (avoids_ite (ended_fail _ _) (avoids_ok _ _))

theorem quantifier_ended (node : Node) (p : Parser) : Avoids Failure.fuel (quantifier node p) := by
  unfold quantifier
  refine avoids_bind ?_ fun a _ => ?_
  · exact avoids_ite (avoids_ok _ _) (avoids_ite (avoids_ok _ _) (avoids_ite (avoids_ok _ _)
      (avoids_ite (avoids_bind (braces_ended _) fun _ _ => avoids_ok _ _) (avoids_ok _ _))))
  · split
    · exact avoids_ok _ _
    · exact avoids_ite (ended_fail _ _) (avoids_ite (ended_fail _ _) (avoids_ite (ended_fail _ _) (avoids_ok _ _)))

theorem simple_ended (char : UInt8) (p : Parser) : Avoids Failure.fuel (Parser.simple char p) := by
  unfold Parser.simple
  refine avoids_ite (charClass_ended p) (avoids_ite (avoids_ok _ _) (avoids_ite (avoids_ok _ _) (avoids_ite (avoids_ok _ _)
    (avoids_ite (avoids_bind (escape_ended p) fun a _ => ?_)
      (avoids_ite (ended_fail _ _) (avoids_ite (ended_fail _ _) (avoids_ok _ _)))))))
  obtain ⟨e,q⟩ := a
  cases e with
  | test => exact avoids_ok _ _
  | byte => exact avoids_ok _ _

theorem groupStart_ended (p : Parser) : Avoids Failure.fuel p.groupStart :=
  avoids_ite (avoids_ite (avoids_ok _ _) (ended_fail _ _)) (avoids_ok _ _)

/-- With fuel for all bytes that are left the parser ends. -/
structure Ending (fuel : Nat) : Prop where
  atom : ∀ {char p}, 3 * p.rest.length + 4 ≤ fuel → Avoids Failure.fuel (Parser.atom fuel char p)
  sequence : ∀ {p}, 3 * p.rest.length + 2 ≤ fuel → Avoids Failure.fuel (Parser.sequence fuel p)
  branches : ∀ {p}, 3 * p.rest.length + 2 ≤ fuel → Avoids Failure.fuel (Parser.branches fuel p)
  alternation : ∀ {p}, 3 * p.rest.length + 3 ≤ fuel → Avoids Failure.fuel (Parser.alternation fuel p)

theorem ending_atom {fuel : Nat} (ih : Ending fuel) {char : UInt8} {p : Parser} (h : 3 * p.rest.length + 4 ≤ fuel + 1) :
    Avoids Failure.fuel (Parser.atom (fuel + 1) char p) := by
  unfold Parser.atom
  refine avoids_ite (avoids_bind (groupStart_ended p) fun q hq => ?_) (simple_ended _ _)
  have hlen : q.rest.length ≤ p.rest.length := by
    obtain rfl | hread := groupStart_sound hq
    · exact le_rfl
    · have := hread.length_eq
      omega
  exact avoids_bind (ih.alternation (by omega)) fun _ _ => avoids_ite (ended_fail _ _) (avoids_ok _ _)

theorem ending_sequence {fuel : Nat} (ih : Ending fuel) {p : Parser} (h : 3 * p.rest.length + 2 ≤ fuel + 1) :
    Avoids Failure.fuel (Parser.sequence (fuel + 1) p) := by
  unfold Parser.sequence
  split
  · exact avoids_ok _ _
  · rename_i c rest hrest
    have hone := Reads.skip_one hrest
    have hlen := hone.length_eq
    rw [List.length_singleton] at hlen
    split
    · exact avoids_ok _ _
    · rename_i hc
      refine avoids_bind (ih.atom (by omega)) fun a ha => avoids_bind (quantifier_ended _ _) fun b hb =>
        avoids_bind (ih.sequence ?_) fun _ _ => avoids_ok _ _
      obtain ⟨t,hread,hatom⟩ := (sound fuel).atom hone.1 (not_or.mp hc) ha
      obtain ⟨t',hread',-,-⟩ := quantifier_sound hb
      have := hread.length_eq
      have := hread'.length_eq
      have hpos : 0 < t.length := by
        cases hatom with
        | simple h =>
          obtain ⟨c,more,rfl,-⟩ := simple_complete hread h
          exact Nat.succ_pos _
        | group _ => exact Nat.succ_pos _
        | bare _ => exact Nat.succ_pos _
      omega

theorem ending_branches {fuel : Nat} (ih : Ending fuel) {p : Parser} (h : 3 * p.rest.length + 2 ≤ fuel + 1) :
    Avoids Failure.fuel (Parser.branches (fuel + 1) p) := by
  unfold Parser.branches
  split
  · rename_i hpeek
    have hlen := (Reads.skip_one (peek_eq hpeek)).length_eq
    rw [List.length_singleton] at hlen
    refine avoids_bind (ih.sequence (by omega)) fun a ha => ?_
    obtain ⟨t,hread,-⟩ := (sound fuel).sequence ha
    have := hread.length_eq
    exact avoids_bind (ih.branches (by omega)) fun _ _ => avoids_ok _ _
  · exact avoids_ok _ _

theorem ending_alternation {fuel : Nat} (ih : Ending fuel) {p : Parser} (h : 3 * p.rest.length + 3 ≤ fuel + 1) :
    Avoids Failure.fuel (Parser.alternation (fuel + 1) p) := by
  unfold Parser.alternation
  refine avoids_bind (ih.sequence (by omega)) fun a ha => ?_
  obtain ⟨t,hread,-⟩ := (sound fuel).sequence ha
  have := hread.length_eq
  exact avoids_bind (ih.branches (by omega)) fun _ _ => avoids_ok _ _

theorem ending : ∀ fuel, Ending fuel
  | 0 => ⟨fun h => by omega,fun h => by omega,fun h => by omega,fun h => by omega⟩
  | fuel + 1 => ⟨ending_atom (ending fuel),ending_sequence (ending fuel),ending_branches (ending fuel),
      ending_alternation (ending fuel)⟩

/-- A source that is no pattern has an error. -/
theorem compile_ended (source : Bytes) : Avoids Failure.fuel (compile source) := by
  apply avoids_bind
  · exact (ending _).alternation le_rfl
  · intro a _
    exact avoids_ite (ended_fail _ _) (avoids_ok _ _)

/-! The matcher. -/

theorem searchFrom_answers {subject : Bytes} (node : Node) {starts : List Nat}
    (hstarts : ∀ start ∈ starts, start ≤ subject.length) : Answers (searchFrom node subject starts)
      (∃ start ∈ starts, Finds subject (properLanguage node) start fun _ => some true) := by
  induction starts with
  | nil => exact answers_false (by simp)
  | cons start starts ih =>
    obtain ⟨hstart,hrest⟩ := List.forall_mem_cons.mp hstarts
    have hfirst := matchNode_decides node start (fun _ => some true) hstart fun _ _ _ => rfl
    exact (hfirst.either (ih hrest)).congr (by simp only [List.mem_cons,exists_eq_or_imp,properLanguage])

/-- The matcher always ends. It finds the words in which no iteration is empty. -/
theorem matcher_answers (node : Node) (subject : Bytes) :
    Answers (matcher node subject) (Within (properLanguage node) subject) := by
  apply (searchFrom_answers node fun start hs => ?_).congr
  · constructor
    · intro h
      obtain ⟨start,hstart,w,rest,hdrop,hw,-⟩ := h
      rw [List.mem_range] at hstart
      refine ⟨subject.take start,w,rest,?_,?_⟩
      · rw [List.append_assoc,← hdrop,List.take_append_drop]
      · rwa [List.take_eq_nil_iff,← List.length_eq_zero_iff,or_iff_left_of_imp fun h => by omega]
    · intro h
      obtain ⟨before,w,after,rfl,hw⟩ := h
      refine ⟨before.length,List.mem_range.mpr ?_,w,after,?_,?_,rfl⟩
      · simp only [List.length_append]
        omega
      · rw [List.append_assoc,List.drop_left]
      · rwa [List.length_eq_zero_iff]
  · exact Nat.lt_succ_iff.mp (List.mem_range.mp hs)

/-! The language and its part without empty iterations. -/

mutual

theorem proper_le_language : ∀ (node : Node) (start finish : Prop) (w : Bytes),
    languageWith proper node start finish w → languageWith id node start finish w
  | .set _ _, _, _, _, h => h
  | .seq items, _, _, _, h => by
    unfold languageWith at h ⊢
    exact proper_le_seq items _ _ _ h
  | .alt branches, _, _, _, h => by
    unfold languageWith at h ⊢
    exact proper_le_alt branches _ _ _ h
  | .bol, _, _, _, h => h
  | .eol, _, _, _, h => h
  | .repeated node _ _, _, _, _, h => by
    unfold languageWith at h ⊢
    obtain ⟨count,hmin,hmax,hpower⟩ := h
    exact ⟨count,hmin,hmax,power_mono (fun s f w hw => proper_le_language node s f w hw.2) hpower⟩

theorem proper_le_seq : ∀ (items : List Node) (start finish : Prop) (w : Bytes),
    seqWith proper items start finish w → seqWith id items start finish w
  | [], _, _, _, h => h
  | item :: items, _, _, _, h => by
    unfold seqWith at h ⊢
    exact append_mono (proper_le_language item) (proper_le_seq items) h

theorem proper_le_alt : ∀ (branches : List Node) (start finish : Prop) (w : Bytes),
    altWith proper branches start finish w → altWith id branches start finish w
  | [], _, _, _, h => h
  | branch :: branches, _, _, _, h => by
    unfold altWith at h ⊢
    exact h.imp (proper_le_language branch _ _ _) (proper_le_alt branches _ _ _)

end

mutual

/-- No group that must be repeated has the empty word. -/
def Solid : Node → Prop
  | .set _ _ => True
  | .seq items => SolidAll items
  | .alt branches => SolidAll branches
  | .bol => True
  | .eol => True
  | .repeated node min _ => Solid node ∧ (min = 0 ∨ ∀ start finish, ¬ language node start finish [])

def SolidAll : List Node → Prop
  | [] => True
  | node :: nodes => Solid node ∧ SolidAll nodes

end

mutual

theorem language_le_proper : ∀ (node : Node), Solid node → ∀ (start finish : Prop) (w : Bytes),
    languageWith id node start finish w → languageWith proper node start finish w
  | .set _ _, _, _, _, _, h => h
  | .seq items, hs, _, _, _, h => by
    unfold Solid at hs
    unfold languageWith at h ⊢
    exact seq_le_proper items hs _ _ _ h
  | .alt branches, hs, _, _, _, h => by
    unfold Solid at hs
    unfold languageWith at h ⊢
    exact alt_le_proper branches hs _ _ _ h
  | .bol, _, _, _, _, h => h
  | .eol, _, _, _, _, h => h
  | .repeated node _ _, hs, _, _, _, h => by
    unfold Solid at hs
    unfold languageWith at h ⊢
    obtain ⟨hnode,hbody⟩ := hs
    obtain ⟨count,hmin,hmax,hpower⟩ := h
    have hmono : ∀ s f w, proper (languageWith id node) s f w → proper (languageWith proper node) s f w :=
      fun s f w hw => ⟨hw.1,language_le_proper node hnode s f w hw.2⟩
    obtain hzero | hnone := hbody
    · obtain ⟨fewer,hfewer,hp⟩ := power_proper hpower
      refine ⟨fewer,?_,le_trans (WithTop.coe_le_coe.mpr hfewer) hmax,power_mono hmono hp⟩
      rw [hzero]
      exact bot_le
    · exact ⟨count,hmin,hmax,power_mono (fun s f w hw => hmono s f w (proper_of_no_empty hnone hw)) hpower⟩

theorem seq_le_proper : ∀ (items : List Node), SolidAll items → ∀ (start finish : Prop) (w : Bytes),
    seqWith id items start finish w → seqWith proper items start finish w
  | [], _, _, _, _, h => h
  | item :: items, hs, _, _, _, h => by
    unfold SolidAll at hs
    unfold seqWith at h ⊢
    exact append_mono (language_le_proper item hs.1) (seq_le_proper items hs.2) h

theorem alt_le_proper : ∀ (branches : List Node), SolidAll branches → ∀ (start finish : Prop) (w : Bytes),
    altWith id branches start finish w → altWith proper branches start finish w
  | [], _, _, _, _, h => h
  | branch :: branches, hs, _, _, _, h => by
    unfold SolidAll at hs
    unfold altWith at h ⊢
    exact h.imp (language_le_proper branch hs.1 _ _ _) (alt_le_proper branches hs.2 _ _ _)

end

theorem solid_within {node : Node} {subject : Bytes} (hs : Solid node) (h : Within (language node) subject) :
    Within (properLanguage node) subject := h.mono (language_le_proper node hs)

/-- A source compiles exactly when it is a pattern, and its matcher always ends. It decides the
language of the pattern where a word, if there is one, can be found without empty iterations;
this holds of all patterns in which no group that must be repeated has the empty word. -/
theorem pattern_decides (source : Bytes) (node : Node) (subject : Bytes) :
    (compile source = .ok node ↔ Pattern source node) ∧ Avoids Failure.fuel (compile source) ∧
      (matcher node subject).isSome = true ∧
      ((matcher node subject = some true ↔ Within (language node) subject) ↔
        (Within (language node) subject → Within (properLanguage node) subject)) ∧
      (Solid node → (matcher node subject = some true ↔ Within (language node) subject)) := by
  have hmatcher := matcher_answers node subject
  have hle : Within (properLanguage node) subject → Within (language node) subject :=
    Within.mono (proper_le_language node)
  refine ⟨compile_iff,compile_ended source,hmatcher.isSome,?_,?_⟩
  · rw [hmatcher.iff]
    exact ⟨fun h => h.mpr,fun h => ⟨hle,h⟩⟩
  · intro hs
    rw [hmatcher.iff]
    exact ⟨hle,solid_within hs⟩

/-- An optional letter, twice and nothing else: the empty subject is not found. -/
theorem pattern_minimum : ∃ node, compile (ascii "^(a?)\x7b2\x7d$") = .ok node ∧ matcher node [] = some false ∧
    Within (language node) [] := by
  refine ⟨.seq [.bol,.repeated (.seq [.repeated (.set (.byte 97) false) 0 1]) 2 2,.eol],rfl,by decide,[],[],[],rfl,?_⟩
  have hletter : languageWith id (.seq [.repeated (.set (.byte 97) false) 0 1]) True True [] := by
    refine ⟨[],[],rfl,⟨0,le_rfl,by decide,rfl⟩,rfl⟩
  refine ⟨[],[],rfl,⟨rfl,rfl⟩,[],[],rfl,⟨2,le_rfl,le_rfl,?_⟩,[],[],rfl,⟨rfl,rfl,rfl⟩,rfl⟩
  refine ⟨[],[],rfl,?_,[],[],rfl,?_,rfl⟩
  · simpa using hletter
  · simpa using hletter

end Nefor.Tool
