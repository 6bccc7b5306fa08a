import Nefor.Tool.PatternGrammar
import Mathlib.Data.List.TakeWhile

/-! The parser accepts what the grammar has, and nothing else. -/
namespace Nefor.Tool
open Nefor.Tool.Parser

variable {p q : Parser} {fuel : Nat} {text : Bytes} {char : UInt8}

/-! Escapes. -/

/-- What the parser makes of a byte after a backslash. -/
def meaning (char : UInt8) : Option Escaped :=
  match classTest (lower char) with
  | some kind => some (.test kind (char != lower char))
  | none =>
    match controlEscape char with
    | some b => some (.byte b)
    | none => if isPunctuation char then some (.byte char) else none

theorem meaning_letters : ∀ e ∈ letterEscapes, meaning e.1 = some e.2 := by
  decide

/-- A byte that is neither case of a letter is not that letter in lower case. -/
theorem lower_ne {letter : UInt8} (hlower : char ≠ letter) (hupper : char ≠ letter - 32) : lower char ≠ letter := by
  unfold lower
  split
  · rintro rfl
    simp at hupper
  · exact hlower

theorem meaning_eq (char : UInt8) :
    meaning char = (letterEscapes.lookup char).or (if isPunctuation char then some (.byte char) else none) := by
  cases hl : letterEscapes.lookup char with
  | some e =>
    obtain ⟨before,after,htable,-⟩ := List.lookup_eq_some_iff.mp hl
    exact meaning_letters (char,e) (htable ▸ List.mem_append_right _ List.mem_cons_self)
  | none =>
    have hother : ∀ e ∈ letterEscapes, char ≠ e.1 := fun e he =>
      bne_iff_ne.mp (List.lookup_eq_none_iff.mp hl e he)
    simp only [letterEscapes,List.forall_mem_cons] at hother
    obtain ⟨hd,hD,hw,hW,hs,hS,hn,hr,ht,-⟩ := hother
    have hclass : classTest (lower char) = none := by
      rw [classTest,if_neg (lower_ne hd hD),if_neg (lower_ne hw hW),if_neg (lower_ne hs hS)]
    have hcontrol : controlEscape char = none := by
      rw [controlEscape,if_neg hn,if_neg hr,if_neg ht]
    rw [meaning,hclass,hcontrol]
    rfl

theorem letters_not_punctuation : ∀ e ∈ letterEscapes, isPunctuation e.1 = false ∧ letterEscapes.lookup e.1 = some e.2 := by
  decide

theorem escapes_iff {e : Escaped} : Escapes char e ↔ meaning char = some e := by
  rw [meaning_eq]
  constructor
  · intro h
    obtain h | ⟨h,rfl⟩ := h
    · rw [(letters_not_punctuation _ h).2]
      rfl
    · have hnone : letterEscapes.lookup char = none := by
        rw [List.lookup_eq_none_iff]
        intro e he
        have hletter := (letters_not_punctuation e he).1
        rw [bne_iff_ne]
        intro heq
        rw [heq,hletter] at h
        cases h
      rw [hnone,if_pos h]
      rfl
  · intro h
    cases hl : letterEscapes.lookup char with
    | some e' =>
      rw [hl] at h
      obtain rfl := Option.some.inj h
      obtain ⟨before,after,htable,-⟩ := List.lookup_eq_some_iff.mp hl
      exact .inl (htable ▸ List.mem_append_right _ List.mem_cons_self)
    | none =>
      rw [hl] at h
      split at h
      · rename_i hp
        exact .inr ⟨hp,(Option.some.inj h).symm⟩
      · cases h

theorem escape_ok {e : Escaped} : p.escape = .ok (e,q) ↔ ∃ char, Reads p [char] q ∧ Escapes char e := by
  unfold escape take
  cases hrest : p.rest with
  | nil =>
    constructor
    · intro h
      cases h
    · intro h
      obtain ⟨char,hread,-⟩ := h
      have hcons := hread.split_cons.1
      rw [hrest] at hcons
      cases hcons
  | cons c rest =>
    have hone := Reads.skip_one hrest
    have hmeaning : (∃ char, Reads p [char] q ∧ Escapes char e) ↔ meaning c = some e ∧ p.skip 1 = q := by
      constructor
      · intro h
        obtain ⟨char,hread,hesc⟩ := h
        have hcons := hread.split_cons.1
        rw [hrest] at hcons
        obtain rfl := (List.cons_eq_cons.mp hcons).1
        exact ⟨escapes_iff.mp hesc,hone.eq hread⟩
      · intro h
        obtain ⟨hm,rfl⟩ := h
        exact ⟨c,hone,escapes_iff.mpr hm⟩
    rw [hmeaning,meaning]
    simp only [List.head?_cons]
    cases classTest (lower c) with
    | some kind => simp
    | none =>
      cases controlEscape c with
      | some b => simp
      | none =>
        simp only
        split
        · simp
        · simp [Parser.fail]

theorem escape_reads {e : Escaped} (h : p.escape = .ok (e,q)) : ∃ char, Reads p [char] q ∧ Escapes char e :=
  escape_ok.mp h

theorem escape_of_reads {e : Escaped} {char : UInt8} (hread : Reads p [char] q) (hesc : Escapes char e) :
    p.escape = .ok (e,q) :=
  escape_ok.mpr ⟨char,hread,hesc⟩

/-! Classes. -/

theorem rangeEnd_sound {high : UInt8} {first : UInt8} (hfirst : first ≠ byte ']')
    (hp : p.rest = first :: (p.skip 1).rest) (h : rangeEnd first (p.skip 1) = .ok (high,q)) :
    ∃ text, Reads p text q ∧ Single [byte ']'] text high := by
  unfold rangeEnd at h
  split at h
  · rename_i hback
    subst hback
    obtain ⟨⟨e,r⟩,he,h⟩ := bind_ok.mp h
    cases e with
    | test kind negate => cases h
    | byte b =>
      obtain ⟨c,hread,hesc⟩ := escape_reads he
      cases h
      exact ⟨_,(Reads.skip_one hp).append hread,.escaped hesc⟩
  · rename_i hback
    cases h
    exact ⟨_,Reads.skip_one hp,.plain hback (by simpa using hfirst)⟩

theorem rangeEnd_complete {high first : UInt8} (hp : p.rest = first :: (p.skip 1).rest) (hr : Reads p text q)
    (h : Single [byte ']'] text high) : first ≠ byte ']' ∧ rangeEnd first (p.skip 1) = .ok (high,q) := by
  unfold rangeEnd
  cases h with
  | plain hback hex =>
    obtain ⟨hcons,hq⟩ := hr.split_cons
    rw [hp] at hcons
    obtain rfl := (List.cons_eq_cons.mp hcons).1
    rw [if_neg hback,hq.eq_of_nil]
    exact ⟨by simpa using hex,rfl⟩
  | escaped hesc =>
    obtain ⟨hcons,hq⟩ := hr.split_cons
    rw [hp] at hcons
    obtain rfl := (List.cons_eq_cons.mp hcons).1
    refine ⟨by decide,?_⟩
    rw [if_pos rfl]
    exact bind_ok.mpr ⟨_,escape_of_reads hq hesc,rfl⟩

/-- What stands after a dash of a range, before the text that follows the class's end. -/
theorem range_sound {low : UInt8} {item : Item} (h : range low p = .ok (item,q)) :
    (item = .range low low ∧ q = p ∧ ¬ StartsRange p.rest) ∨
    ∃ text high, item = .range low high ∧ low ≤ high ∧ Reads p (byte '-' :: text) q ∧ Single [byte ']'] text high := by
  unfold range at h
  split at h
  · rename_i dash c rest hrest
    split at h
    · rename_i hdash
      obtain ⟨rfl,hc⟩ := hdash
      obtain ⟨⟨high,r⟩,hend,h⟩ := bind_ok.mp h
      have hskip : p.skip 2 = (p.skip 1).skip 1 := (p.skip_skip 1 1).symm
      have hp : (p.skip 1).rest = c :: ((p.skip 1).skip 1).rest := by
        simp [Parser.skip,hrest]
      rw [hskip] at hend
      obtain ⟨text,hread,hsingle⟩ := rangeEnd_sound hc hp hend
      simp only at h
      split at h
      · cases h
      · rename_i hle
        cases h
        exact .inr ⟨text,high,rfl,by simpa using hle,(Reads.skip_one hrest).append hread,hsingle⟩
    · rename_i hdash
      cases h
      refine .inl ⟨rfl,rfl,fun hs => ?_⟩
      obtain ⟨c',rest',heq,hne⟩ := hs
      rw [hrest] at heq
      obtain ⟨hd,hrest'⟩ := List.cons_eq_cons.mp heq
      obtain ⟨rfl,-⟩ := List.cons_eq_cons.mp hrest'
      exact hdash ⟨hd,hne⟩
  · rename_i hrest
    cases h
    refine .inl ⟨rfl,rfl,fun hs => ?_⟩
    obtain ⟨c',rest',heq,-⟩ := hs
    exact hrest _ _ _ heq

theorem range_single {low : UInt8} (h : ¬ StartsRange p.rest) : range low p = .ok (.range low low,p) := by
  unfold range
  split
  · rename_i dash c rest hrest
    rw [if_neg]
    rintro ⟨rfl,hc⟩
    exact h ⟨c,rest,hrest,hc⟩
  · rfl

theorem range_complete {low high : UInt8} (hr : Reads p (byte '-' :: text) q) (hle : low ≤ high)
    (h : Single [byte ']'] text high) : range low p = .ok (.range low high,q) := by
  obtain ⟨hrest,hread⟩ := hr.split_cons
  obtain ⟨c,more,hmore⟩ : ∃ c more, text = c :: more := by
    cases h with
    | plain _ _ => exact ⟨_,_,rfl⟩
    | escaped _ => exact ⟨_,_,rfl⟩
  subst hmore
  have hp : (p.skip 1).rest = c :: ((p.skip 1).skip 1).rest := by
    simp [Parser.skip,hrest]
  obtain ⟨hc,hend⟩ := rangeEnd_complete hp hread h
  unfold range
  rw [hrest]
  simp only [List.cons_append,true_and,if_pos hc]
  rw [p.skip_skip 1 1] at hend
  refine bind_ok.mpr ⟨_,hend,?_⟩
  simp only
  rw [if_neg (by simpa using hle)]

/-- The text of the next item, without what decides whether a byte begins a range. -/
theorem item_sound {item : Item} (hp : p.rest = char :: (p.skip 1).rest) (hc : char ≠ byte ']')
    (h : Parser.item char (p.skip 1) = .ok (item,q)) :
    (∃ c kind negate, item = .test kind negate ∧ Reads p [byte '\\',c] q ∧ Escapes c (.test kind negate)) ∨
    (∃ text b, item = .range b b ∧ Reads p text q ∧ Single [byte ']',byte '['] text b ∧ ¬ StartsRange q.rest) ∨
    ∃ text text' low high, item = .range low high ∧ low ≤ high ∧ Reads p (text ++ byte '-' :: text') q ∧
      Single [byte ']',byte '['] text low ∧ Single [byte ']'] text' high := by
  have hrange : ∀ {text r low}, Reads p text r → Single [byte ']',byte '['] text low →
      range low r = .ok (item,q) →
      (∃ text b, item = .range b b ∧ Reads p text q ∧ Single [byte ']',byte '['] text b ∧ ¬ StartsRange q.rest) ∨
      ∃ text text' low high, item = .range low high ∧ low ≤ high ∧ Reads p (text ++ byte '-' :: text') q ∧
        Single [byte ']',byte '['] text low ∧ Single [byte ']'] text' high := by
    intro text r low hread hsingle hr
    obtain ⟨rfl,rfl,hnot⟩ | ⟨text',high,rfl,hle,hread',hend⟩ := range_sound hr
    · exact .inl ⟨text,low,rfl,hread,hsingle,hnot⟩
    · exact .inr ⟨text,text',low,high,rfl,hle,hread.append hread',hsingle,hend⟩
  unfold Parser.item at h
  split at h
  · rename_i hback
    subst hback
    obtain ⟨⟨e,r⟩,he,h⟩ := bind_ok.mp h
    obtain ⟨c,hread,hesc⟩ := escape_reads he
    have hboth := (Reads.skip_one hp).append hread
    cases e with
    | test kind negate =>
      cases h
      exact .inl ⟨c,kind,negate,rfl,hboth,hesc⟩
    | byte b => exact .inr (hrange hboth (.escaped hesc) h)
  · rename_i hback
    split at h
    · cases h
    · rename_i hopen
      exact .inr (hrange (Reads.skip_one hp) (.plain hback (by simp [hc,hopen])) h)

theorem item_test {kind : Kind} {negate : Bool} (hr : Reads p [byte '\\',char] q)
    (h : Escapes char (.test kind negate)) : Parser.item (byte '\\') (p.skip 1) = .ok (.test kind negate,q) := by
  obtain ⟨-,hread⟩ := hr.split_cons
  rw [Parser.item,if_pos rfl]
  exact bind_ok.mpr ⟨_,escape_of_reads hread h,rfl⟩

theorem item_range {low : UInt8} (hr : Reads p text q) (h : Single [byte ']',byte '['] text low) :
    ∃ c more, text = c :: more ∧ c ≠ byte ']' ∧ Parser.item c (p.skip 1) = range low q := by
  cases h with
  | plain hback hex =>
    refine ⟨low,[],rfl,fun h => hex (by simp [h]),?_⟩
    rw [Parser.item,if_neg hback,if_neg fun h => hex (by simp [h]),(hr.split_cons.2).eq_of_nil]
  | escaped hesc =>
    refine ⟨_,_,rfl,by decide,?_⟩
    rw [Parser.item,if_pos rfl,escape_of_reads hr.split_cons.2 hesc]
    rfl

/-- The end of a class is no end of a range. -/
theorem startsRange_append {rest after : Bytes} : StartsRange (rest ++ byte ']' :: after) ↔ StartsRange rest := by
  constructor
  · intro h
    obtain ⟨c,more,heq,hne⟩ := h
    match rest with
    | [] => exact absurd (List.cons_eq_cons.mp heq).1 (by decide)
    | [d] => exact absurd (List.cons_eq_cons.mp (List.cons_eq_cons.mp heq).2).1.symm hne
    | d :: e :: rest =>
      obtain ⟨rfl,hrest⟩ := List.cons_eq_cons.mp heq
      obtain ⟨rfl,-⟩ := List.cons_eq_cons.mp hrest
      exact ⟨e,rest,rfl,hne⟩
  · intro h
    obtain ⟨c,more,rfl,hne⟩ := h
    exact ⟨c,more ++ byte ']' :: after,rfl,hne⟩

theorem items_sound {first : Bool} {is : List Item} (h : Parser.items fuel first p = .ok (is,q)) :
    ∃ text, Reads p (text ++ [byte ']']) q ∧ Members text is ∧ (first = true → text ≠ []) := by
  induction fuel generalizing first p is with
  | zero => cases h
  | succ fuel ih =>
    unfold Parser.items take at h
    cases hrest : p.rest with
    | nil =>
      rw [hrest] at h
      cases h
    | cons c rest =>
      have hone := Reads.skip_one hrest
      have hp : p.rest = c :: (p.skip 1).rest := hone.1
      rw [hrest] at h
      simp only [List.head?_cons] at h
      split at h
      · rename_i hc
        subst hc
        split at h
        · cases h
        · rename_i hfirst
          cases h
          exact ⟨[],hone,.nil,fun hf => absurd hf hfirst⟩
      · rename_i hc
        obtain ⟨⟨i,r⟩,hitem,h⟩ := bind_ok.mp h
        obtain ⟨⟨more,q'⟩,hmore,h⟩ := bind_ok.mp h
        cases h
        obtain ⟨text,hread,hmembers,-⟩ := ih hmore
        obtain ⟨e,kind,negate,rfl,hr,hesc⟩ | ⟨t,b,rfl,hr,hsingle,hnot⟩ | ⟨t,t',low,high,rfl,hle,hr,hlow,hhigh⟩ :=
          item_sound hp hc hitem
        · exact ⟨byte '\\' :: e :: text,by simpa using hr.append hread,.test hesc hmembers,by simp⟩
        · refine ⟨t ++ text,?_,.single hsingle ?_ hmembers,fun _ => ?_⟩
          · rw [List.append_assoc]
            exact hr.append hread
          · rwa [hread.1,List.append_assoc,List.singleton_append,startsRange_append] at hnot
          · cases hsingle <;> simp
        · refine ⟨t ++ (byte '-' :: (t' ++ text)),?_,.range hlow hhigh hle hmembers,by simp⟩
          have hboth := hr.append hread
          simpa using hboth

theorem items_step {first : Bool} {i : Item} {is : List Item} {r : Parser} (hp : p.rest = char :: (p.skip 1).rest)
    (hc : char ≠ byte ']') (hitem : Parser.item char (p.skip 1) = .ok (i,r))
    (hrest : Parser.items fuel false r = .ok (is,q)) : Parser.items (fuel + 1) first p = .ok (i :: is,q) := by
  unfold Parser.items take
  rw [hp]
  simp only [List.head?_cons]
  rw [if_neg hc]
  exact bind_ok.mpr ⟨_,hitem,bind_ok.mpr ⟨_,hrest,rfl⟩⟩

theorem items_complete {first : Bool} {is : List Item} (h : Members text is) (hr : Reads p (text ++ [byte ']']) q)
    (hfirst : first = true → text ≠ []) (hfuel : text.length < fuel) : Parser.items fuel first p = .ok (is,q) := by
  induction h generalizing fuel first p with
  | nil =>
    obtain ⟨fuel,rfl⟩ : ∃ n, fuel = n + 1 := ⟨fuel - 1,by omega⟩
    have hf : first = false := by simpa using hfirst
    have hq := hr.eq_skip
    unfold Parser.items take
    rw [hr.1]
    simp [hf,hq]
  | @test c kind negate rest items hesc _ ih =>
    obtain ⟨fuel,rfl⟩ : ∃ n, fuel = n + 1 := ⟨fuel - 1,by omega⟩
    obtain ⟨r,hitem,hrest⟩ := @Reads.split _ _ [byte '\\',c] _ hr
    simp only [List.length_cons] at hfuel
    exact items_step hitem.head (by decide) (item_test hitem hesc) (ih hrest (by simp) (by omega))
  | @single text rest b items hsingle hnot _ ih =>
    rw [List.append_assoc] at hr
    obtain ⟨r,hitem,hrest⟩ := Reads.split hr
    obtain ⟨c,more,rfl,hc,hrange⟩ := item_range hitem hsingle
    obtain ⟨fuel,rfl⟩ : ∃ n, fuel = n + 1 := ⟨fuel - 1,by omega⟩
    simp only [List.length_append,List.length_cons] at hfuel
    have hr' : ¬ StartsRange r.rest := by
      rwa [hrest.1,List.append_assoc,List.singleton_append,startsRange_append]
    rw [range_single hr'] at hrange
    exact items_step hitem.head hc hrange (ih hrest (by simp) (by omega))
  | @range text text' rest low high items hlow hhigh hle _ ih =>
    have hr' : Reads p (text ++ ((byte '-' :: text') ++ (rest ++ [byte ']']))) q := by
      simpa using hr
    obtain ⟨r,hitem,hrest⟩ := Reads.split hr'
    obtain ⟨r',hend,hmore⟩ := Reads.split hrest
    obtain ⟨c,more,rfl,hc,hrange⟩ := item_range hitem hlow
    obtain ⟨fuel,rfl⟩ : ∃ n, fuel = n + 1 := ⟨fuel - 1,by omega⟩
    simp only [List.length_append,List.length_cons] at hfuel
    rw [range_complete hend hle hhigh] at hrange
    exact items_step hitem.head hc hrange (ih hmore (by simp) (by omega))

theorem charClass_sound {node : Node} (h : p.charClass = .ok (node,q)) :
    ∃ text, Reads p text q ∧ CharClass (byte '[' :: text) node := by
  unfold Parser.charClass at h
  obtain ⟨⟨is,r⟩,hitems,h⟩ := bind_ok.mp h
  cases h
  cases hneg : p.peek == some (byte '^') with
  | true =>
    rw [hneg] at hitems
    obtain ⟨text,hread,hmembers,hne⟩ := items_sound hitems
    obtain ⟨rest,hrest⟩ : ∃ rest, p.rest = byte '^' :: rest := by
      have hhead := beq_iff_eq.mp hneg
      cases hp : p.rest with
      | nil => simp [Parser.peek,hp] at hhead
      | cons c rest => exact ⟨rest,by simpa [Parser.peek,hp] using hhead⟩
    exact ⟨_,(Reads.skip_one hrest).append hread,.negated hmembers (hne rfl)⟩
  | false =>
    rw [hneg] at hitems
    obtain ⟨text,hread,hmembers,hne⟩ := items_sound hitems
    have hread' : Reads p (text ++ [byte ']']) q := hread
    refine ⟨_,hread',.plain hmembers (hne rfl) fun hhead => ?_⟩
    have hpeek : p.peek = some (byte '^') := by
      simp [Parser.peek,hread'.1,hhead]
    rw [hpeek] at hneg
    cases hneg

theorem charClass_complete {node : Node} (hr : Reads p text q) (h : CharClass (byte '[' :: text) node) :
    p.charClass = .ok (node,q) := by
  generalize hwhole : byte '[' :: text = whole at h
  cases h with
  | @plain inner items hmembers hne hhead =>
    obtain ⟨-,rfl⟩ := List.cons_eq_cons.mp hwhole
    have hpeek : (p.peek == some (byte '^')) = false := by
      rw [beq_eq_false_iff_ne,Parser.peek,hr.1]
      cases inner with
      | nil => exact absurd rfl hne
      | cons c inner => simpa using hhead
    have hlen := hr.length_eq
    rw [List.length_append,List.length_singleton] at hlen
    unfold Parser.charClass
    rw [hpeek]
    exact bind_ok.mpr ⟨_,items_complete hmembers hr (fun _ => hne)
      (by change inner.length < p.rest.length + 1; omega),rfl⟩
  | @negated inner items hmembers hne =>
    obtain ⟨-,rfl⟩ := List.cons_eq_cons.mp hwhole
    obtain ⟨hrest,hread⟩ := hr.split_cons
    have hpeek : (p.peek == some (byte '^')) = true := by
      rw [beq_iff_eq,Parser.peek,hrest]
      rfl
    have hlen := hread.length_eq
    rw [List.length_append,List.length_singleton] at hlen
    unfold Parser.charClass
    rw [hpeek]
    exact bind_ok.mpr ⟨_,items_complete hmembers hread (fun _ => hne) (by simp only [if_true]; omega),rfl⟩

/-! Quantifiers. -/

theorem number_sound {n : Bound} (h : p.number = (some n,q)) : ∃ digits, Reads p digits q ∧ Digits digits ∧ n = toNumber digits := by
  unfold number at h
  simp only at h
  split at h
  · cases h
  · rename_i hne
    obtain ⟨hn,rfl⟩ := Prod.mk.inj h
    obtain rfl := Option.some.inj hn
    refine ⟨_,Reads.skip (List.takeWhile_append_dropWhile).symm,⟨hne,?_⟩,rfl⟩
    exact fun b hb => List.mem_takeWhile_imp hb

theorem number_none (h : p.number.1 = none) : p.number.2 = p := by
  unfold number at h ⊢
  simp only at h ⊢
  split
  · rfl
  · rename_i hne
    rw [if_neg hne] at h
    cases h

theorem number_complete {digits more : Bytes} (hr : Reads p digits q) (hd : Digits digits)
    (hrest : q.rest = char :: more) (hchar : isDigit char = false) : p.number = (some (toNumber digits),q) := by
  have htake : p.rest.takeWhile isDigit = digits := by
    rw [hr.1,hrest,List.takeWhile_append_of_pos hd.2,List.takeWhile_cons_of_neg (by simp [hchar]),List.append_nil]
  unfold number
  simp only [htake]
  rw [if_neg hd.1,hr.eq_skip]

/-- The bytes that begin a quantifier. -/
def quantifiers : List UInt8 := [byte '*',byte '+',byte '?',byte '{']

/-- No quantifier follows. -/
def Plain (rest : Bytes) : Prop := ∀ char ∈ quantifiers, rest.head? ≠ some char

theorem peek_eq {char : UInt8} (h : p.peek = some char) : p.rest = char :: (p.skip 1).rest := by
  cases hp : p.rest with
  | nil => simp [peek,hp] at h
  | cons c rest =>
    have hc : c = char := by simpa [peek,hp] using h
    simp [Parser.skip,hp,hc]

theorem Reads.peek {more : Bytes} (h : Reads p (char :: more) q) : p.peek = some char := by
  rw [Parser.peek,h.1]
  rfl

theorem close_ok {min max : Bound} {b : Bound × Bound} :
    close min max p = .ok (b,q) ↔ b = (min,max) ∧ Reads p [byte '}'] q ∧ min ≤ max := by
  unfold close
  split
  · rename_i hpeek
    constructor
    · intro h
      cases h
    · intro h
      exact absurd h.2.1.peek hpeek
  · rename_i hpeek
    have hread := Reads.skip_one (peek_eq (not_not.mp hpeek))
    split
    · rename_i hlt
      constructor
      · intro h
        cases h
      · intro h
        exact absurd h.2.2 (not_le.mpr hlt)
    · rename_i hle
      constructor
      · intro h
        cases h
        exact ⟨rfl,hread,not_lt.mp hle⟩
      · intro h
        obtain ⟨rfl,hread',-⟩ := h
        rw [hread.eq hread']

theorem braces_sound {b : Bound × Bound} (h : p.braces = .ok (b,q)) :
    ∃ text, Reads p text q ∧ Quantifier (byte '{' :: text) b.1 b.2 := by
  unfold braces at h
  split at h
  · cases h
  · rename_i min r hnumber
    obtain ⟨n,hn,hd,rfl⟩ := number_sound hnumber
    obtain ⟨rfl,hclose,hle⟩ := close_ok.mp h
    unfold upper at hclose hle ⊢
    split at hclose
    · rename_i hcomma
      rw [if_pos hcomma] at hle ⊢
      have hc := Reads.skip_one (peek_eq hcomma)
      cases hm : (r.skip 1).number.1 with
      | none =>
        rw [number_none hm] at hclose
        exact ⟨_,hn.append (hc.append hclose),.atLeast hd⟩
      | some m =>
        rw [hm] at hle
        obtain ⟨m',hm',hd',rfl⟩ := number_sound (Prod.ext hm rfl)
        exact ⟨_,hn.append (hc.append (hm'.append hclose)),.between hd hd' hle⟩
    · rename_i hcomma
      rw [if_neg hcomma]
      exact ⟨_,hn.append hclose,.exactly hd⟩

theorem braces_exactly {n : Bytes} (hd : Digits n) (hr : Reads p (n ++ [byte '}']) q) :
    p.braces = .ok ((toNumber n,toNumber n),q) := by
  obtain ⟨r,hn,hclose⟩ := hr.split
  have hcomma : ¬ r.peek = some (byte ',') := by
    rw [hclose.peek]
    decide
  rw [braces,number_complete hn hd hclose.head (by decide)]
  simp only [upper,if_neg hcomma]
  exact close_ok.mpr ⟨rfl,hclose,le_rfl⟩

theorem braces_atLeast {n : Bytes} (hd : Digits n) (hr : Reads p (n ++ [byte ',',byte '}']) q) :
    p.braces = .ok ((toNumber n,⊤),q) := by
  obtain ⟨r,hn,hclose⟩ := hr.split
  obtain ⟨-,hend⟩ := hclose.split_cons
  have hnone : (r.skip 1).number = (none,r.skip 1) := by
    unfold number
    rw [hend.1]
    rfl
  rw [braces,number_complete hn hd hclose.head (by decide)]
  simp only [upper,if_pos hclose.peek,hnone]
  exact close_ok.mpr ⟨rfl,hend,le_top⟩

theorem braces_between {n m : Bytes} (hd : Digits n) (hd' : Digits m) (hle : toNumber n ≤ toNumber m)
    (hr : Reads p (n ++ (byte ',' :: (m ++ [byte '}']))) q) : p.braces = .ok ((toNumber n,toNumber m),q) := by
  obtain ⟨r,hn,hclose⟩ := hr.split
  obtain ⟨-,hmore⟩ := hclose.split_cons
  obtain ⟨r',hm,hend⟩ := hmore.split
  rw [braces,number_complete hn hd hclose.head (by decide)]
  simp only [upper,if_pos hclose.peek,number_complete hm hd' hend.head (by decide)]
  exact close_ok.mpr ⟨rfl,hend,hle⟩

theorem bounds_none (h : p.bounds = .ok (none,q)) : q = p ∧ Plain p.rest := by
  unfold bounds at h
  split at h
  · cases h
  · rename_i h₁
    split at h
    · cases h
    · rename_i h₂
      split at h
      · cases h
      · rename_i h₃
        split at h
        · obtain ⟨b,-,h⟩ := bind_ok.mp h
          cases h
        · rename_i h₄
          cases h
          refine ⟨rfl,?_⟩
          intro c hc
          simp only [quantifiers,List.mem_cons,List.not_mem_nil,or_false] at hc
          obtain rfl | rfl | rfl | rfl := hc
          · exact h₁
          · exact h₂
          · exact h₃
          · exact h₄

theorem bounds_plain (h : Plain p.rest) : p.bounds = .ok (none,p) := by
  unfold bounds Parser.peek
  rw [if_neg (h _ (by decide)),if_neg (h _ (by decide)),if_neg (h _ (by decide)),if_neg (h _ (by decide))]

theorem bounds_some {min max : Bound} (h : p.bounds = .ok (some (min,max),q)) :
    ∃ text, Reads p text q ∧ Quantifier text min max := by
  unfold bounds at h
  split at h
  · rename_i hpeek
    cases h
    exact ⟨_,Reads.skip_one (peek_eq hpeek),.star⟩
  · split at h
    · rename_i hpeek
      cases h
      exact ⟨_,Reads.skip_one (peek_eq hpeek),.plus⟩
    · split at h
      · rename_i hpeek
        cases h
        exact ⟨_,Reads.skip_one (peek_eq hpeek),.option⟩
      · split at h
        · rename_i hpeek
          obtain ⟨⟨b,r⟩,hb,h⟩ := bind_ok.mp h
          obtain ⟨text,hread,hq⟩ := braces_sound hb
          cases h
          exact ⟨_,(Reads.skip_one (peek_eq hpeek)).append hread,hq⟩
        · cases h

theorem bounds_braces {more : Bytes} {b : Bound × Bound} (hr : Reads p (byte '{' :: more) q)
    (h : (p.skip 1).braces = .ok (b,q)) : p.bounds = .ok (some b,q) := by
  unfold bounds
  rw [hr.peek,if_neg (by decide),if_neg (by decide),if_neg (by decide),if_pos rfl]
  exact bind_ok.mpr ⟨_,h,rfl⟩

theorem bounds_complete {min max : Bound} (hr : Reads p text q) (h : Quantifier text min max) :
    p.bounds = .ok (some (min,max),q) := by
  cases h with
  | star =>
    rw [bounds,hr.peek,hr.eq_skip]
    rfl
  | plus =>
    rw [bounds,hr.peek,hr.eq_skip]
    rfl
  | option =>
    rw [bounds,hr.peek,hr.eq_skip]
    rfl
  | exactly hn => exact bounds_braces hr (braces_exactly hn hr.split_cons.2)
  | atLeast hn => exact bounds_braces hr (braces_atLeast hn hr.split_cons.2)
  | between hn hm hle => exact bounds_braces hr (braces_between hn hm hle hr.split_cons.2)

theorem quantifier_sound {node item : Node} (h : quantifier node p = .ok (item,q)) :
    ∃ text, Reads p text q ∧ Quantified node text item ∧ Plain q.rest := by
  unfold quantifier at h
  obtain ⟨⟨b,r⟩,hb,h⟩ := bind_ok.mp h
  cases b with
  | none =>
    obtain ⟨hr,hplain⟩ := bounds_none hb
    cases h
    exact ⟨[],hr ▸ Reads.nil _,.once,hr ▸ hplain⟩
  | some b =>
    obtain ⟨min,max⟩ := b
    obtain ⟨text,hread,hq⟩ := bounds_some hb
    simp only at h
    split at h
    · cases h
    · rename_i hanchor
      split at h
      · cases h
      · rename_i hlazy
        split at h
        · cases h
        · rename_i hnested
          cases h
          refine ⟨text,hread,.times (by simpa using hanchor) hq,?_⟩
          intro c hc
          simp only [quantifiers,List.mem_cons,List.not_mem_nil,or_false] at hc
          obtain rfl | rfl | rfl | rfl := hc
          · exact fun h => hnested (.inl h)
          · exact fun h => hnested (.inr (.inl h))
          · exact hlazy
          · exact fun h => hnested (.inr (.inr h))

theorem quantifier_complete {node item : Node} (hr : Reads p text q) (h : Quantified node text item)
    (hplain : Plain q.rest) : quantifier node p = .ok (item,q) := by
  unfold quantifier
  cases h with
  | once =>
    obtain rfl := hr.eq_of_nil
    exact bind_ok.mpr ⟨_,bounds_plain hplain,rfl⟩
  | @times text min max hanchor hq =>
    refine bind_ok.mpr ⟨_,bounds_complete hr hq,?_⟩
    have hpeek : ∀ c ∈ quantifiers, q.peek ≠ some c := hplain
    simp only [hanchor]
    rw [if_neg Bool.false_ne_true,if_neg (hpeek _ (by decide)),if_neg]
    rintro (h | h | h)
    · exact hpeek _ (by decide) h
    · exact hpeek _ (by decide) h
    · exact hpeek _ (by decide) h

/-! Atoms but for groups. -/

theorem simple_sound {node : Node} (hp : p.rest = char :: (p.skip 1).rest) (hopen : char ≠ byte '(')
    (hstop : char ≠ byte '|' ∧ char ≠ byte ')') (h : Parser.simple char (p.skip 1) = .ok (node,q)) :
    ∃ text, Reads p text q ∧ Simple text node := by
  have hone := Reads.skip_one hp
  unfold Parser.simple at h
  split at h
  · rename_i hc
    subst hc
    obtain ⟨text,hread,hclass⟩ := charClass_sound h
    exact ⟨_,hone.append hread,.charClass hclass⟩
  · rename_i hclass
    split at h
    · rename_i hc
      subst hc
      cases h
      exact ⟨_,hone,.any⟩
    · rename_i hdot
      split at h
      · rename_i hc
        subst hc
        cases h
        exact ⟨_,hone,.bol⟩
      · rename_i hbol
        split at h
        · rename_i hc
          subst hc
          cases h
          exact ⟨_,hone,.eol⟩
        · rename_i heol
          split at h
          · rename_i hc
            subst hc
            obtain ⟨⟨e,r⟩,he,h⟩ := bind_ok.mp h
            obtain ⟨c,hread,hesc⟩ := escape_reads he
            cases e with
            | test kind negate =>
              cases h
              exact ⟨_,hone.append hread,.test hesc⟩
            | byte b =>
              cases h
              exact ⟨_,hone.append hread,.escaped hesc⟩
          · rename_i hback
            split at h
            · cases h
            · rename_i hquant
              split at h
              · cases h
              · rename_i hclose
                cases h
                refine ⟨_,hone,.literal ?_⟩
                simp only [not_or] at hquant hclose
                simp only [special,List.mem_cons,List.not_mem_nil,or_false,not_or]
                tauto

theorem simple_complete {node : Node} (hr : Reads p text q) (h : Simple text node) :
    ∃ c more, text = c :: more ∧ c ≠ byte '(' ∧ c ≠ byte '|' ∧ c ≠ byte ')' ∧ c ∉ quantifiers ∧
      Parser.simple c (p.skip 1) = .ok (node,q) := by
  cases h with
  | charClass hclass =>
    obtain ⟨more,rfl⟩ : ∃ more, text = byte '[' :: more := by
      cases hclass with
      | plain => exact ⟨_,rfl⟩
      | negated => exact ⟨_,rfl⟩
    refine ⟨_,_,rfl,by decide,by decide,by decide,by decide,?_⟩
    rw [Parser.simple,if_pos rfl]
    exact charClass_complete hr.split_cons.2 hclass
  | any =>
    refine ⟨_,_,rfl,by decide,by decide,by decide,by decide,?_⟩
    rw [hr.eq_skip]
    rfl
  | bol =>
    refine ⟨_,_,rfl,by decide,by decide,by decide,by decide,?_⟩
    rw [hr.eq_skip]
    rfl
  | eol =>
    refine ⟨_,_,rfl,by decide,by decide,by decide,by decide,?_⟩
    rw [hr.eq_skip]
    rfl
  | test hesc =>
    refine ⟨_,_,rfl,by decide,by decide,by decide,by decide,?_⟩
    exact bind_ok.mpr ⟨_,escape_of_reads hr.split_cons.2 hesc,rfl⟩
  | escaped hesc =>
    refine ⟨_,_,rfl,by decide,by decide,by decide,by decide,?_⟩
    exact bind_ok.mpr ⟨_,escape_of_reads hr.split_cons.2 hesc,rfl⟩
  | @literal c hc =>
    simp only [special,List.mem_cons,List.not_mem_nil,or_false,not_or] at hc
    obtain ⟨h₁,h₂,h₃,h₄,h₅,h₆,h₇,h₈,h₉,h₁₀,h₁₁,h₁₂,h₁₃,h₁₄⟩ := hc
    refine ⟨c,[],rfl,h₁,h₁₃,h₂,by simp [quantifiers, *],?_⟩
    rw [hr.eq_skip]
    simp [Parser.simple, *]

end Nefor.Tool
