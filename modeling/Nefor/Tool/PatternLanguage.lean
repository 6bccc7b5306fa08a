import Nefor.Anchored
import Nefor.Tool.Pattern

/-! What the matcher finds: a word of the pattern in which no iteration is empty. -/
namespace Nefor.Tool
open Anchored

/-! The language of a pattern. -/

mutual

/-- The words of a pattern, of which the iterations are taken from a part of the body's words. -/
def languageWith (part : Anchored UInt8 → Anchored UInt8) : Node → Anchored UInt8
  | .set test negate => fun _ _ w => ∃ b, w = [b] ∧ (test.hits b != negate) = true
  | .seq items => seqWith part items
  | .alt branches => altWith part branches
  | .bol => fun start _ w => w = [] ∧ start
  | .eol => fun _ finish w => w = [] ∧ finish
  | .repeated node min max => fun start finish w =>
    ∃ count : Nat, min ≤ (count : Bound) ∧ (count : Bound) ≤ max ∧ power (part (languageWith part node)) count start finish w

def seqWith (part : Anchored UInt8 → Anchored UInt8) : List Node → Anchored UInt8
  | [] => empty
  | item :: items => append (languageWith part item) (seqWith part items)

def altWith (part : Anchored UInt8 → Anchored UInt8) : List Node → Anchored UInt8
  | [] => never
  | branch :: branches => choice (languageWith part branch) (altWith part branches)

end

/-- The regular language of a pattern. -/
def language (node : Node) : Anchored UInt8 := languageWith id node

/-- Its words in which no iteration is empty. -/
def properLanguage (node : Node) : Anchored UInt8 := languageWith proper node

/-! Answers. -/

/-- A result that is there and says whether something holds. -/
def Answers (result : Option Bool) (p : Prop) : Prop := ∃ found, result = some found ∧ (found = true ↔ p)

theorem Answers.congr {result : Option Bool} {p q : Prop} (h : Answers result p) (hpq : p ↔ q) : Answers result q := by
  obtain ⟨found,hr,hf⟩ := h
  exact ⟨found,hr,hf.trans hpq⟩

theorem Answers.isSome {result : Option Bool} {p : Prop} (h : Answers result p) : result.isSome = true := by
  obtain ⟨found,rfl,-⟩ := h
  rfl

theorem Answers.iff {result : Option Bool} {p : Prop} (h : Answers result p) : result = some true ↔ p := by
  obtain ⟨found,rfl,hf⟩ := h
  rw [← hf,Option.some.injEq]

theorem answers_of_isSome {result : Option Bool} (h : result.isSome = true) : Answers result (result = some true) := by
  obtain ⟨found,rfl⟩ := Option.isSome_iff_exists.mp h
  exact ⟨found,rfl,by rw [Option.some.injEq]⟩

theorem answers_false {p : Prop} (h : ¬ p) : Answers (some false) p := ⟨false,rfl,by simp [h]⟩

/-- A second try when the first has failed. -/
theorem Answers.either {first second : Option Bool} {p q : Prop} (hp : Answers first p) (hq : Answers second q) :
    Answers (either first second) (p ∨ q) := by
  obtain ⟨found,rfl,hf⟩ := hp
  cases found with
  | true => exact ⟨true,rfl,by simp [hf.mp rfl]⟩
  | false =>
    apply hq.congr
    have hnot : ¬ p := fun h => Bool.false_ne_true (hf.mpr h)
    simp [hnot]

/-! Where words are found. -/

variable {subject : Bytes} {L M : Anchored UInt8} {position count fuel : Nat} {next : Nat → Option Bool} {min max : Bound}

/-- A word stands at a position, and what comes next accepts where it ends. -/
def Finds (subject : Bytes) (L : Anchored UInt8) (position : Nat) (next : Nat → Option Bool) : Prop :=
  ∃ w rest, subject.drop position = w ++ rest ∧ L (position = 0) (rest = []) w ∧ next (position + w.length) = some true

/-- Something comes next at all positions that may be reached. -/
def Total (subject : Bytes) (position : Nat) (next : Nat → Option Bool) : Prop :=
  ∀ p, position ≤ p → p ≤ subject.length → (next p).isSome = true

/-- A matcher of a language. -/
def Decides (subject : Bytes) (L : Anchored UInt8) (m : Nat → (Nat → Option Bool) → Option Bool) : Prop :=
  ∀ position next, position ≤ subject.length → Total subject position next →
    Answers (m position next) (Finds subject L position next)

theorem Total.mono {later : Nat} (h : Total subject position next) (hle : position ≤ later) :
    Total subject later next := fun p hp => h p (hle.trans hp)

theorem drop_length {w rest : Bytes} (hpos : position ≤ subject.length) (h : subject.drop position = w ++ rest) :
    position + w.length ≤ subject.length := by
  have hlen := congrArg List.length h
  rw [List.length_drop,List.length_append] at hlen
  omega

theorem drop_append {w rest : Bytes} (h : subject.drop position = w ++ rest) :
    subject.drop (position + w.length) = rest := by
  rw [← List.drop_drop,h,List.drop_left]

theorem finds_empty : Finds subject empty position next ↔ next position = some true := by
  constructor
  · intro h
    obtain ⟨w,rest,-,hw,hnext⟩ := h
    rw [show w = [] from hw] at hnext
    exact hnext
  · intro h
    exact ⟨[],_,rfl,rfl,h⟩

theorem finds_never : ¬ Finds subject never position next := fun h => h.choose_spec.choose_spec.2.1

theorem finds_choice : Finds subject (choice L M) position next ↔
    Finds subject L position next ∨ Finds subject M position next := by
  constructor
  · intro h
    obtain ⟨w,rest,hdrop,hl | hm,hnext⟩ := h
    · exact .inl ⟨w,rest,hdrop,hl,hnext⟩
    · exact .inr ⟨w,rest,hdrop,hm,hnext⟩
  · intro h
    obtain ⟨w,rest,hdrop,hl,hnext⟩ | ⟨w,rest,hdrop,hm,hnext⟩ := h
    · exact ⟨w,rest,hdrop,.inl hl,hnext⟩
    · exact ⟨w,rest,hdrop,.inr hm,hnext⟩

/-- A word of two parts is found part by part. -/
theorem finds_append : Finds subject (append L M) position next ↔
    ∃ w rest, subject.drop position = w ++ rest ∧ L (position = 0) (rest = []) w ∧
      Finds subject M (position + w.length) next := by
  have hstart : ∀ u : Bytes, (position = 0 ∧ u = []) = (position + u.length = 0) := by
    intro u
    rw [← List.length_eq_zero_iff,Nat.add_eq_zero_iff]
  constructor
  · intro h
    obtain ⟨w,rest,hdrop,⟨u,v,rfl,hu,hv⟩,hnext⟩ := h
    rw [List.append_assoc] at hdrop
    refine ⟨u,v ++ rest,hdrop,?_,v,rest,drop_append hdrop,?_,?_⟩
    · rwa [List.append_eq_nil_iff,and_comm]
    · rwa [← hstart]
    · rwa [Nat.add_assoc,← List.length_append]
  · intro h
    obtain ⟨u,more,hdrop,hu,v,rest,hmore,hv,hnext⟩ := h
    rw [drop_append hdrop] at hmore
    subst hmore
    refine ⟨u ++ v,rest,by rw [hdrop,List.append_assoc],⟨u,v,rfl,?_,?_⟩,?_⟩
    · rwa [List.append_eq_nil_iff,and_comm] at hu
    · rwa [hstart]
    · rwa [List.length_append,← Nat.add_assoc]

/-! The parts of a pattern. -/

theorem decides_set (test : Test) (negate : Bool) :
    Decides subject (languageWith proper (.set test negate)) (matchNode subject (.set test negate)) := by
  intro position next hpos hnext
  unfold matchNode
  split
  · rename_i hnone
    apply answers_false
    intro h
    obtain ⟨w,rest,hdrop,⟨b,rfl,-⟩,-⟩ := h
    rw [List.drop_eq_nil_of_le (List.getElem?_eq_none_iff.mp hnone)] at hdrop
    cases hdrop
  · rename_i b hb
    obtain ⟨hlt,hget⟩ := List.getElem?_eq_some_iff.mp hb
    have hcons : subject.drop position = b :: subject.drop (position + 1) := by
      rw [List.drop_eq_getElem_cons hlt,hget]
    split
    · rename_i hhit
      apply (answers_of_isSome (hnext (position + 1) (by omega) hlt)).congr
      constructor
      · intro h
        exact ⟨[b],_,hcons,⟨b,rfl,hhit⟩,h⟩
      · intro h
        obtain ⟨w,rest,-,⟨c,rfl,-⟩,h⟩ := h
        exact h
    · rename_i hmiss
      apply answers_false
      intro h
      obtain ⟨w,rest,hdrop,⟨c,rfl,hhit⟩,-⟩ := h
      rw [hcons] at hdrop
      obtain rfl := (List.cons_eq_cons.mp hdrop).1
      exact hmiss hhit

theorem decides_anchor {p : Prop} [Decidable p] {L : Anchored UInt8}
    (hL : ∀ rest w, subject.drop position = w ++ rest → (L (position = 0) (rest = []) w ↔ w = [] ∧ p))
    (hpos : position ≤ subject.length) (hnext : Total subject position next) :
    Answers (if p then next position else some false) (Finds subject L position next) := by
  split
  · rename_i hp
    apply (answers_of_isSome (hnext position le_rfl hpos)).congr
    constructor
    · intro h
      exact ⟨[],_,rfl,(hL _ [] rfl).mpr ⟨rfl,hp⟩,h⟩
    · intro h
      obtain ⟨w,rest,hdrop,hw,h⟩ := h
      obtain ⟨rfl,-⟩ := (hL _ _ hdrop).mp hw
      exact h
  · rename_i hp
    apply answers_false
    intro h
    obtain ⟨w,rest,hdrop,hw,-⟩ := h
    exact hp ((hL _ _ hdrop).mp hw).2

theorem decides_append {m m' : Nat → (Nat → Option Bool) → Option Bool} (hm : Decides subject L m)
    (hm' : Decides subject M m') : Decides subject (append L M) fun p next => m p fun p => m' p next := by
  intro position next hpos hnext
  have htotal : Total subject position fun p => m' p next :=
    fun p hp hle => (hm' p next hle (hnext.mono hp)).isSome
  apply (hm position _ hpos htotal).congr
  rw [finds_append]
  constructor
  · intro h
    obtain ⟨w,rest,hdrop,hw,h⟩ := h
    have hle := drop_length hpos hdrop
    exact ⟨w,rest,hdrop,hw,(hm' _ next hle (hnext.mono (by omega))).iff.mp h⟩
  · intro h
    obtain ⟨w,rest,hdrop,hw,h⟩ := h
    have hle := drop_length hpos hdrop
    exact ⟨w,rest,hdrop,hw,(hm' _ next hle (hnext.mono (by omega))).iff.mpr h⟩

/-- What `attempt` answers after some iterations: whether there are enough more, none of them empty. -/
def Repeats (subject : Bytes) (L : Anchored UInt8) (min max : Bound) (count position : Nat)
    (next : Nat → Option Bool) : Prop :=
  ∃ more : Nat, min ≤ ((count + more : Nat) : Bound) ∧ ((count + more : Nat) : Bound) ≤ max ∧
    Finds subject (power (proper L) more) position next

theorem repeats_step (hcount : (count : Bound) ≤ max) : Repeats subject L min max count position next ↔
    ((count : Bound) < max ∧ ∃ w rest, subject.drop position = w ++ rest ∧ L (position = 0) (rest = []) w ∧
      w ≠ [] ∧ Repeats subject L min max (count + 1) (position + w.length) next) ∨
    (min ≤ (count : Bound) ∧ next position = some true) := by
  constructor
  · intro h
    obtain ⟨more,hmin,hmax,hfinds⟩ := h
    cases more with
    | zero => exact .inr ⟨hmin,finds_empty.mp hfinds⟩
    | succ more =>
      obtain ⟨w,rest,hdrop,⟨hne,hw⟩,hrest⟩ := finds_append.mp hfinds
      rw [show count + (more + 1) = count + 1 + more by omega] at hmin hmax
      refine .inl ⟨lt_of_lt_of_le (by exact_mod_cast (by omega)) hmax,w,rest,hdrop,hw,hne,more,hmin,hmax,hrest⟩
  · intro h
    obtain ⟨-,w,rest,hdrop,hw,hne,more,hmin,hmax,hrest⟩ | ⟨hmin,hnext⟩ := h
    · rw [show count + 1 + more = count + (more + 1) by omega] at hmin hmax
      exact ⟨more + 1,hmin,hmax,finds_append.mpr ⟨w,rest,hdrop,⟨hne,hw⟩,hrest⟩⟩
    · exact ⟨0,hmin,hcount,finds_empty.mpr hnext⟩

theorem succ_le_bound (h : (count : Bound) < max) : ((count + 1 : Nat) : Bound) ≤ max := by
  induction max using WithTop.recTopCoe with
  | top => exact le_top
  | coe m => exact WithTop.coe_le_coe.mpr (WithTop.coe_lt_coe.mp h)

theorem attempt_answers {body : Nat → (Nat → Option Bool) → Option Bool} (hbody : Decides subject L body)
    (hnext : Total subject position next) (hpos : position ≤ subject.length)
    (hfuel : subject.length < position + fuel) (hcount : (count : Bound) ≤ max) :
    Answers (attempt body min max next fuel count position) (Repeats subject L min max count position next) := by
  induction fuel generalizing count position with
  | zero => omega
  | succ fuel ih =>
    -- an iteration that is not empty leaves less to match
    have hlater : ∀ after, position ≤ after → after ≤ subject.length → after ≠ position → (count : Bound) < max →
        Answers (attempt body min max next fuel (count + 1) after)
          (Repeats subject L min max (count + 1) after next) := by
      intro after hle hafter hne hlt
      exact ih (hnext.mono hle) hafter (by omega) (succ_le_bound hlt)
    have hmore : Answers (if (count : Bound) < max then
        body position fun after => if after = position then some false
          else attempt body min max next fuel (count + 1) after
      else some false) ((count : Bound) < max ∧ ∃ w rest, subject.drop position = w ++ rest ∧
        L (position = 0) (rest = []) w ∧ w ≠ [] ∧
          Repeats subject L min max (count + 1) (position + w.length) next) := by
      split
      · rename_i hlt
        have htotal : Total subject position fun after => if after = position then some false
            else attempt body min max next fuel (count + 1) after := by
          intro after hle hafter
          simp only
          split
          · rfl
          · rename_i hne
            exact (hlater after hle hafter hne hlt).isSome
        apply (hbody position _ hpos htotal).congr
        rw [and_iff_right hlt]
        apply exists_congr
        intro w
        apply exists_congr
        intro rest
        apply and_congr_right
        intro hdrop
        apply and_congr_right
        intro hw
        have hafter := drop_length hpos hdrop
        simp only
        by_cases hempty : w = []
        · simp [hempty]
        · have hlen : 0 < w.length := List.length_pos_iff.mpr hempty
          rw [if_neg (by omega),and_iff_right hempty]
          exact (hlater _ (by omega) hafter (by omega) hlt).iff
      · rename_i hlt
        exact answers_false fun h => hlt h.1
    have hdone : Answers (if min ≤ (count : Bound) then next position else some false)
        (min ≤ (count : Bound) ∧ next position = some true) := by
      split
      · rename_i hmin
        apply (answers_of_isSome (hnext position le_rfl hpos)).congr
        rw [and_iff_right hmin]
      · rename_i hmin
        exact answers_false fun h => hmin h.1
    rw [attempt]
    exact (hmore.either hdone).congr (repeats_step hcount).symm

theorem decides_repeated {node : Node} (hnode : Decides subject (properLanguage node) (matchNode subject node)) :
    Decides subject (properLanguage (.repeated node min max)) (matchNode subject (.repeated node min max)) := by
  intro position next hpos hnext
  unfold matchNode
  apply (@attempt_answers _ _ _ 0 (subject.length + 1) _ min _ _ hnode hnext hpos (by omega)
    (by exact_mod_cast bot_le)).congr
  constructor
  · intro h
    obtain ⟨more,hmin,hmax,w,rest,hdrop,hw,h⟩ := h
    rw [Nat.zero_add] at hmin hmax
    exact ⟨w,rest,hdrop,⟨more,hmin,hmax,hw⟩,h⟩
  · intro h
    obtain ⟨w,rest,hdrop,⟨more,hmin,hmax,hw⟩,h⟩ := h
    exact ⟨more,by rwa [Nat.zero_add],by rwa [Nat.zero_add],w,rest,hdrop,hw,h⟩

mutual

theorem matchNode_decides : ∀ node, Decides subject (languageWith proper node) (matchNode subject node)
  | .set test negate => decides_set test negate
  | .seq items => by
    intro position next hpos hnext
    unfold matchNode languageWith
    exact matchSeq_decides items position next hpos hnext
  | .alt branches => by
    intro position next hpos hnext
    unfold matchNode languageWith
    exact matchAlt_decides branches position next hpos hnext
  | .bol => by
    intro position next hpos hnext
    unfold matchNode languageWith
    exact decides_anchor (fun _ _ _ => Iff.rfl) hpos hnext
  | .eol => by
    intro position next hpos hnext
    unfold matchNode languageWith
    apply decides_anchor _ hpos hnext
    intro rest w hdrop
    apply and_congr_right
    rintro rfl
    rw [List.nil_append] at hdrop
    rw [← hdrop,List.drop_eq_nil_iff]
    omega
  | .repeated node _ _ => decides_repeated (matchNode_decides node)

theorem matchSeq_decides : ∀ items, Decides subject (seqWith proper items) (matchSeq subject items)
  | [] => by
    intro position next hpos hnext
    unfold matchSeq seqWith
    exact (answers_of_isSome (hnext position le_rfl hpos)).congr finds_empty.symm
  | item :: items => by
    intro position next hpos hnext
    unfold matchSeq seqWith
    exact decides_append (matchNode_decides item) (matchSeq_decides items) position next hpos hnext

theorem matchAlt_decides : ∀ branches, Decides subject (altWith proper branches) (matchAlt subject branches)
  | [] => by
    intro position next hpos hnext
    unfold matchAlt altWith
    exact answers_false finds_never
  | branch :: branches => by
    intro position next hpos hnext
    unfold matchAlt altWith
    exact ((matchNode_decides branch position next hpos hnext).either
      (matchAlt_decides branches position next hpos hnext)).congr finds_choice.symm

end

end Nefor.Tool
