import Nefor.Throughout
import Nefor.Provider.ToolCalls

/-! One attempt over the events that it receives: what its outcome holds and what the caller was
told do not depend on how the answer was cut into events, except where reasoning comes in late. -/
namespace Nefor.Provider
open Sse (Bytes)

mutual
/-- An event with its batches opened. -/
def SseEvent.parts : SseEvent → List SseEvent
  | .batch events => allParts events
  | e => [e]
def allParts : List SseEvent → List SseEvent
  | [] => []
  | e :: rest => e.parts ++ allParts rest
end

namespace SseEvent

def fragment? : SseEvent → Option Fragment
  | .toolCallFragment index id kind name arguments => some ⟨index,id,kind,name,arguments⟩
  | _ => none

def reasoned? : SseEvent → Option String
  | .reasoningDelta text => some text
  | .reasoningContentDelta text => some text
  | _ => none

def completionId? : SseEvent → Option String
  | .completionId id => some id
  | _ => none

def usage? : SseEvent → Option Usage
  | .usage sent => some sent
  | _ => none

def isDetails : SseEvent → Bool
  | .reasoningDetails _ => true
  | _ => false

/-- The answer begins or is over. -/
def closes : SseEvent → Bool
  | .delta _ => true
  | .finish _ => true
  | _ => false

def isBatch : SseEvent → Bool
  | .batch _ => true
  | _ => false

end SseEvent

def reasonedText (events : List SseEvent) : String := concat (events.filterMap SseEvent.reasoned?)

/-- No reasoning has been closed: where the answer began, there was none. -/
def Unclosed (events : List SseEvent) : Prop :=
  Throughout (fun before e => e.closes → reasonedText before = "") events

/-- No reasoning comes in after reasoning that was closed. -/
def Timely (events : List SseEvent) : Prop :=
  Throughout (fun before e => e.reasoned?.isSome → Unclosed before) events

/-- The end of some reasoning is told once, with all its text and after all its pieces; where
there was none, no end is told. -/
def EndsWell (text : String) (output : List Output) : Prop :=
  if text = "" then ∀ told, .reasoningEnd told ∉ output
  else ∃ before after, output = before ++ .reasoningEnd text :: after ∧
    (∀ told, .reasoningEnd told ∉ before ++ after) ∧ ∀ piece, .reasoningDelta piece ∉ after

instance (events : List SseEvent) : Decidable (Unclosed events) :=
  inferInstanceAs (Decidable (Throughout _ events))

instance (events : List SseEvent) : Decidable (Timely events) :=
  inferInstanceAs (Decidable (Throughout _ events))

/-- The text of a continuation that has no structured details. -/
def continuationText : Option ReasoningContinuation → Option String
  | none => some ""
  | some (.details _) => none
  | some (.content text) => some text
  | some (.reasoning text) => some text

/-- What is left of an attempt: the events are applied in order, and the stream ends. -/
def attemptFrom (w : World) (events : List SseEvent) (st : StreamState) : Consumed :=
  match applyBatch w events st with
  | (some error,st) => failWith error st
  | (none,st) => finishStream w [] st

/-- An attempt whose events are these. -/
def attemptEvents (w : World) (events : List SseEvent) : Consumed := attemptFrom w events .empty

/-- An event is no error after the others. -/
def Accepts (w : World) (before : List SseEvent) (e : SseEvent) : Prop :=
  (applySseEvent w e (applyBatch w before .empty).2).1 = none

/-- An outcome and what the caller was told, as the events have them. -/
structure Streamed (w : World) (events : List SseEvent) (outcome : StreamOutcome) (output : List Output) : Prop where
  calls : Assembled (events.filterMap SseEvent.fragment?) outcome.toolCalls
  reasoning : outcome.reasoningText = reasonedText events
  ends : EndsWell outcome.reasoningText output
  continuation : (∀ e ∈ events, e.isDetails = false) →
    continuationText outcome.reasoningContinuation = some (reasonedText events)
  completionIds : ∀ before, before <+: events → ∀ id, Accepts w before (.completionId id) ↔
    ∀ first, (before.filterMap SseEvent.completionId?).head? = some first → first = id
  usages : ∀ before, before <+: events → ∀ usage, Accepts w before (.usage usage) ↔
    ∀ first, (before.filterMap SseEvent.usage?).head? = some first → first.eq usage

/-! Events without batches. -/

theorem allParts_append (xs ys : List SseEvent) : allParts (xs ++ ys) = allParts xs ++ allParts ys := by
  induction xs with
  | nil => rfl
  | cons e rest ih => rw [List.cons_append,allParts,ih,allParts,List.append_assoc]

theorem applyBatch_append (w : World) (xs ys : List SseEvent) (st : StreamState) :
    applyBatch w (xs ++ ys) st =
      match applyBatch w xs st with
      | (some error,st) => (some error,st)
      | (none,st) => applyBatch w ys st := by
  induction xs generalizing st with
  | nil => rfl
  | cons e rest ih =>
    rw [List.cons_append,applyBatch,applyBatch]
    cases he : applySseEvent w e st with
    | mk error st' =>
      cases error with
      | none => exact ih st'
      | some error => rfl

theorem applyBatch_singleton (w : World) (e : SseEvent) (st : StreamState) :
    applyBatch w [e] st = applySseEvent w e st := by
  rw [applyBatch]
  cases he : applySseEvent w e st with
  | mk error st' =>
    cases error with
    | none => rfl
    | some error => rfl

mutual
theorem applySseEvent_parts (w : World) (e : SseEvent) (st : StreamState) :
    applyBatch w e.parts st = applySseEvent w e st := by
  cases e with
  | batch events =>
    rw [SseEvent.parts,applySseEvent]
    exact applyBatch_parts w events st
  | _ => exact applyBatch_singleton w _ st
theorem applyBatch_parts (w : World) (events : List SseEvent) (st : StreamState) :
    applyBatch w (allParts events) st = applyBatch w events st := by
  cases events with
  | nil => rfl
  | cons e rest =>
    rw [allParts,applyBatch_append,applySseEvent_parts w e st,applyBatch]
    cases he : applySseEvent w e st with
    | mk error st' =>
      cases error with
      | none => exact applyBatch_parts w rest st'
      | some error => rfl
end

mutual
theorem SseEvent.parts_single (e : SseEvent) : ∀ part ∈ e.parts, part.isBatch = false := by
  cases e with
  | batch events => exact allParts_single events
  | _ => exact fun part hpart => List.mem_singleton.mp hpart ▸ rfl
theorem allParts_single (events : List SseEvent) : ∀ part ∈ allParts events, part.isBatch = false := by
  cases events with
  | nil => exact fun part hpart => absurd hpart List.not_mem_nil
  | cons e rest =>
    intro part hpart
    obtain hpart | hpart := List.mem_append.mp hpart
    · exact SseEvent.parts_single e part hpart
    · exact allParts_single rest part hpart
end

/-! What the events have in common. -/

section Events
variable {done : List SseEvent} {e : SseEvent}

theorem filterMap_snoc {α β : Type} (g : α → Option β) (xs : List α) (x : α) :
    (xs ++ [x]).filterMap g = xs.filterMap g ++ (g x).toList := by
  rw [List.filterMap_append]
  rfl

theorem reasonedText_snoc (done : List SseEvent) (e : SseEvent) :
    reasonedText (done ++ [e]) = reasonedText done ++ e.reasoned?.getD "" := by
  rw [reasonedText,filterMap_snoc,concat_append]
  congr 1
  cases e.reasoned? with
  | none => rfl
  | some text => exact concat_singleton text

theorem unclosed_snoc : Unclosed (done ++ [e]) ↔ Unclosed done ∧ (e.closes → reasonedText done = "") :=
  Throughout.snoc

theorem timely_snoc : Timely (done ++ [e]) ↔ Timely done ∧ (e.reasoned?.isSome → Unclosed done) :=
  Throughout.snoc

theorem Unclosed.timely (h : Unclosed done) : Timely done := by
  rintro before e after rfl _
  exact h.of_prefix (List.prefix_append before (e :: after))

/-- Where nothing was reasoned, nothing was closed. -/
theorem unclosed_of_reasonedText (h : reasonedText done = "") : Unclosed done := by
  rintro before e after rfl _
  rw [reasonedText,List.filterMap_append,concat_append] at h
  exact (String.append_eq_empty_iff.mp h).1

end Events

/-! What the caller was told. -/

/-- The end was told, with the whole text when no reasoning came late, which is when nothing of it
follows. -/
def Ended (done : List SseEvent) (output : List Output) : Prop :=
  ∃ before text after, output = before ++ .reasoningEnd text :: after ∧
    (∀ told, .reasoningEnd told ∉ before ++ after) ∧ ((∀ piece, .reasoningDelta piece ∉ after) ↔ Timely done) ∧
    (Timely done → text = reasonedText done)

/-- The reasoning is closed and its end was told, or it is not. -/
def Latched (done : List SseEvent) (ended : Bool) (output : List Output) : Prop :=
  if ended then ¬Unclosed done ∧ Ended done output
  else Unclosed done ∧ ∀ told, .reasoningEnd told ∉ output

/-- Only one place is the end told. -/
theorem after_unique {before before' after after' : List Output} {text text' : String}
    (h : before ++ .reasoningEnd text :: after = before' ++ .reasoningEnd text' :: after')
    (hno : ∀ told, .reasoningEnd told ∉ before ++ after) (hno' : ∀ told, .reasoningEnd told ∉ before' ++ after') :
    after = after' := by
  obtain ⟨more,rfl,hmore⟩ | ⟨more,rfl,hmore⟩ := List.append_eq_append_iff.mp h
  · cases more with
    | nil => exact (List.cons.inj hmore).2
    | cons o more =>
      obtain ⟨rfl,-⟩ := List.cons.inj hmore
      exact absurd (by simp) (hno' text)
  · cases more with
    | nil => exact (List.cons.inj hmore).2.symm
    | cons o more =>
      obtain ⟨rfl,-⟩ := List.cons.inj hmore
      exact absurd (by simp) (hno text')

section Latched
variable {done : List SseEvent} {ended : Bool} {output : List Output} {e : SseEvent}

/-- Text is told. -/
theorem Latched.told (h : Latched done ended output) (text : String) :
    Latched done ended (output ++ [.delta text]) := by
  have hend : ∀ told, .reasoningEnd told ∈ output ++ [Output.delta text] → .reasoningEnd told ∈ output := by
    intro told hmem
    obtain hmem | hmem := List.mem_append.mp hmem
    · exact hmem
    · cases List.mem_singleton.mp hmem
  cases ended with
  | false =>
    obtain ⟨hopen,hno⟩ := h
    exact ⟨hopen,fun told hmem => hno told (hend told hmem)⟩
  | true =>
    obtain ⟨hclosed,before,whole,after,rfl,hno,hlate,hall⟩ := h
    refine ⟨hclosed,before,whole,after ++ [Output.delta text],?_,?_,?_,hall⟩
    · rw [List.append_assoc,List.cons_append]
    · intro told hmem
      rw [← List.append_assoc] at hmem
      obtain hmem | hmem := List.mem_append.mp hmem
      · exact hno told hmem
      · cases List.mem_singleton.mp hmem
    · rw [← hlate]
      refine forall_congr' fun piece => not_congr ?_
      rw [List.mem_append,or_iff_left]
      intro hmem
      cases List.mem_singleton.mp hmem

/-- An event that is no reasoning and closes none. -/
theorem Latched.skip (h : Latched done ended output) (hr : e.reasoned? = none)
    (hc : e.closes → ended = false → reasonedText done = "") : Latched (done ++ [e]) ended output := by
  have htimely : Timely (done ++ [e]) ↔ Timely done := by
    rw [timely_snoc,hr]
    exact and_iff_left (by simp)
  cases ended with
  | false =>
    obtain ⟨hopen,hno⟩ := h
    exact ⟨unclosed_snoc.mpr ⟨hopen,fun he => hc he rfl⟩,hno⟩
  | true =>
    obtain ⟨hclosed,before,text,after,rfl,hno,hlate,hall⟩ := h
    refine ⟨fun hopen => hclosed (unclosed_snoc.mp hopen).1,before,text,after,rfl,hno,?_,?_⟩
    · rw [htimely,hlate]
    · rw [htimely,reasonedText_snoc,hr]
      intro ht
      rw [hall ht]
      exact String.append_empty.symm

/-- Reasoning comes in. -/
theorem Latched.reasoned (h : Latched done ended output) {text : String} (hr : e.reasoned? = some text)
    (hc : e.closes = false) : Latched (done ++ [e]) ended (output ++ [.reasoningDelta text]) := by
  cases ended with
  | false =>
    obtain ⟨hopen,hno⟩ := h
    refine ⟨unclosed_snoc.mpr ⟨hopen,fun he => absurd (hc.symm.trans he) Bool.false_ne_true⟩,?_⟩
    intro told hmem
    obtain hmem | hmem := List.mem_append.mp hmem
    · exact hno told hmem
    · cases List.mem_singleton.mp hmem
  | true =>
    obtain ⟨hclosed,before,told,after,rfl,hno,hlate,hall⟩ := h
    have hnot : ¬Timely (done ++ [e]) := by
      intro ht
      exact hclosed ((timely_snoc.mp ht).2 (Option.isSome_iff_exists.mpr ⟨text,hr⟩))
    refine ⟨fun hopen => hclosed (unclosed_snoc.mp hopen).1,before,told,after ++ [Output.reasoningDelta text],?_,?_,?_,?_⟩
    · rw [List.append_assoc,List.cons_append]
    · intro other hmem
      rw [← List.append_assoc] at hmem
      obtain hmem | hmem := List.mem_append.mp hmem
      · exact hno other hmem
      · cases List.mem_singleton.mp hmem
    · refine iff_of_false ?_ hnot
      intro hnone
      exact hnone text (List.mem_append_right after List.mem_cons_self)
    · intro ht
      exact absurd ht hnot

/-- The reasoning so far is closed. -/
theorem Latched.close (h : Latched done false output) (hr : e.reasoned? = none) (hc : e.closes = true)
    (htext : reasonedText done ≠ "") :
    Latched (done ++ [e]) true (output ++ [.reasoningEnd (reasonedText done)]) := by
  obtain ⟨hopen,hno⟩ := h
  refine ⟨fun hopen => htext ((unclosed_snoc.mp hopen).2 hc),output,_,[],rfl,?_,?_,?_⟩
  · rwa [List.append_nil]
  · refine iff_of_true (fun _ => List.not_mem_nil) ?_
    refine timely_snoc.mpr ⟨hopen.timely,?_⟩
    intro he
    rw [hr] at he
    cases he
  · intro _
    rw [reasonedText_snoc,hr]
    exact String.append_empty.symm

end Latched

namespace StreamState
variable {st : StreamState}

@[simp] theorem maybeEndReasoning_outcome : st.maybeEndReasoning.outcome = st.outcome := by
  unfold maybeEndReasoning
  split <;> rfl

@[simp] theorem maybeEndReasoning_toolCalls : st.maybeEndReasoning.toolCalls = st.toolCalls := by
  unfold maybeEndReasoning
  split <;> rfl

/-- The answer begins or is over. -/
theorem maybeEndReasoning_latched {done : List SseEvent} {e : SseEvent}
    (h : Latched done st.reasoningEnded st.output) (htext : st.outcome.reasoningText = reasonedText done)
    (hr : e.reasoned? = none) (hc : e.closes = true) :
    Latched (done ++ [e]) st.maybeEndReasoning.reasoningEnded st.maybeEndReasoning.output := by
  rw [maybeEndReasoning]
  split
  · next hend =>
    apply h.skip hr
    intro _ hopen
    rw [← htext]
    exact hend.resolve_left (by rw [hopen]; exact Bool.false_ne_true)
  · next hend =>
    obtain ⟨hopen,hne⟩ := not_or.mp hend
    rw [Bool.not_eq_true] at hopen
    rw [hopen] at h
    rw [htext] at hne ⊢
    exact h.close hr hc hne

end StreamState

/-! The state after some events. -/

structure Reached (done : List SseEvent) (st : StreamState) : Prop where
  calls : Grouped (done.filterMap SseEvent.fragment?) st.toolCalls
  reasoning : st.outcome.reasoningText = reasonedText done
  latched : Latched done st.reasoningEnded st.output
  continuation : (∀ e ∈ done, e.isDetails = false) →
    continuationText st.outcome.reasoningContinuation = some (reasonedText done)
  completionId : st.outcome.completionId = (done.filterMap SseEvent.completionId?).head?
  usage : st.outcome.usage = (done.filterMap SseEvent.usage?).head?

section Reached
variable {w : World} {done : List SseEvent} {st st' : StreamState} {e : SseEvent}

theorem Reached.empty : Reached [] .empty :=
  ⟨Grouped.nil,rfl,⟨Throughout.nil,fun _ => List.not_mem_nil⟩,fun _ => rfl,rfl,rfl⟩

theorem head?_snoc {α : Type} (xs : List α) (x : Option α) : (xs ++ x.toList).head? = xs.head?.or x := by
  cases xs with
  | nil => cases x <;> rfl
  | cons y rest => rfl

/-- An event that is no reasoning: what it leaves alone stays as it was. -/
theorem Reached.other (h : Reached done st) (hr : e.reasoned? = none)
    (hcalls : Grouped (done.filterMap SseEvent.fragment? ++ e.fragment?.toList) st'.toolCalls)
    (htext : st'.outcome.reasoningText = st.outcome.reasoningText)
    (hlatched : Latched (done ++ [e]) st'.reasoningEnded st'.output)
    (hcontinuation : e.isDetails = false → st'.outcome.reasoningContinuation = st.outcome.reasoningContinuation)
    (hid : st'.outcome.completionId = st.outcome.completionId.or e.completionId?)
    (husage : st'.outcome.usage = st.outcome.usage.or e.usage?) : Reached (done ++ [e]) st' where
  calls := by rwa [filterMap_snoc]
  reasoning := by rw [htext,h.reasoning,reasonedText_snoc,hr]; exact String.append_empty.symm
  latched := hlatched
  continuation := by
    intro hnone
    rw [List.forall_mem_append,List.forall_mem_singleton] at hnone
    rw [hcontinuation hnone.2,h.continuation hnone.1,reasonedText_snoc,hr]
    exact congrArg some String.append_empty.symm
  completionId := by rw [hid,h.completionId,filterMap_snoc,head?_snoc]
  usage := by rw [husage,h.usage,filterMap_snoc,head?_snoc]

/-- An event that changes at most the completion id and the usage. -/
theorem Reached.still (h : Reached done st) (hr : e.reasoned? = none) (hc : e.closes = false)
    (hf : e.fragment? = none)
    (heq : (st'.toolCalls,st'.reasoningEnded,st'.output,st'.outcome.reasoningText,st'.outcome.reasoningContinuation) =
      (st.toolCalls,st.reasoningEnded,st.output,st.outcome.reasoningText,st.outcome.reasoningContinuation))
    (hid : st'.outcome.completionId = st.outcome.completionId.or e.completionId?)
    (husage : st'.outcome.usage = st.outcome.usage.or e.usage?) : Reached (done ++ [e]) st' := by
  simp only [Prod.mk.injEq] at heq
  obtain ⟨hcalls,hended,houtput,htext,hcontinuation⟩ := heq
  apply h.other hr
  · rw [hf,hcalls,Option.toList_none,List.append_nil]
    exact h.calls
  · exact htext
  · rw [hended,houtput]
    apply h.latched.skip hr
    intro he
    rw [hc] at he
    cases he
  · exact fun _ => hcontinuation
  · exact hid
  · exact husage

/-- Reasoning comes in, and a continuation without details takes it. -/
theorem Reached.reasoned (h : Reached done st) {text : String} {continuation : Option ReasoningContinuation}
    (he : e = .reasoningDelta text ∨ e = .reasoningContentDelta text)
    (hcontinuation : ∀ sofar, continuationText st.outcome.reasoningContinuation = some sofar →
      continuationText continuation = some (sofar ++ text)) :
    Reached (done ++ [e]) (st.reasoning text continuation) := by
  have hr : e.reasoned? = some text := by
    obtain rfl | rfl := he <;> rfl
  have hc : e.closes = false := by
    obtain rfl | rfl := he <;> rfl
  have hnone : e.fragment? = none ∧ e.completionId? = none ∧ e.usage? = none := by
    obtain rfl | rfl := he <;> exact ⟨rfl,rfl,rfl⟩
  obtain ⟨hcalls,hid,husage⟩ := hnone
  have htext : reasonedText (done ++ [e]) = reasonedText done ++ text := by
    rw [reasonedText_snoc,hr]
    rfl
  constructor
  · rw [filterMap_snoc,hcalls,Option.toList_none,List.append_nil]
    exact h.calls
  · rw [htext,← h.reasoning]
    rfl
  · exact h.latched.reasoned hr hc
  · intro hdetails
    rw [htext]
    apply hcontinuation
    exact h.continuation fun d hd => hdetails d (List.mem_append_left _ hd)
  · rw [filterMap_snoc,hid,Option.toList_none,List.append_nil]
    exact h.completionId
  · rw [filterMap_snoc,husage,Option.toList_none,List.append_nil]
    exact h.usage

theorem Reached.delta (h : Reached done st) (text : String) : Reached (done ++ [.delta text]) (st.delta text) := by
  have hlatched := st.maybeEndReasoning_latched (e := .delta text) h.latched h.reasoning rfl rfl
  rw [StreamState.delta]
  dsimp only
  split
  · apply h.other rfl
    · rw [StreamState.maybeEndReasoning_toolCalls]
      simpa [SseEvent.fragment?] using h.calls
    · rw [StreamState.maybeEndReasoning_outcome]
    · exact hlatched
    · simp
    · simp [SseEvent.completionId?]
    · simp [SseEvent.usage?]
  · apply h.other rfl
    · simpa [SseEvent.fragment?] using h.calls
    · simp
    · exact hlatched.told _
    · simp
    · simp [SseEvent.completionId?]
    · simp [SseEvent.usage?]

theorem Reached.finish (h : Reached done st) (reason : FinishReason) :
    Reached (done ++ [.finish reason]) (st.finish reason) := by
  rw [StreamState.finish]
  apply h.other rfl
  · simpa [SseEvent.fragment?] using h.calls
  · simp
  · exact StreamState.maybeEndReasoning_latched h.latched h.reasoning rfl rfl
  · simp
  · simp [SseEvent.completionId?]
  · simp [SseEvent.usage?]

/-- What one event that is no error makes of the state. -/
theorem Reached.step (h : Reached done st) (hsingle : e.isBatch = false)
    (hs : applySseEvent w e st = (none,st')) : Reached (done ++ [e]) st' := by
  cases e with
  | batch events => cases hsingle
  | refusal message => cases hs
  | error message kind code => cases hs
  | malformed message => cases hs
  | delta text =>
    obtain rfl := (Prod.mk.inj hs).2
    exact h.delta text
  | finish reason =>
    obtain rfl := (Prod.mk.inj hs).2
    exact h.finish reason
  | reasoningDelta text =>
    obtain rfl := (Prod.mk.inj hs).2
    apply h.reasoned (.inl rfl)
    intro sofar hsofar
    split <;> rename_i hc <;> rw [hc] at hsofar <;> cases hsofar
    · rfl
    · rfl
    · exact congrArg some String.empty_append.symm
  | reasoningContentDelta text =>
    obtain rfl := (Prod.mk.inj hs).2
    apply h.reasoned (.inr rfl)
    intro sofar hsofar
    split <;> rename_i hc <;> rw [hc] at hsofar <;> cases hsofar
    · rfl
    · rfl
    · exact congrArg some String.empty_append.symm
  | reasoningDetails details =>
    obtain rfl := (Prod.mk.inj hs).2
    apply h.other rfl
    · simpa [SseEvent.fragment?,StreamState.reasoningDetails] using h.calls
    · rfl
    · exact h.latched.skip rfl (by simp [SseEvent.closes])
    · intro hdetails
      cases hdetails
    · exact (Option.or_none).symm
    · exact (Option.or_none).symm
  | toolCallFragment index id kind name arguments =>
    obtain rfl := (Prod.mk.inj hs).2
    apply h.other rfl
    · exact h.calls.add _
    · rfl
    · exact h.latched.skip rfl (by simp [SseEvent.closes])
    · exact fun _ => rfl
    · exact (Option.or_none).symm
    · exact (Option.or_none).symm
  | completionId id =>
    rw [applySseEvent] at hs
    split at hs
    · next existing hexisting =>
      split at hs
      · cases hs
      · obtain rfl := (Prod.mk.inj hs).2
        apply h.still rfl rfl rfl rfl
        · rw [hexisting]
          rfl
        · exact Option.or_none.symm
    · next hnone =>
      obtain rfl := (Prod.mk.inj hs).2
      refine h.still rfl rfl rfl rfl ?_ ?_
      · rw [hnone]
        rfl
      · exact Option.or_none.symm
  | usage usage =>
    rw [applySseEvent] at hs
    split at hs
    · next existing hexisting =>
      split at hs
      · obtain rfl := (Prod.mk.inj hs).2
        apply h.still rfl rfl rfl rfl
        · exact Option.or_none.symm
        · rw [hexisting]
          rfl
      · cases hs
    · next hnone =>
      obtain rfl := (Prod.mk.inj hs).2
      refine h.still rfl rfl rfl rfl ?_ ?_
      · exact Option.or_none.symm
      · rw [hnone]
        rfl
  | done =>
    obtain rfl := (Prod.mk.inj hs).2
    exact h.still rfl rfl rfl rfl Option.or_none.symm Option.or_none.symm
  | empty =>
    obtain rfl := (Prod.mk.inj hs).2
    exact h.still rfl rfl rfl rfl Option.or_none.symm Option.or_none.symm

theorem Reached.run {events : List SseEvent} (h : Reached done st) (hsingle : ∀ e ∈ events, e.isBatch = false)
    (hs : applyBatch w events st = (none,st')) : Reached (done ++ events) st' := by
  induction events generalizing done st with
  | nil =>
    obtain rfl := (Prod.mk.inj hs).2
    rwa [List.append_nil]
  | cons e rest ih =>
    obtain ⟨he,hrest⟩ := List.forall_mem_cons.mp hsingle
    rw [applyBatch] at hs
    cases hstep : applySseEvent w e st with
    | mk error next =>
      cases error with
      | some error =>
        rw [hstep] at hs
        cases hs
      | none =>
        rw [hstep] at hs
        have hnext := ih (h.step he hstep) hrest hs
        rwa [List.append_assoc,List.singleton_append] at hnext

theorem Reached.accepts_completionId (h : Reached done st) (id : String) :
    (applySseEvent w (.completionId id) st).1 = none ↔
      ∀ first, (done.filterMap SseEvent.completionId?).head? = some first → first = id := by
  rw [← h.completionId,applySseEvent]
  cases st.outcome.completionId with
  | none => exact iff_of_true rfl nofun
  | some existing =>
    by_cases heq : existing = id
    · simp [heq]
    · simp [heq]

theorem Reached.accepts_usage (h : Reached done st) (usage : Usage) :
    (applySseEvent w (.usage usage) st).1 = none ↔
      ∀ first, (done.filterMap SseEvent.usage?).head? = some first → first.eq usage := by
  rw [← h.usage,applySseEvent]
  cases st.outcome.usage with
  | none => exact iff_of_true rfl nofun
  | some existing =>
    by_cases heq : existing.eq usage
    · simp [heq]
    · simp [heq]

/-- At the end of the stream, where the end of the reasoning is told if it was not before. -/
theorem Reached.endsWell_iff (h : Reached done st) :
    EndsWell st.outcome.reasoningText st.maybeEndReasoning.output ↔ Timely done := by
  have hlatched := h.latched
  rw [EndsWell,h.reasoning,StreamState.maybeEndReasoning]
  cases hended : st.reasoningEnded with
  | true =>
    rw [hended] at hlatched
    obtain ⟨hclosed,before,text,after,houtput,hno,hlate,hall⟩ := hlatched
    rw [if_neg fun htext => hclosed (unclosed_of_reasonedText htext),if_pos (.inl rfl),houtput]
    constructor
    · rintro ⟨before',after',heq,hno',hlate'⟩
      rw [← hlate,after_unique heq hno hno']
      exact hlate'
    · intro ht
      rw [hall ht]
      exact ⟨before,after,rfl,hno,hlate.mpr ht⟩
  | false =>
    rw [hended] at hlatched
    obtain ⟨hopen,hno⟩ := hlatched
    refine iff_of_true ?_ hopen.timely
    rw [h.reasoning]
    split
    · next htext =>
      rw [if_pos (.inr htext)]
      exact hno
    · next htext =>
      rw [if_neg (not_or.mpr ⟨Bool.false_ne_true,htext⟩)]
      refine ⟨st.output,[],rfl,?_,fun _ => List.not_mem_nil⟩
      rwa [List.append_nil]

end Reached

/-- The start of a run that ended without an error ended without one. -/
theorem applyBatch_start {w : World} {xs ys : List SseEvent} {st st' : StreamState}
    (h : applyBatch w (xs ++ ys) st = (none,st')) : ∃ mid, applyBatch w xs st = (none,mid) := by
  rw [applyBatch_append] at h
  cases hx : applyBatch w xs st with
  | mk error mid =>
    cases error with
    | none => exact ⟨mid,rfl⟩
    | some error =>
      rw [hx] at h
      cases h

/-! The events of a response. -/

/-- The events of the frames that are well formed. -/
def frameEvents (w : World) (frames : List Sse.SseResult) : List SseEvent :=
  frames.filterMap fun
    | .ok frame => some (parseSseChunk w (frameText frame.data))
    | .error _ => none

/-- The events that the bytes of a response give, those of a buffer before them. -/
def receivedEvents (w : World) : List Bytes → Bytes → List SseEvent
  | [], buffer => frameEvents w (Sse.drain buffer).1
  | bytes :: rest, buffer =>
    let (frames,left) := Sse.drain (buffer ++ bytes)
    frameEvents w frames ++ receivedEvents w rest left

section Response
variable {w : World} {st st' : StreamState} {outcome : StreamOutcome} {output : List Output}

theorem applyBatch_of_applyFrames {error : String} {frames : List Sse.SseResult}
    (h : applyFrames w error frames st = (none,st')) : applyBatch w (frameEvents w frames) st = (none,st') := by
  induction frames generalizing st with
  | nil => exact h
  | cons frame rest ih =>
    cases frame with
    | error e => cases h
    | ok frame =>
      rw [applyFrames] at h
      rw [frameEvents,List.filterMap_cons,applyBatch]
      cases hstep : applySseEvent w (parseSseChunk w (frameText frame.data)) st with
      | mk failure next =>
        rw [hstep] at h
        cases failure with
        | some failure => cases h
        | none => exact ih h

theorem attemptFrom_append {xs ys : List SseEvent} (h : applyBatch w xs st = (none,st')) :
    attemptFrom w (xs ++ ys) st = attemptFrom w ys st' := by
  rw [attemptFrom,applyBatch_append,h,attemptFrom]

theorem attemptFrom_of_finishStream {buffer : Bytes} (h : finishStream w buffer st = (.ok outcome,output)) :
    attemptFrom w (frameEvents w (Sse.drain buffer).1) st = (.ok outcome,output) := by
  rw [finishStream,drainCompleteFrames] at h
  dsimp only at h
  split at h
  · cases h
  · next next left hdrain =>
    have hframes := (Prod.mk.inj hdrain).1
    rw [attemptFrom,applyBatch_of_applyFrames hframes]
    dsimp only
    split at h
    · cases h
    · next hcomplete =>
      have hleft : left = [] := not_not.mp (not_or.mp hcomplete).2
      rw [hleft] at hcomplete
      rw [finishStream,show drainCompleteFrames w [] next = ((none,next),[]) from rfl]
      dsimp only
      rw [if_neg hcomplete]
      exact h

theorem attemptFrom_of_consumeLoop {reads : List Bytes} {last : StreamEnd} {buffer : Bytes}
    (hlast : last ≠ .cancelled) (h : consumeLoop w reads last buffer st = (.ok outcome,output)) :
    attemptFrom w (receivedEvents w reads buffer) st = (.ok outcome,output) := by
  induction reads generalizing buffer st with
  | nil =>
    cases last with
    | cancelled => exact absurd rfl hlast
    | ended => exact attemptFrom_of_finishStream h
    | failed detail =>
      rw [consumeLoop] at h
      split at h
      · next hcomplete =>
        rw [hcomplete.2] at h
        rw [hcomplete.2]
        exact attemptFrom_of_finishStream h
      · cases h
  | cons bytes rest ih =>
    rw [consumeLoop,drainCompleteFrames] at h
    dsimp only at h
    split at h
    · cases h
    · next next left hdrain =>
      have hframes := (Prod.mk.inj hdrain).1
      rw [← (Prod.mk.inj hdrain).2] at h
      rw [receivedEvents,attemptFrom_append (applyBatch_of_applyFrames hframes)]
      exact ih h

/-- A response that is not cancelled and has no error is an attempt over the events of its bytes. -/
theorem attemptEvents_of_consumeResponseStream {stream : ByteStream} (hlast : stream.last ≠ .cancelled)
    (h : consumeResponseStream w stream = (.ok outcome,output)) :
    attemptEvents w (receivedEvents w stream.reads []) = (.ok outcome,output) :=
  attemptFrom_of_consumeLoop hlast h

end Response

theorem attemptEvents_eq_ok {w : World} {events : List SseEvent} {outcome : StreamOutcome} {output : List Output}
    (h : attemptEvents w events = (.ok outcome,output)) : ∃ st toolCalls,
      applyBatch w events .empty = (none,st) ∧ st.toolCalls.finalize = .ok toolCalls ∧
      outcome = { st.outcome with toolCalls := toolCalls } ∧ output = st.maybeEndReasoning.output := by
  rw [attemptEvents,attemptFrom] at h
  split at h
  · cases h
  · next st hrun =>
    have hdrain : drainCompleteFrames w [] st = ((none,st),[]) := rfl
    rw [finishStream,hdrain] at h
    dsimp only at h
    split at h
    · cases h
    · split at h
      · cases h
      · next toolCalls hcalls =>
        cases h
        refine ⟨st,toolCalls,hrun,hcalls,?_,?_⟩
        · rw [StreamState.maybeEndReasoning_outcome]
        · unfold StreamState.maybeEndReasoning
          by_cases hend : st.reasoningEnded = true ∨ st.outcome.reasoningText = ""
          · rw [if_pos hend,if_pos hend]
          · rw [if_neg hend,if_neg hend]

/-- What an attempt makes of its events, wherever no error comes: everything is as the events have
it exactly when no reasoning comes after reasoning that was closed. -/
theorem streamed_iff_timely (w : World) (events : List SseEvent) (outcome : StreamOutcome) (output : List Output)
    (h : attemptEvents w events = (.ok outcome,output)) :
    Streamed w (allParts events) outcome output ↔ Timely (allParts events) := by
  obtain ⟨st,toolCalls,hrun,hcalls,rfl,rfl⟩ := attemptEvents_eq_ok h
  have hsingle := allParts_single events
  rw [← applyBatch_parts] at hrun
  have hreached : Reached (allParts events) st := Reached.empty.run hsingle hrun
  constructor
  · intro hstreamed
    exact hreached.endsWell_iff.mp hstreamed.ends
  · intro ht
    have hbefore : ∀ before, before <+: allParts events → Reached before (applyBatch w before .empty).2 := by
      rintro before ⟨rest,hrest⟩
      rw [← hrest] at hrun hsingle
      obtain ⟨mid,hmid⟩ := applyBatch_start hrun
      rw [hmid]
      exact Reached.empty.run (fun e he => hsingle e (List.mem_append_left _ he)) hmid
    constructor
    · exact hreached.calls.assembled hcalls
    · exact hreached.reasoning
    · exact hreached.endsWell_iff.mpr ht
    · exact hreached.continuation
    · exact fun before hp id => (hbefore before hp).accepts_completionId id
    · exact fun before hp usage => (hbefore before hp).accepts_usage usage

/-- Words for errors that do not come up. -/
def quietWorld : World where
  readJson := fun _ => .error ""
  debug := id
  usageError := fun _ => ""
  frameError := fun _ => ""

/-- Reasoning, a tool call in two pieces with a usage between them, an answer. -/
def promptStream : List SseEvent :=
  [.reasoningDelta "a",.batch [.toolCallFragment 1 (some "c") (some "function") (some "read") (some "x"),
    .usage ⟨some 1,none,none,[]⟩,.reasoningContentDelta "b",.toolCallFragment 1 none none none (some "y")],
    .completionId "r",.delta "z",.completionId "r",.finish .toolCalls]

def promptOutcome : StreamOutcome where
  completionId := some "r"
  fullText := "z"
  finishReason := some "tool_calls"
  usage := some ⟨some 1,none,none,[]⟩
  interrupted := false
  toolCalls := [⟨"c","function",⟨"read","xy"⟩⟩]
  reasoningText := "ab"
  reasoningContinuation := some (.content "ab")

theorem streamed_promptStream : Streamed quietWorld (allParts promptStream) promptOutcome
    [.reasoningDelta "a",.reasoningDelta "b",.reasoningEnd "ab",.delta "z"] :=
  (streamed_iff_timely quietWorld promptStream promptOutcome _ rfl).mpr (by decide)

/-- A stream whose last reasoning comes in after the answer began. -/
def lateStream : List SseEvent :=
  [.reasoningDelta "a",.delta "x",.reasoningDelta "b",.finish .stop]

def lateOutcome : StreamOutcome where
  completionId := none
  fullText := "x"
  finishReason := some "stop"
  usage := none
  interrupted := false
  toolCalls := []
  reasoningText := "ab"
  reasoningContinuation := some (.reasoning "ab")

def lateOutput : List Output := [.reasoningDelta "a",.reasoningEnd "a",.delta "x",.reasoningDelta "b"]

theorem lateStream_not_streamed : attemptEvents quietWorld lateStream = (.ok lateOutcome,lateOutput) ∧
    ¬Streamed quietWorld (allParts lateStream) lateOutcome lateOutput := by
  refine ⟨rfl,?_⟩
  intro h
  have hends := h.ends
  rw [EndsWell,if_neg (by decide)] at hends
  obtain ⟨before,after,heq,-,-⟩ := hends
  have hmem : .reasoningEnd lateOutcome.reasoningText ∈ before ++ .reasoningEnd lateOutcome.reasoningText :: after :=
    List.mem_append_right _ List.mem_cons_self
  rw [← heq] at hmem
  revert hmem
  decide

end Nefor.Provider
