import Nefor.Throughout
import Nefor.Provider.Retry

/-! What the retry loop does over a whole call: requests are within the budget, each of them is
allowed by what came before it, and the caller is told exactly what the outcome holds. -/
namespace Nefor.Provider
open Sse (Bytes)

/-! The texts the caller is told. -/

def deltaText : List Output → String
  | [] => ""
  | .delta text :: rest => text ++ deltaText rest
  | _ :: rest => deltaText rest

def reasoningText : List Output → String
  | [] => ""
  | .reasoningDelta text :: rest => text ++ reasoningText rest
  | _ :: rest => reasoningText rest

theorem deltaText_append (xs ys : List Output) : deltaText (xs ++ ys) = deltaText xs ++ deltaText ys := by
  induction xs with
  | nil => simp [deltaText]
  | cons x xs ih => cases x <;> simp [deltaText,ih,String.append_assoc]

theorem reasoningText_append (xs ys : List Output) :
    reasoningText (xs ++ ys) = reasoningText xs ++ reasoningText ys := by
  induction xs with
  | nil => simp [reasoningText]
  | cons x xs ih => cases x <;> simp [reasoningText,ih,String.append_assoc]

theorem append_ne_empty {s t : String} (h : t ≠ "") : s ++ t ≠ "" := by
  intro he
  exact h (String.append_eq_empty_iff.mp he).2

/-- The outcome holds what the caller was told, and while it holds no text the caller was told
nothing. -/
structure StreamState.Told (st : StreamState) : Prop where
  delta : deltaText st.output = st.outcome.fullText
  reasoning : reasoningText st.output = st.outcome.reasoningText
  silent : st.outcome.fullText = "" → st.outcome.reasoningText = "" → st.output = []

namespace StreamState.Told
variable {st : StreamState}

theorem empty : StreamState.empty.Told := ⟨rfl,rfl,fun _ _ => rfl⟩

/-- A change that touches neither the texts nor what was told. -/
theorem of_eq (h : st.Told) {st' : StreamState} (hf : st'.outcome.fullText = st.outcome.fullText)
    (hr : st'.outcome.reasoningText = st.outcome.reasoningText) (ho : st'.output = st.output) : st'.Told := by
  constructor
  · rw [ho,hf,h.delta]
  · rw [ho,hr,h.reasoning]
  · rw [ho,hf,hr]
    exact h.silent

theorem maybeEndReasoning (h : st.Told) : st.maybeEndReasoning.Told := by
  unfold StreamState.maybeEndReasoning
  split
  · exact h
  · rename_i hc
    have hr : st.outcome.reasoningText ≠ "" := fun he => hc (.inr he)
    constructor
    · simp [deltaText_append,deltaText,h.delta]
    · simp [reasoningText_append,reasoningText,h.reasoning]
    · intro _ he
      exact absurd he hr

theorem delta_told (h : st.Told) (text : String) : (st.delta text).Told := by
  have hm := h.maybeEndReasoning
  unfold StreamState.delta
  simp only
  split
  · exact hm
  · rename_i hne
    constructor
    · simp [deltaText_append,deltaText,hm.delta]
    · simp [reasoningText_append,reasoningText,hm.reasoning]
    · intro he
      exact absurd he (append_ne_empty hne)

theorem reasoning_told (h : st.Told) {text : String} (ht : text ≠ "")
    (continuation : Option ReasoningContinuation) : (st.reasoning text continuation).Told := by
  constructor
  · simp [StreamState.reasoning,deltaText_append,deltaText,h.delta]
  · simp [StreamState.reasoning,reasoningText_append,reasoningText,h.reasoning]
  · intro _ he
    exact absurd he (append_ne_empty ht)

theorem finish (h : st.Told) (reason : FinishReason) : (st.finish reason).Told := by
  unfold StreamState.finish
  exact maybeEndReasoning (h.of_eq rfl rfl rfl)

end StreamState.Told

theorem applySseEvent_told (w : World) {e : SseEvent} {st : StreamState} (he : e.Plain) (h : st.Told) :
    (applySseEvent w e st).2.Told := by
  cases e with
  | batch events => exact he.elim
  | delta text => exact h.delta_told text
  | reasoningDelta text => exact h.reasoning_told he _
  | reasoningContentDelta text => exact h.reasoning_told he _
  | reasoningDetails details => exact h.of_eq rfl rfl rfl
  | toolCallFragment index id kind name arguments => exact h.of_eq rfl rfl rfl
  | finish reason => exact h.finish reason
  | completionId id =>
    rw [applySseEvent]
    split
    · split <;> exact h
    · exact h.of_eq rfl rfl rfl
  | usage usage =>
    rw [applySseEvent]
    split
    · split <;> exact h
    · exact h.of_eq rfl rfl rfl
  | refusal message => exact h
  | error message kind code => exact h
  | malformed message => exact h
  | done => exact h
  | empty => exact h

theorem applyBatch_told (w : World) {events : List SseEvent} {st : StreamState}
    (he : ∀ e ∈ events, e.Plain) (h : st.Told) : (applyBatch w events st).2.Told := by
  induction events generalizing st with
  | nil => exact h
  | cons e rest ih =>
    obtain ⟨hhead,htail⟩ := List.forall_mem_cons.mp he
    have hs := applySseEvent_told w hhead h
    rw [applyBatch]
    split
    · rename_i heq
      rwa [heq] at hs
    · rename_i heq
      rw [heq] at hs
      exact ih htail hs

theorem applyChunk_told (w : World) (payload : String) {st : StreamState} (h : st.Told) :
    (applySseEvent w (parseSseChunk w payload) st).2.Told := by
  obtain hp | ⟨events,hb,he⟩ := parseSseChunk_plain w payload
  · exact applySseEvent_told w hp h
  · rw [hb,applySseEvent]
    exact applyBatch_told w he h

theorem applyFrames_told (w : World) (error : String) {frames : List Sse.SseResult} {st : StreamState}
    (h : st.Told) : (applyFrames w error frames st).2.Told := by
  induction frames generalizing st with
  | nil => exact h
  | cons frame rest ih =>
    cases frame with
    | error e => exact h
    | ok frame =>
      have hs := applyChunk_told w (frameText frame.data) h
      rw [applyFrames]
      split
      · rename_i heq
        rwa [heq] at hs
      · rename_i heq
        rw [heq] at hs
        exact ih hs

/-- A stream that ends well tells its outcome; one whose failure is safe to replay told nothing,
and its body failed. -/
def Consumed.Faithful : Consumed → Prop
  | (.ok outcome,output) => deltaText output = outcome.fullText ∧ reasoningText output = outcome.reasoningText
  | (.error failure,output) => failure.replaySafe = true → output = [] ∧ isBody failure.error = true

theorem StreamState.Told.faithful {st : StreamState} (h : st.Told) :
    Consumed.Faithful (.ok st.outcome,st.output) := ⟨h.delta,h.reasoning⟩

theorem failWith_faithful (error : StreamError) {st : StreamState} (h : st.Told) :
    (failWith error st).Faithful := by
  intro hs
  simp only [StreamAttemptFailure.new,Bool.and_eq_true,beq_iff_eq] at hs
  obtain ⟨⟨⟨⟨hb,hf⟩,hr⟩,-⟩,-⟩ := hs
  exact ⟨h.silent hf hr,hb⟩

theorem finishStream_faithful (w : World) (buffer : Bytes) {st : StreamState} (h : st.Told) :
    (finishStream w buffer st).Faithful := by
  have hs : (drainCompleteFrames w buffer st).1.2.Told := applyFrames_told w _ h
  unfold finishStream
  split
  · rename_i heq
    rw [heq] at hs
    exact failWith_faithful _ hs
  · rename_i heq
    rw [heq] at hs
    split
    · exact failWith_faithful _ hs
    · split
      · intro hsafe
        cases hsafe
      · apply StreamState.Told.faithful
        apply StreamState.Told.maybeEndReasoning
        exact hs.of_eq rfl rfl rfl

theorem interruptStream_faithful {st : StreamState} (h : st.Told) : (interruptStream st).Faithful := by
  apply StreamState.Told.faithful
  apply StreamState.Told.maybeEndReasoning
  exact h.of_eq rfl rfl rfl

theorem consumeLoop_faithful (w : World) (reads : List Bytes) (last : StreamEnd) (buffer : Bytes)
    {st : StreamState} (h : st.Told) : (consumeLoop w reads last buffer st).Faithful := by
  induction reads generalizing buffer st with
  | nil =>
    cases last with
    | cancelled => exact interruptStream_faithful h
    | ended => exact finishStream_faithful w buffer h
    | failed detail =>
      rw [consumeLoop]
      split
      · exact finishStream_faithful w buffer h
      · exact failWith_faithful _ h
  | cons bytes rest ih =>
    have hs : (drainCompleteFrames w (buffer ++ bytes) st).1.2.Told := applyFrames_told w _ h
    rw [consumeLoop]
    split
    · rename_i heq
      rw [heq] at hs
      exact failWith_faithful _ hs
    · rename_i heq
      rw [heq] at hs
      exact ih _ hs

theorem consumeResponseStream_faithful (w : World) (stream : ByteStream) :
    (consumeResponseStream w stream).Faithful :=
  consumeLoop_faithful w stream.reads stream.last [] .empty

/-! The events of a call. -/

namespace Event

def send? : Event → Option Send
  | send s => some s
  | _ => none

def output? : Event → Option Output
  | output o => some o
  | _ => none

def progress? : Event → Option RetryProgress
  | progress p => some p
  | _ => none

def failed? : Event → Option (Nat × StreamError)
  | failed round error => some (round,error)
  | _ => none

end Event

def sends (history : List Event) : List Send := history.filterMap Event.send?

def outputs (history : List Event) : List Output := history.filterMap Event.output?

@[simp] theorem sends_append (xs ys : List Event) : sends (xs ++ ys) = sends xs ++ sends ys :=
  List.filterMap_append

@[simp] theorem outputs_append (xs ys : List Event) : outputs (xs ++ ys) = outputs xs ++ outputs ys :=
  List.filterMap_append

@[simp] theorem sends_map_output (output : List Output) : sends (output.map .output) = [] := by
  simp [sends,Event.send?,List.filterMap_eq_nil_iff]

@[simp] theorem outputs_map_output (output : List Output) : outputs (output.map .output) = output := by
  rw [outputs,List.filterMap_map]
  exact List.filterMap_some

/-- The last request, and what happened after it. -/
def lastSend : List Event → Option (Send × List Event)
  | [] => none
  | e :: rest => (lastSend rest).or (e.send?.map fun s => (s,rest))

theorem lastSend_append {history more : List Event} (s : Send) (h : sends more = []) :
    lastSend (history ++ .send s :: more) = some (s,more) := by
  have hmore : lastSend more = none := by
    induction more with
    | nil => rfl
    | cons e rest ih =>
      rw [sends,List.filterMap_cons] at h
      cases he : e.send? with
      | none =>
        rw [he] at h
        rw [lastSend,ih h,he]
        rfl
      | some t => simp [he] at h
  induction history with
  | nil => rw [List.nil_append,lastSend,hmore]; rfl
  | cons e rest ih => rw [List.cons_append,lastSend,ih]; rfl

/-- Failures after which a request may be sent again: of the transport, of the server, a limit of
the rate that is no limit of the account, and of the body of a stream. -/
def Retryable : StreamError → Prop
  | .request _ => True
  | .body _ => True
  | .http status body => 500 ≤ status ∧ status < 600 ∨
      status = 429 ∧ responseSignalsTerminalQuotaDenial status body = false
  | _ => False

/-- How a request follows the one before it: that one failed, the caller was told once which
attempt comes next, and a new round begins only after a limit of the rate in the old one. -/
structure Follows (before : List Event) (p : Send) (between : List Event) (s : Send) : Prop where
  failure : ∃ error, between.filterMap Event.failed? = [(p.round,error)]
  progress : ∃ progress, between.filterMap Event.progress? = [progress] ∧ progress.nextRound = s.round ∧
    progress.nextAttempt = s.attempt
  step : s.round = p.round ∧ s.attempt = p.attempt + 1 ∨
    s.round = p.round + 1 ∧ s.attempt = 1 ∧ ∃ body, .failed p.round (.http 429 body) ∈ before

/-- What is so of everything before a request. -/
structure Allowed (before : List Event) (s : Send) : Prop where
  silent : outputs before = []
  retryable : ∀ round error, .failed round error ∈ before → Retryable error
  waited : ∀ round time, .deadline round time ∈ before → time ≤ s.sentAt
  uncancelled : .cancelled ∉ before
  follows : ∀ p between, lastSend before = some (p,between) → Follows before p between s

def SendsAllowed (before : List Event) (e : Event) : Prop := ∀ s, e = .send s → Allowed before s

theorem SendsAllowed.append {history more : List Event} (h : Throughout SendsAllowed history)
    (hm : sends more = []) : Throughout SendsAllowed (history ++ more) := by
  refine Throughout.append.mpr ⟨h,?_⟩
  intro before e after he s hs
  subst he hs
  simp [sends,Event.send?] at hm

theorem SendsAllowed.send {history more : List Event} {s : Send} (h : Throughout SendsAllowed history)
    (hs : Allowed history s) (hm : sends more = []) :
    Throughout SendsAllowed (history ++ .send s :: more) := by
  have hsnoc : Throughout SendsAllowed (history ++ [Event.send s]) := by
    refine Throughout.snoc.mpr ⟨h,?_⟩
    intro t ht
    cases ht
    exact hs
  have he := SendsAllowed.append hsnoc hm
  rwa [List.append_assoc,List.singleton_append] at he

/-! One attempt. -/

/-- An attempt ends in a result that is in step with what it told, or in a failure that is all
that happened. -/
def Attempted.Sound (round : Nat) : Attempted → Prop
  | (events,.returns result) => sends events = [] ∧ result ≠ .unreachable ∧
      ∀ outcome, result = .ok outcome → deltaText (outputs events) = outcome.fullText ∧
        reasoningText (outputs events) = outcome.reasoningText
  | (events,.fails error _ status) => events = [.failed round error] ∧ Retryable error ∧
      (status = some 429 → ∃ body, error = .http 429 body)

theorem gone_sound (round : Nat) : Attempted.Sound round gone := by
  refine ⟨rfl,?_,?_⟩
  · intro h
    cases h
  · intro outcome h
    cases h
    exact ⟨rfl,rfl⟩

theorem terminal_sound (round : Nat) (error : StreamError) : Attempted.Sound round (terminal round error) := by
  refine ⟨rfl,?_,?_⟩
  · intro h
    cases h
  · intro outcome h
    cases h

theorem readBody_sound (p : Platform) (tools : Bool) (round : Nat) (r : Response) (body : String) :
    (readBody p tools round r body).Sound round := by
  unfold readBody
  split
  · exact terminal_sound round _
  · split
    · exact terminal_sound round _
    · split
      · exact terminal_sound round _
      · split
        · exact terminal_sound round _
        · rename_i h
          obtain ⟨hquota,hstatus⟩ := not_or.mp h
          refine ⟨rfl,?_,?_⟩
          · obtain h429 | h500 := not_not.mp hstatus
            · exact .inr ⟨h429,Bool.eq_false_iff.mpr hquota⟩
            · exact .inl h500
          · intro h429
            exact ⟨body,by rw [Option.some.inj h429]⟩

theorem readStream_sound (p : Platform) (round : Nat) (r : Response) :
    (readStream p round r).Sound round := by
  have hf := consumeResponseStream_faithful p.toWorld r.stream
  unfold readStream
  split
  · rename_i outcome output heq
    rw [heq] at hf
    refine ⟨?_,?_,?_⟩
    · rw [sends_append,sends_map_output]
      split <;> rfl
    · intro h
      cases h
    · intro other h
      cases h
      have htail : outputs (if outcome.interrupted = true then [Event.cancelled] else []) = [] := by
        split <;> rfl
      rw [outputs_append,outputs_map_output,htail,List.append_nil]
      exact hf
  · rename_i failure output heq
    rw [heq] at hf
    split
    · rename_i hsafe
      obtain ⟨rfl,hbody⟩ := hf hsafe
      refine ⟨rfl,?_,?_⟩
      · cases he : failure.error <;> simp [he,isBody] at hbody
        trivial
      · intro h
        cases h
    · refine ⟨?_,?_,?_⟩
      · rw [sends_append,sends_map_output]
        rfl
      · intro h
        cases h
      · intro outcome h
        cases h

theorem receive_sound (p : Platform) (policy : RetryPolicy) (tools : Bool) (round : Nat) (sent : Sent) :
    (receive p policy tools round sent).Sound round := by
  cases sent with
  | cancelled => exact gone_sound round
  | failed detail => exact ⟨rfl,trivial,fun h => by cases h⟩
  | timedOut => exact ⟨rfl,trivial,fun h => by cases h⟩
  | response r =>
    rw [receive,readResponse]
    split
    · exact readStream_sound p round r
    · split
      · exact gone_sound round
      · exact readBody_sound p tools round r _
      · exact readBody_sound p tools round r _

/-! The loops. -/

/-- A call that has returned. -/
structure Final (policy : RetryPolicy) (result : Result) (history : List Event) : Prop where
  past : Throughout SendsAllowed history
  budget : (sends history).length ≤ policy.maxRounds * policy.maxAttempts
  reached : result ≠ .unreachable
  told : ∀ outcome, result = .ok outcome → deltaText (outputs history) = outcome.fullText ∧
    reasoningText (outputs history) = outcome.reasoningText

/-- Where the attempts of a round stand. -/
structure Position (policy : RetryPolicy) (round attempt total : Nat) : Prop where
  round_pos : 1 ≤ round
  round_le : round ≤ policy.maxRounds
  attempt_pos : 1 ≤ attempt
  attempt_le : attempt ≤ policy.maxAttempts
  total_eq : total = (round - 1) * policy.maxAttempts + (attempt - 1)

namespace Position
variable {policy : RetryPolicy} {round attempt total : Nat}

theorem lt_budget (h : Position policy round attempt total) :
    total + 1 ≤ policy.maxRounds * policy.maxAttempts := by
  have hr : (round - 1 + 1) * policy.maxAttempts ≤ policy.maxRounds * policy.maxAttempts :=
    Nat.mul_le_mul_right _ (by have := h.round_pos; have := h.round_le; omega)
  rw [Nat.add_mul,Nat.one_mul] at hr
  have ha := h.attempt_pos
  have hl := h.attempt_le
  have ht := h.total_eq
  omega

theorem next (h : Position policy round attempt total) (ha : attempt ≠ policy.maxAttempts) :
    Position policy round (attempt + 1) (total + 1) := by
  have hl := h.attempt_le
  have hp := h.attempt_pos
  have ht := h.total_eq
  exact ⟨h.round_pos,h.round_le,by omega,by omega,by omega⟩

theorem nextRound (h : Position policy round policy.maxAttempts total) (hr : round ≠ policy.maxRounds) :
    Position policy (round + 1) 1 (total + 1) := by
  have hp := h.round_pos
  have hl := h.round_le
  have ha := h.attempt_pos
  have ht := h.total_eq
  refine ⟨by omega,by omega,by omega,ha,?_⟩
  have hm : (round + 1 - 1) * policy.maxAttempts = (round - 1) * policy.maxAttempts + policy.maxAttempts := by
    rw [← Nat.succ_mul]
    congr 1
    omega
  omega

end Position

/-- The loop is about to begin an attempt. -/
structure Ready (policy : RetryPolicy) (round attempt : Nat) (saw : Bool) (st : CallState) : Prop where
  position : Position policy round attempt st.total
  allowed : ∀ time, st.now ≤ time → Allowed st.history ⟨round,attempt,time⟩
  past : Throughout SendsAllowed st.history
  total : (sends st.history).length = st.total
  saw : saw = true → ∃ body, .failed round (.http 429 body) ∈ st.history

/-- The loop goes on with the next attempt, or it is done with the round and goes on with the
next one. -/
def Next (policy : RetryPolicy) (round attempt : Nat) (saw : Bool) (st : CallState) : Prop :=
  if attempt ≤ policy.maxAttempts then Ready policy round attempt saw st
  else Ready policy (round + 1) 1 false st

def Flow.Good {α : Type} (policy : RetryPolicy) (continued : α → Prop) : Flow α → Prop
  | .returned result history => Final policy result history
  | .continues a => continued a

/-- An attempt has failed in a way that may be retried. -/
structure Failed (policy : RetryPolicy) (round attempt : Nat) (retryAfter : Option (Nat × Nat))
    (error : StreamError) (saw : Bool) (st : CallState) : Prop where
  position : Position policy round attempt (st.total - 1)
  positive : 0 < st.total
  past : Throughout SendsAllowed st.history
  total : (sends st.history).length = st.total
  silent : outputs st.history = []
  retryable : ∀ round error, .failed round error ∈ st.history → Retryable error
  waited : ∀ round time, .deadline round time ∈ st.history → time ≤ st.now ∨
    ∃ receivedAt delay, retryAfter = some (receivedAt,delay) ∧ time = receivedAt + delay
  uncancelled : .cancelled ∉ st.history
  last : ∃ earlier time between, st.history = earlier ++ .send ⟨round,attempt,time⟩ :: between ∧
    sends between = [] ∧ between.filterMap Event.failed? = [(round,error)] ∧ between.filterMap Event.progress? = []
  saw : saw = true → ∃ body, .failed round (.http 429 body) ∈ st.history

section
variable {p : Platform} {policy : RetryPolicy} {round attempt : Nat}
  {retryAfter : Option (Nat × Nat)} {error : StreamError} {saw : Bool} {st : CallState}

/-- A call that returns after a failed attempt, and what it does last is no request. -/
theorem Failed.final (h : Failed policy round attempt retryAfter error saw st) {result : Result}
    {more : List Event} (hm : sends more = [])
    (hr : result = interrupted ∨ ∃ error, result = .err error) (ho : outputs more = []) :
    Final policy result (st.history ++ more) := by
  refine ⟨SendsAllowed.append h.past hm,?_,?_,?_⟩
  · have hb := h.position.lt_budget
    have hp := h.positive
    rw [sends_append,hm,List.append_nil,h.total]
    omega
  · obtain rfl | ⟨error,rfl⟩ := hr
    · intro he
      cases he
    · intro he
      cases he
  · intro outcome he
    rw [outputs_append,h.silent,ho]
    obtain rfl | ⟨error,rfl⟩ := hr
    · cases he
      exact ⟨rfl,rfl⟩
    · cases he

theorem notBefore_spec {old new : Option Nat} (h : notBefore p old retryAfter = some new)
    {receivedAt delay : Nat} (hr : retryAfter = some (receivedAt,delay)) :
    ∃ deadline, new = some deadline ∧ receivedAt + delay ≤ deadline := by
  subst hr
  unfold notBefore at h
  simp only at h
  split at h
  · cases h
    exact ⟨_,rfl,le_max_right _ _⟩
  · cases h

/-- After a sleep of at least the time that remains, no deadline is ahead. -/
theorem Failed.slept (h : Failed policy round attempt retryAfter error saw st) {old new : Option Nat}
    (hn : notBefore p old retryAfter = some new) {delay wake : Nat}
    (hd : (new.map fun deadline => deadline - st.now).getD 0 ≤ delay) (hw : st.now + delay ≤ wake) :
    ∀ round time, .deadline round time ∈ st.history → time ≤ wake := by
  intro r time hmem
  obtain hle | ⟨receivedAt,wait,hr,rfl⟩ := h.waited r time hmem
  · omega
  · obtain ⟨deadline,rfl,hle⟩ := notBefore_spec hn hr
    simp only [Option.map_some,Option.getD_some] at hd
    omega

/-- The next attempt is allowed, once the caller has been told of it and the time has come. -/
theorem Failed.ready (h : Failed policy round attempt retryAfter error saw st) {progress : RetryProgress}
    {nextRound nextAttempt wake : Nat} {nextSaw : Bool}
    (hp : progress.nextRound = nextRound ∧ progress.nextAttempt = nextAttempt)
    (hpos : Position policy nextRound nextAttempt st.total)
    (hw : ∀ round time, .deadline round time ∈ st.history → time ≤ wake)
    (hs : nextRound = round ∧ nextAttempt = attempt + 1 ∨
      nextRound = round + 1 ∧ nextAttempt = 1 ∧ saw = true)
    (hsaw : nextSaw = true → nextRound = round ∧ saw = true) :
    Ready policy nextRound nextAttempt nextSaw ⟨wake,st.total,st.history ++ [.progress progress]⟩ := by
  obtain ⟨earlier,sentAt,between,hlast,hsends,hfail,hprogress⟩ := h.last
  have hmem : ∀ {e}, e ∈ st.history ++ [Event.progress progress] → e ∈ st.history ∨ e = .progress progress := by
    intro e he
    simpa using he
  refine ⟨hpos,?_,SendsAllowed.append h.past rfl,?_,?_⟩
  · intro time htime
    constructor
    · rw [outputs_append,h.silent]
      rfl
    · intro r e he
      obtain he | he := hmem he
      · exact h.retryable r e he
      · cases he
    · intro r t ht
      obtain ht | ht := hmem ht
      · exact (hw r t ht).trans htime
      · cases ht
    · intro hc
      obtain hc | hc := hmem hc
      · exact h.uncancelled hc
      · cases hc
    · intro q tail hq
      have hlast' : lastSend (st.history ++ [Event.progress progress]) =
          some (⟨round,attempt,sentAt⟩,between ++ [Event.progress progress]) := by
        rw [hlast,List.append_assoc,List.cons_append]
        apply lastSend_append
        rw [sends_append,hsends]
        rfl
      rw [hlast'] at hq
      cases hq
      refine ⟨⟨error,?_⟩,⟨progress,?_,hp.1,hp.2⟩,?_⟩
      · rw [List.filterMap_append,hfail]
        rfl
      · rw [List.filterMap_append,hprogress]
        rfl
      · obtain hsame | ⟨hr,ha,hsaw⟩ := hs
        · exact .inl hsame
        · obtain ⟨body,hbody⟩ := h.saw hsaw
          exact .inr ⟨hr,ha,body,List.mem_append_left _ hbody⟩
  · rw [sends_append,List.length_append,h.total]
    rfl
  · intro hn
    obtain ⟨rfl,hround⟩ := hsaw hn
    obtain ⟨body,hbody⟩ := h.saw hround
    exact ⟨body,List.mem_append_left _ hbody⟩

theorem Failed.afterFailure_good (h : Failed policy round attempt retryAfter error saw st)
    (a : AttemptInputs) (category : RetryCategory) (status : Option UInt16) {rs : RoundState}
    (hs : saw = (rs.sawTransient429 || status == some 429)) :
    (afterFailure p policy round attempt a retryAfter error category status st rs).Good policy
      fun next => Next policy round (attempt + 1) next.2.sawTransient429 next.1 := by
  have hle := h.position.attempt_le
  have htotal : st.total - 1 + 1 = st.total := Nat.sub_add_cancel h.positive
  unfold afterFailure
  simp only [← hs]
  split
  · exact h.final rfl (.inl rfl) rfl
  · split
    · rw [Flow.Good,← List.append_nil st.history]
      exact h.final rfl (.inr ⟨_,rfl⟩) rfl
    · rename_i hgo
      split
      · rw [Flow.Good,← List.append_nil st.history]
        exact h.final rfl (.inr ⟨_,rfl⟩) rfl
      · rename_i new hnew
        split
        · exact h.final rfl (.inl rfl) rfl
        · rename_i late _
          by_cases hlast : attempt = policy.maxAttempts
          · subst hlast
            simp only [beq_self_eq_true,Bool.true_and,Bool.or_eq_true,Bool.not_eq_true',beq_iff_eq,not_or,
              Bool.not_eq_false] at hgo
            rw [Flow.Good,Next,if_neg (by omega)]
            apply h.ready
            · simp
            · rw [← htotal]
              exact h.position.nextRound hgo.2
            · refine h.slept hnew (le_max_right (localDelay p policy policy.maxAttempts true a.sample) _) ?_
              simp only [beq_self_eq_true]
              omega
            · exact .inr ⟨rfl,rfl,hgo.1⟩
            · intro hn
              cases hn
          · rw [Flow.Good,Next,if_pos (by omega)]
            apply h.ready
            · simp [hlast]
            · rw [← htotal]
              exact h.position.next hlast
            · refine h.slept hnew (le_max_right (localDelay p policy attempt
                (attempt == policy.maxAttempts) a.sample) _) ?_
              omega
            · exact .inl ⟨rfl,rfl⟩
            · intro hn
              exact ⟨rfl,hn⟩

end

section
variable (p : Platform) {policy : RetryPolicy} (tools : Bool) (inputs : Nat → AttemptInputs)
  {round attempt : Nat} {saw : Bool} {st : CallState}

theorem Ready.silent (h : Ready policy round attempt saw st) : outputs st.history = [] :=
  (h.allowed st.now le_rfl).silent

/-- The request is sent, and the call returns with its response. -/
theorem Ready.final (h : Ready policy round attempt saw st) (sentAt : Nat) (hs : st.now ≤ sentAt)
    {events more : List Event} {result : Result} (hd : sends more = []) (ho : outputs more = [])
    (ha : Attempted.Sound round (events,.returns result)) :
    Final policy result (st.history ++ .send ⟨round,attempt,sentAt⟩ :: (more ++ events)) := by
  obtain ⟨hsends,hreached,htold⟩ := ha
  have hmore : sends (more ++ events) = [] := by rw [sends_append,hd,hsends]; rfl
  refine ⟨SendsAllowed.send h.past (h.allowed sentAt hs) hmore,?_,hreached,?_⟩
  · have hb := h.position.lt_budget
    have hc : sends (.send ⟨round,attempt,sentAt⟩ :: (more ++ events)) =
        ⟨round,attempt,sentAt⟩ :: sends (more ++ events) := rfl
    rw [sends_append,hc,hmore,List.length_append,h.total]
    exact hb
  · intro outcome he
    have hc : outputs (.send ⟨round,attempt,sentAt⟩ :: (more ++ events)) = outputs (more ++ events) := rfl
    rw [outputs_append,h.silent,List.nil_append,hc,outputs_append,ho,List.nil_append]
    exact htold outcome he

/-- The request is sent, and the attempt fails. -/
theorem Ready.failed (h : Ready policy round attempt saw st) {sentAt now : Nat} (hs : st.now ≤ sentAt)
    {retryAfter : Option (Nat × Nat)} {error : StreamError} {status : Option UInt16}
    (hn : sentAt ≤ now) (hr : Retryable error) (h429 : status = some 429 → ∃ body, error = .http 429 body) :
    Failed policy round attempt retryAfter error (saw || status == some 429)
      ⟨now,st.total + 1,st.history ++ .send ⟨round,attempt,sentAt⟩ ::
        ((retryAfter.map fun r => Event.deadline round (r.1 + r.2)).toList ++ [.failed round error])⟩ := by
  have hallowed := h.allowed sentAt hs
  have hmem : ∀ {e}, e ∈ st.history ++ Event.send ⟨round,attempt,sentAt⟩ ::
      ((retryAfter.map fun r => Event.deadline round (r.1 + r.2)).toList ++ [Event.failed round error]) →
      e ∈ st.history ∨ e = .send ⟨round,attempt,sentAt⟩ ∨
        (∃ r, retryAfter = some r ∧ e = .deadline round (r.1 + r.2)) ∨ e = .failed round error := by
    intro e he
    simpa [eq_comm,and_comm] using he
  have hnil : ∀ {β : Type} {f : Event → Option β}, (∀ r time, f (.deadline r time) = none) →
      (retryAfter.map fun r => Event.deadline round (r.1 + r.2)).toList.filterMap f = [] := by
    intro β f hf
    cases retryAfter with
    | none => rfl
    | some r => simp [hf]
  have hsends : sends ((retryAfter.map fun r => Event.deadline round (r.1 + r.2)).toList ++
      [Event.failed round error]) = [] := by
    rw [sends_append,sends,hnil fun _ _ => rfl]
    rfl
  constructor
  · exact h.position
  · exact Nat.succ_pos _
  · exact SendsAllowed.send h.past hallowed hsends
  · have hc : ∀ more, sends (.send ⟨round,attempt,sentAt⟩ :: more) = ⟨round,attempt,sentAt⟩ :: sends more :=
      fun more => rfl
    rw [sends_append,hc,hsends,List.length_append,h.total]
    rfl
  · have hc : ∀ more, outputs (.send ⟨round,attempt,sentAt⟩ :: more) = outputs more := fun more => rfl
    rw [outputs_append,h.silent,hc,outputs_append,outputs,hnil fun _ _ => rfl]
    rfl
  · intro r e he
    obtain he | he | ⟨_,_,he⟩ | he := hmem he
    · exact hallowed.retryable r e he
    · cases he
    · cases he
    · cases he
      exact hr
  · intro r time ht
    obtain ht | ht | ⟨⟨receivedAt,delay⟩,hra,ht⟩ | ht := hmem ht
    · exact .inl ((hallowed.waited r time ht).trans hn)
    · cases ht
    · cases ht
      exact .inr ⟨receivedAt,delay,hra,rfl⟩
    · cases ht
  · intro hc
    obtain hc | hc | ⟨_,_,hc⟩ | hc := hmem hc
    · exact hallowed.uncancelled hc
    · cases hc
    · cases hc
    · cases hc
  · refine ⟨st.history,sentAt,_,rfl,hsends,?_,?_⟩
    · rw [List.filterMap_append,hnil fun _ _ => rfl]
      rfl
    · rw [List.filterMap_append,hnil fun _ _ => rfl]
      rfl
  · intro hsaw
    rw [Bool.or_eq_true,beq_iff_eq] at hsaw
    obtain hsaw | hstatus := hsaw
    · obtain ⟨body,hbody⟩ := h.saw hsaw
      exact ⟨body,List.mem_append_left _ hbody⟩
    · obtain ⟨body,rfl⟩ := h429 hstatus
      exact ⟨body,by simp⟩

theorem attemptOnce_good (a : AttemptInputs) {rs : RoundState}
    (h : Ready policy round attempt rs.sawTransient429 st) :
    (attemptOnce p policy tools round attempt a st rs).Good policy
      fun next => Next policy round (attempt + 1) next.2.sawTransient429 next.1 := by
  have hsound := receive_sound p policy tools round a.sent
  unfold attemptOnce
  split
  · refine ⟨SendsAllowed.append h.past rfl,?_,?_,?_⟩
    · have hb := h.position.lt_budget
      rw [sends_append,List.length_append,h.total]
      exact (Nat.le_succ _).trans hb
    · intro he
      cases he
    · intro outcome he
      cases he
      rw [outputs_append,h.silent]
      exact ⟨rfl,rfl⟩
  · generalize receive p policy tools round a.sent = attempted at hsound
    obtain ⟨events,ending⟩ := attempted
    cases ending with
    | returns result =>
      apply h.final _ (Nat.le_add_right _ _) _ _ hsound
      · cases a.sent.retryAfter p (st.now + a.untilSent + a.untilReceived) <;> rfl
      · cases a.sent.retryAfter p (st.now + a.untilSent + a.untilReceived) <;> rfl
    | fails error category status =>
      obtain ⟨rfl,hr,h429⟩ := hsound
      refine Failed.afterFailure_good ?_ a category status rfl
      exact h.failed (Nat.le_add_right _ _) (by omega) hr h429

theorem runAttempts_good (n : Nat) {rs : RoundState} (hn : attempt + n = policy.maxAttempts + 1)
    (h : Next policy round attempt rs.sawTransient429 st) :
    (runAttempts p policy tools inputs round (List.range' attempt n) st rs).Good policy
      (Ready policy (round + 1) 1 false) := by
  induction n generalizing attempt st rs with
  | zero =>
    rw [Next,if_neg (by omega)] at h
    exact h
  | succ n ih =>
    rw [Next,if_pos (by omega)] at h
    have hg := attemptOnce_good p tools (inputs st.total) h
    rw [List.range'_succ,runAttempts]
    split
    · rename_i heq
      rwa [heq] at hg
    · rename_i heq
      rw [heq] at hg
      exact ih (by omega) hg

theorem runRounds_final (n : Nat) (hn : round + n = policy.maxRounds + 1)
    (h : Ready policy round 1 false st) :
    Final policy (runRounds p policy tools inputs (List.range' round n) st).1
      (runRounds p policy tools inputs (List.range' round n) st).2 := by
  induction n generalizing round st with
  | zero =>
    have hle := h.position.round_le
    omega
  | succ n ih =>
    have hfirst : Next policy round 1 RoundState.start.sawTransient429 st := by
      rw [Next,if_pos h.position.attempt_le]
      exact h
    have hg := runAttempts_good p tools inputs policy.maxAttempts (by omega) hfirst
    rw [List.range'_succ,runRounds]
    split
    · rename_i heq
      rwa [heq] at hg
    · rename_i heq
      rw [heq] at hg
      exact ih (by omega) hg

end

theorem Ready.start (policy : RetryPolicy) (now : Nat) : Ready policy 1 1 false ⟨now,0,[]⟩ := by
  have hc := policy.inBounds
  refine ⟨⟨le_rfl,hc.2.2.1,le_rfl,hc.2.1,by simp⟩,?_,Throughout.nil,rfl,?_⟩
  · intro time _
    constructor
    · rfl
    · intro r e he
      cases he
    · intro r t ht
      cases ht
    · intro hc
      cases hc
    · intro q between hq
      cases hq
  · intro hs
    cases hs

/-- The retries of a call stay within the budget and within what came before them, the loops never
run out, and an outcome holds what the caller was told. -/
theorem runChatStream_retries (p : Platform) (policy : RetryPolicy) (tools : Bool)
    (inputs : Nat → AttemptInputs) (start : Nat) :
    (sends (runChatStream p policy tools inputs start).2).length ≤ policy.maxRounds * policy.maxAttempts ∧
    Throughout SendsAllowed (runChatStream p policy tools inputs start).2 ∧
    (runChatStream p policy tools inputs start).1 ≠ .unreachable ∧
    ∀ outcome, (runChatStream p policy tools inputs start).1 = .ok outcome →
      deltaText (outputs (runChatStream p policy tools inputs start).2) = outcome.fullText ∧
      reasoningText (outputs (runChatStream p policy tools inputs start).2) = outcome.reasoningText := by
  have hf : Final policy (runChatStream p policy tools inputs start).1
      (runChatStream p policy tools inputs start).2 :=
    runRounds_final p tools inputs policy.maxRounds (by omega) (Ready.start policy start)
  exact ⟨hf.budget,hf.past,hf.reached,hf.told⟩

end Nefor.Provider
