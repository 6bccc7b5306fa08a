import Nefor.Provider.Stream

/-! The retry loop around the requests of one call. Times are in nanoseconds. -/
namespace Nefor.Provider
open Sse (Bytes)

/-! The policy. -/

structure RawRetryPolicy where
  maxAttempts : Nat
  maxRounds : Nat
  backoffMultiplier : F64
  initialDelayMs : UInt64
  maxDelayMs : UInt64
  roundCooldownMs : UInt64
  jitterBps : UInt64
  responseHeadersTimeoutMs : UInt64
  deriving DecidableEq, Repr

namespace RawRetryPolicy

def inBounds (raw : RawRetryPolicy) : Prop :=
  1 ≤ raw.backoffMultiplier.toRat ∧ 0 < raw.maxAttempts ∧ 0 < raw.maxRounds ∧
    0 < raw.responseHeadersTimeoutMs ∧ raw.initialDelayMs ≤ raw.maxDelayMs ∧ raw.jitterBps ≤ 10000

instance (raw : RawRetryPolicy) : Decidable raw.inBounds := by unfold inBounds; infer_instance

def cooldownJitter (raw : RawRetryPolicy) : Nat :=
  raw.roundCooldownMs.toNat * raw.jitterBps.toNat / 10000

def cooldown (raw : RawRetryPolicy) : Nat := raw.roundCooldownMs.toNat + raw.cooldownJitter

end RawRetryPolicy

/-- A policy that has been checked. -/
structure RetryPolicy extends RawRetryPolicy where
  inBounds : toRawRetryPolicy.inBounds
  product : maxAttempts * maxRounds < UInt64.size
  cooldown : toRawRetryPolicy.cooldown < UInt64.size

/-- What the loop needs from outside the program: dates of HTTP in nanoseconds of the system's
clock, the last instant of the platform, and the backoff, which is computed with doubles. -/
structure Platform extends World where
  httpDate : String → Option Int
  lastInstant : Nat
  backoff : RawRetryPolicy → Nat → Nat

def millis (ms : Nat) : Nat := ms * 1000000

/-- The checks of `RetryPolicy::from_json`, on the fields it reads. -/
def RetryPolicy.fromRaw (p : Platform) (now : Nat) (raw : RawRetryPolicy) : Except String RetryPolicy :=
  if h : raw.inBounds then
    if hp : raw.maxAttempts * raw.maxRounds < UInt64.size then
      if raw.cooldownJitter < UInt64.size then
        if hc : raw.cooldown < UInt64.size then
          if [raw.maxDelayMs.toNat,raw.cooldown,raw.responseHeadersTimeoutMs.toNat].all
              fun ms => now + millis ms ≤ p.lastInstant then
            .ok { raw with inBounds := h, product := hp, cooldown := hc }
          else .error "retry timer is not representable"
        else .error "retry cooldown overflows"
      else .error "retry cooldown jitter overflows"
    else .error "retry attempt product overflows"
  else .error <| "invalid retry policy multiplier (finite and >= 1), counts, delay bounds, jitter or " ++
    "header timeout"

def exponentialDelayMs (p : Platform) (policy : RetryPolicy) (attempt : Nat) : Nat :=
  if policy.initialDelayMs = 0 then 0
  else min (p.backoff policy.toRawRetryPolicy attempt) policy.maxDelayMs.toNat

def localDelay (p : Platform) (policy : RetryPolicy) (attempt : Nat) (outer : Bool) (sample : UInt64) : Nat :=
  let base := if outer then policy.roundCooldownMs.toNat else exponentialDelayMs p policy attempt
  let scaled := base * policy.jitterBps.toNat
  let denominator := UInt64.size - 1
  let product := scaled / 10000 * sample.toNat
  let jitter := product / denominator +
    (product % denominator * 10000 + scaled % 10000 * sample.toNat) / (denominator * 10000)
  let delay := base + jitter
  millis (if outer then delay % UInt64.size else min delay policy.maxDelayMs.toNat)

/-! What a call meets. -/

/-- The body of a response that is read as a whole. -/
inductive BodyRead
  | cancelled
  | unreadable
  | read (body : String)
  deriving DecidableEq, Repr

structure Response where
  status : UInt16
  retryAfter : Option String
  contentType : Option String
  /-- The system's clock when the headers are read. -/
  systemNow : Int
  stream : ByteStream
  body : BodyRead
  deriving DecidableEq, Repr

/-- What comes of sending a request. -/
inductive Sent
  | cancelled
  | failed (detail : String)
  | timedOut
  | response (response : Response)
  deriving DecidableEq, Repr

/-- What one attempt meets: whether the call has been cancelled where the loop looks, what the
request comes to, and how much time goes by in between. A sleep ends on time or late. -/
structure AttemptInputs where
  cancelledBefore : Bool
  untilSent : Nat
  sent : Sent
  untilReceived : Nat
  untilFailed : Nat
  cancelledAfter : Bool
  sample : UInt64
  untilSleep : Nat
  slept : Option Nat
  deriving DecidableEq, Repr

/-! What a call does. -/

inductive RetryPhase
  | attempt
  | round
  deriving DecidableEq, Repr

structure RetryProgress where
  phase : RetryPhase
  round : Nat
  maxRounds : Nat
  nextRound : Nat
  nextAttempt : Nat
  totalAttempts : Nat
  category : RetryCategory
  status : Option UInt16
  failedAttempt : Nat
  maxAttempts : Nat
  nextDelay : Nat
  deriving DecidableEq, Repr

structure Send where
  round : Nat
  attempt : Nat
  sentAt : Nat
  deriving DecidableEq, Repr

/-- The requests of a call, what the caller is told, and what comes back: the time before which
no request is wanted, the failure of an attempt, and that the call has been cancelled. -/
inductive Event
  | send (send : Send)
  | output (output : Output)
  | progress (progress : RetryProgress)
  | deadline (round notBefore : Nat)
  | failed (round : Nat) (error : StreamError)
  | cancelled
  deriving DecidableEq, Repr

inductive Result
  | ok (outcome : StreamOutcome)
  | err (error : StreamError)
  | unreachable

def interrupted : Result := .ok { StreamOutcome.empty with interrupted := true }

/-! One attempt. -/

def lowercase (s : String) : List Char := s.toList.map Char.toLower

def mentions (body pattern : String) : Bool := pattern.toList <:+: lowercase body

def bodySignalsToolsUnsupported (body : String) : Bool := mentions body "does not support tools"

def responseSignalsTerminalQuotaDenial (status : UInt16) (body : String) : Bool :=
  status == 429 &&
    (["quota","credit","balance","budget"].any (mentions body) &&
        ["exhausted","depleted","insufficient"].any (mentions body) ||
      mentions body "billing_hard_limit" || mentions body "billing hard limit" ||
      mentions body "payment required")

def responseSnippet (body : String) : String :=
  String.ofList (body.toList.take 240) ++ if 240 < body.length then "…" else ""

def retryAfterDelay (p : Platform) (header : Option String) (now : Int) : Option Nat :=
  header.bind fun value =>
    let value := String.ofList (trim value.toList)
    match Sse.parseU64 (Sse.text value) with
    | some seconds => some (seconds.toNat * 1000000000)
    | none => (p.httpDate value).map fun date => (date - now).toNat

def Response.success (r : Response) : Bool := 200 ≤ r.status && r.status < 300

def Response.type (r : Response) : String := r.contentType.getD "<missing>"

def Response.isEventStream (r : Response) : Bool :=
  lowercase (String.ofList (trim (r.type.toList.takeWhile (· ≠ ';')))) = "text/event-stream".toList

/-- What an attempt ends in: a result of the call, or a failure after which it may go on. -/
inductive Ending
  | returns (result : Result)
  | fails (error : StreamError) (category : RetryCategory) (status : Option UInt16)

/-- What happened in an attempt, after its request, and what it ends in. -/
abbrev Attempted := List Event × Ending

def gone : Attempted := ([.cancelled],.returns interrupted)

def terminal (round : Nat) (error : StreamError) : Attempted := ([.failed round error],.returns (.err error))

def transient (round : Nat) (error : StreamError) (category : RetryCategory) (status : Option UInt16) :
    Attempted :=
  ([.failed round error],.fails error category status)

/-- A response that is no event stream is read as a whole. -/
def readBody (p : Platform) (tools : Bool) (round : Nat) (r : Response) (body : String) : Attempted :=
  if r.success then
    terminal round <| .malformed <|
      "expected streaming SSE response with Content-Type text/event-stream, got " ++ p.debug r.type ++
        ": " ++ responseSnippet body
  else if r.status = 401 then terminal round (.unauthorized body)
  else if r.status = 400 ∧ tools ∧ bodySignalsToolsUnsupported body then
    terminal round (.toolsUnsupported body)
  else if responseSignalsTerminalQuotaDenial r.status body ∨
      ¬(r.status = 429 ∨ 500 ≤ r.status ∧ r.status < 600) then
    terminal round (.http r.status body)
  else
    transient round (.http r.status body) (if r.status = 429 then .rateLimit else .server) (some r.status)

def readStream (p : Platform) (round : Nat) (r : Response) : Attempted :=
  match consumeResponseStream p.toWorld r.stream with
  | (.ok outcome,output) =>
    (output.map .output ++ (if outcome.interrupted then [.cancelled] else []),.returns (.ok outcome))
  | (.error failure,output) =>
    (output.map .output ++ [.failed round failure.error],
      if failure.replaySafe then .fails failure.error .streamTransport none
      else .returns (.err failure.error))

def readResponse (p : Platform) (tools : Bool) (round : Nat) (r : Response) : Attempted :=
  if r.success && r.isEventStream then readStream p round r
  else
    match r.body with
    | .cancelled => gone
    | .unreadable => readBody p tools round r "<unreadable response body>"
    | .read body => readBody p tools round r body

/-- The time received with a response, and the delay it asks for. -/
def Sent.retryAfter (p : Platform) (receivedAt : Nat) : Sent → Option (Nat × Nat)
  | .response r => (retryAfterDelay p r.retryAfter r.systemNow).map fun delay => (receivedAt,delay)
  | _ => none

def receive (p : Platform) (policy : RetryPolicy) (tools : Bool) (round : Nat) : Sent → Attempted
  | .cancelled => gone
  | .failed detail => transient round (.request detail) .transport none
  | .timedOut =>
    transient round (.request ("timed out waiting for response headers after " ++
      toString policy.responseHeadersTimeoutMs.toNat ++ "ms")) .transport none
  | .response r => readResponse p tools round r

/-! The loops. -/

structure CallState where
  now : Nat
  total : Nat
  history : List Event

structure RoundState where
  sawTransient429 : Bool
  serverNotBefore : Option Nat

def RoundState.start : RoundState := ⟨false,none⟩

inductive Flow (α : Type)
  | returned (result : Result) (history : List Event)
  | continues (a : α)

/-- The latest deadline of the round, unless the new one cannot be represented. -/
def notBefore (p : Platform) (old : Option Nat) : Option (Nat × Nat) → Option (Option Nat)
  | none => some old
  | some (receivedAt,delay) =>
    let deadline := receivedAt + delay
    if deadline ≤ p.lastInstant ∧ delay / 1000000 < UInt64.size then
      some (some (max (old.getD deadline) deadline))
    else none

/-- What follows a failure of an attempt. -/
def afterFailure (p : Platform) (policy : RetryPolicy) (round attempt : Nat) (a : AttemptInputs)
    (retryAfter : Option (Nat × Nat)) (error : StreamError) (category : RetryCategory)
    (status : Option UInt16) (st : CallState) (rs : RoundState) : Flow (CallState × RoundState) :=
  let saw := rs.sawTransient429 || status == some 429
  if a.cancelledAfter then .returned interrupted (st.history ++ [.cancelled])
  else
    let exhausted := attempt == policy.maxAttempts
    if exhausted && (!saw || round == policy.maxRounds) then
      .returned (.err (.exhausted
        { reason := if exhausted && saw then .roundsExhausted else .attemptsExhausted
          round := round
          maxRounds := policy.maxRounds
          attempt := attempt
          maxAttempts := policy.maxAttempts
          totalAttempts := st.total
          category := category
          status := status } error)) st.history
    else
      match notBefore p rs.serverNotBefore retryAfter with
      | none => .returned (.err (.malformed "Retry-After deadline is not representable")) st.history
      | some serverNotBefore =>
        let remaining := (serverNotBefore.map fun deadline => deadline - st.now).getD 0
        let delay := max (localDelay p policy attempt exhausted a.sample) remaining
        let progress : RetryProgress :=
          { phase := if exhausted then .round else .attempt
            round := round
            maxRounds := policy.maxRounds
            nextRound := if exhausted then round + 1 else round
            nextAttempt := if exhausted then 1 else attempt + 1
            totalAttempts := st.total
            category := category
            status := status
            failedAttempt := attempt
            maxAttempts := policy.maxAttempts
            nextDelay := delay }
        match a.slept with
        | none => .returned interrupted (st.history ++ [.progress progress,.cancelled])
        | some late => .continues
            (⟨st.now + a.untilSleep + delay + late,st.total,st.history ++ [.progress progress]⟩,
              ⟨saw,serverNotBefore⟩)

/-- The body of the inner loop. -/
def attemptOnce (p : Platform) (policy : RetryPolicy) (tools : Bool) (round attempt : Nat)
    (a : AttemptInputs) (st : CallState) (rs : RoundState) : Flow (CallState × RoundState) :=
  if a.cancelledBefore then .returned interrupted (st.history ++ [.cancelled])
  else
    let sentAt := st.now + a.untilSent
    let receivedAt := sentAt + a.untilReceived
    let retryAfter := a.sent.retryAfter p receivedAt
    let (events,ending) := receive p policy tools round a.sent
    let history := st.history ++ .send ⟨round,attempt,sentAt⟩ ::
      ((retryAfter.map fun r => Event.deadline round (r.1 + r.2)).toList ++ events)
    match ending with
    | .returns result => .returned result history
    | .fails error category status =>
      afterFailure p policy round attempt a retryAfter error category status
        ⟨receivedAt + a.untilFailed,st.total + 1,history⟩ rs

/-- The inner loop, over the attempts that are left. The n-th request of the call meets the n-th
of the inputs. -/
def runAttempts (p : Platform) (policy : RetryPolicy) (tools : Bool) (inputs : Nat → AttemptInputs)
    (round : Nat) : List Nat → CallState → RoundState → Flow CallState
  | [], st, _ => .continues st
  | attempt :: rest, st, rs =>
    match attemptOnce p policy tools round attempt (inputs st.total) st rs with
    | .returned result history => .returned result history
    | .continues (st,rs) => runAttempts p policy tools inputs round rest st rs

/-- The outer loop, over the rounds that are left. -/
def runRounds (p : Platform) (policy : RetryPolicy) (tools : Bool) (inputs : Nat → AttemptInputs) :
    List Nat → CallState → Result × List Event
  | [], st => (.unreachable,st.history)
  | round :: rest, st =>
    match runAttempts p policy tools inputs round (List.range' 1 policy.maxAttempts) st .start with
    | .returned result history => (result,history)
    | .continues st => runRounds p policy tools inputs rest st

/-- A call whose request has been built. -/
def runChatStream (p : Platform) (policy : RetryPolicy) (tools : Bool) (inputs : Nat → AttemptInputs)
    (start : Nat) : Result × List Event :=
  runRounds p policy tools inputs (List.range' 1 policy.maxRounds) ⟨start,0,[]⟩

end Nefor.Provider
