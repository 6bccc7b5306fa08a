import Nefor.Sse.Buffer
import Nefor.Provider.Openai

/-! One streamed response: its bytes are cut into chunks, and the chunks build up an outcome while
the caller is told what comes in. -/
namespace Nefor.Provider
open Sse (Bytes)

structure ToolCallFunction where
  name : String
  arguments : String
  deriving DecidableEq, Repr

structure ToolCall where
  id : String
  kind : String
  function : ToolCallFunction
  deriving DecidableEq, Repr

structure StreamOutcome where
  completionId : Option String
  fullText : String
  finishReason : Option String
  usage : Option Usage
  interrupted : Bool
  toolCalls : List ToolCall
  reasoningText : String
  reasoningContinuation : Option ReasoningContinuation

/-- `StreamOutcome::default()`. -/
def StreamOutcome.empty : StreamOutcome := ⟨none,"",none,none,false,[],"",none⟩

inductive RetryCategory
  | rateLimit
  | server
  | transport
  | streamTransport
  deriving DecidableEq, Repr

inductive RetryExhaustionReason
  | attemptsExhausted
  | roundsExhausted
  deriving DecidableEq, Repr

structure RetryExhaustion where
  reason : RetryExhaustionReason
  round : Nat
  maxRounds : Nat
  attempt : Nat
  maxAttempts : Nat
  totalAttempts : Nat
  category : RetryCategory
  status : Option UInt16
  deriving DecidableEq, Repr

inductive StreamError
  | exhausted (retry : RetryExhaustion) (source : StreamError)
  | request (detail : String)
  | unauthorized (body : String)
  | toolsUnsupported (body : String)
  | http (status : UInt16) (body : String)
  | body (detail : String)
  | malformed (detail : String)
  | provider (message : String) (kind code : Option String)
  | refusal (message : String)
  | incompleteToolCall (index : Nat) (missing : String)
  deriving DecidableEq, Repr

/-! Tool calls. -/

structure ToolCallBuilder where
  id : Option String
  kind : Option String
  name : Option String
  arguments : Option String
  deriving DecidableEq, Repr

def ToolCallBuilder.empty : ToolCallBuilder := ⟨none,none,none,none⟩

def ToolCallBuilder.apply (builder : ToolCallBuilder) (id kind name arguments : Option String) :
    ToolCallBuilder where
  id := id.or builder.id
  kind := kind.or builder.kind
  name := name.or builder.name
  arguments :=
    match arguments with
    | some arguments => some (builder.arguments.getD "" ++ arguments)
    | none => builder.arguments

/-- The calls by their index, the indices in order. -/
abbrev ToolCallAccumulator := List (Nat × ToolCallBuilder)

def ToolCallAccumulator.apply (calls : ToolCallAccumulator) (index : Nat)
    (id kind name arguments : Option String) : ToolCallAccumulator :=
  match calls with
  | [] => [(index,ToolCallBuilder.empty.apply id kind name arguments)]
  | (i,builder) :: rest =>
    if index < i then (index,ToolCallBuilder.empty.apply id kind name arguments) :: (i,builder) :: rest
    else if index = i then (i,builder.apply id kind name arguments) :: rest
    else (i,builder) :: ToolCallAccumulator.apply rest index id kind name arguments

def ToolCallBuilder.missing (builder : ToolCallBuilder) : List String :=
  (if builder.id.isNone then ["id"] else []) ++
    (if builder.kind ≠ some "function" then ["type=function"] else []) ++
    (if builder.name.isNone then ["function.name"] else []) ++
    (if builder.arguments.isNone then ["function.arguments"] else [])

def ToolCallBuilder.finalize (index : Nat) (builder : ToolCallBuilder) : Except StreamError ToolCall :=
  if builder.missing ≠ [] then .error (.incompleteToolCall index (", ".intercalate builder.missing))
  else .ok ⟨builder.id.getD "",builder.kind.getD "function",builder.name.getD "",builder.arguments.getD ""⟩

def ToolCallAccumulator.finalize (calls : ToolCallAccumulator) : Except StreamError (List ToolCall) :=
  calls.mapM fun call => call.2.finalize call.1

/-! The events of a stream. -/

/-- What the caller is told while a stream comes in. -/
inductive Output
  | delta (text : String)
  | reasoningDelta (text : String)
  | reasoningEnd (text : String)
  deriving DecidableEq, Repr

structure StreamState where
  outcome : StreamOutcome
  toolCalls : ToolCallAccumulator
  reasoningEnded : Bool
  output : List Output

def StreamState.empty : StreamState := ⟨.empty,[],false,[]⟩

namespace StreamState

def maybeEndReasoning (st : StreamState) : StreamState :=
  if st.reasoningEnded ∨ st.outcome.reasoningText = "" then st
  else
    { st with
      reasoningEnded := true
      output := st.output ++ [.reasoningEnd st.outcome.reasoningText] }

/-- The first text after some reasoning loses the mark that closes the reasoning. -/
def emitText (st : StreamState) (text : String) : String :=
  if st.outcome.fullText = "" ∧ st.outcome.reasoningText ≠ "" then
    match strip "</think>".toList (trimStart text.toList) with
    | some rest => String.ofList (rest.dropWhile fun c => c = '>' || ToolGate.isWhitespace c)
    | none => text
  else text

def delta (st : StreamState) (text : String) : StreamState :=
  let st := st.maybeEndReasoning
  let emitText := st.emitText text
  if emitText = "" then st
  else
    { st with
      outcome := { st.outcome with fullText := st.outcome.fullText ++ emitText }
      output := st.output ++ [.delta emitText] }

/-- The reasoning goes on with a text, and so does its continuation. -/
def reasoning (st : StreamState) (text : String) (continuation : Option ReasoningContinuation) :
    StreamState :=
  { st with
    outcome := { st.outcome with
      reasoningText := st.outcome.reasoningText ++ text
      reasoningContinuation := continuation }
    output := st.output ++ [.reasoningDelta text] }

def reasoningDelta (st : StreamState) (text : String) : StreamState :=
  st.reasoning text (match st.outcome.reasoningContinuation with
    | some (.details details) => some (.details details)
    | some (.content content) => some (.content (content ++ text))
    | some (.reasoning reasoning) => some (.reasoning (reasoning ++ text))
    | none => some (.reasoning text))

def reasoningContentDelta (st : StreamState) (text : String) : StreamState :=
  st.reasoning text (match st.outcome.reasoningContinuation with
    | some (.details details) => some (.details details)
    | some (.content content) => some (.content (content ++ text))
    | some (.reasoning reasoning) => some (.content (reasoning ++ text))
    | none => some (.content text))

def reasoningDetails (st : StreamState) (details : List Json) : StreamState :=
  { st with
    outcome := { st.outcome with
      reasoningContinuation := match st.outcome.reasoningContinuation with
        | some (.details sofar) => some (.details (appendChunks sofar details))
        | _ => (fromChunks details).map .details } }

def finish (st : StreamState) (reason : FinishReason) : StreamState :=
  { st with outcome := { st.outcome with finishReason := some reason.asStr } }.maybeEndReasoning

end StreamState

/-- What a step of a stream ends in: an error, or nothing. -/
abbrev Step := Option StreamError × StreamState

mutual
def applySseEvent (w : World) : SseEvent → StreamState → Step
  | .batch events, st => applyBatch w events st
  | .completionId id, st =>
    match st.outcome.completionId with
    | some existing =>
      if existing ≠ id then
        (some (.malformed ("provider completion id changed from " ++ w.debug existing ++ " to " ++ w.debug id)),st)
      else (none,st)
    | none => (none,{ st with outcome := { st.outcome with completionId := some id } })
  | .delta text, st => (none,st.delta text)
  | .refusal message, st => (some (.refusal message),st)
  | .reasoningDelta text, st => (none,st.reasoningDelta text)
  | .reasoningContentDelta text, st => (none,st.reasoningContentDelta text)
  | .reasoningDetails details, st => (none,st.reasoningDetails details)
  | .toolCallFragment index id kind name arguments, st =>
    (none,{ st with toolCalls := st.toolCalls.apply index id kind name arguments })
  | .finish reason, st => (none,st.finish reason)
  | .usage usage, st =>
    match st.outcome.usage with
    | some existing =>
      if existing.eq usage then (none,st)
      else (some (.malformed "provider emitted conflicting usage payloads"),st)
    | none => (none,{ st with outcome := { st.outcome with usage := some usage } })
  | .error message kind code, st => (some (.provider message kind code),st)
  | .malformed message, st => (some (.malformed message),st)
  | .done, st => (none,st)
  | .empty, st => (none,st)
def applyBatch (w : World) : List SseEvent → StreamState → Step
  | [], st => (none,st)
  | event :: rest, st =>
    match applySseEvent w event st with
    | (some error,st) => (some error,st)
    | (none,st) => applyBatch w rest st
end

/-- The text of a frame, whose bytes are one. -/
def frameText (data : Bytes) : String := (String.fromUTF8? (ByteArray.mk data.toArray)).getD ""

/-- The loop over the frames, with the text of the first error among them. -/
def applyFrames (w : World) (error : String) : List Sse.SseResult → StreamState → Step
  | [], st => (none,st)
  | .error _ :: _, st => (some (.body error),st)
  | .ok frame :: rest, st =>
    match applySseEvent w (parseSseChunk w (frameText frame.data)) st with
    | (some error,st) => (some error,st)
    | (none,st) => applyFrames w error rest st

def drainCompleteFrames (w : World) (buffer : Bytes) (st : StreamState) : Step × Bytes :=
  let (frames,left) := Sse.drain buffer
  (applyFrames w (w.frameError buffer) frames st,left)

/-! The response. -/

/-- How the reading of a stream comes to its end. -/
inductive StreamEnd
  | cancelled
  | ended
  | failed (detail : String)
  deriving DecidableEq, Repr

/-- What reading a stream gives. -/
structure ByteStream where
  reads : List Bytes
  last : StreamEnd
  deriving DecidableEq, Repr

structure StreamAttemptFailure where
  error : StreamError
  replaySafe : Bool

def isBody : StreamError → Bool
  | .body _ => true
  | _ => false

def StreamAttemptFailure.new (error : StreamError) (st : StreamState) : StreamAttemptFailure where
  error := error
  replaySafe := isBody error && st.outcome.fullText == "" && st.outcome.reasoningText == "" &&
    st.outcome.reasoningContinuation.isNone && st.toolCalls.isEmpty

def streamSemanticallyComplete (outcome : StreamOutcome) : Bool := outcome.finishReason.isSome

/-- The outcome of a stream or its failure, and what the caller was told. -/
abbrev Consumed := Except StreamAttemptFailure StreamOutcome × List Output

def failWith (error : StreamError) (st : StreamState) : Consumed :=
  (.error (.new error st),st.output)

/-- The stream has come to its end. -/
def finishStream (w : World) (buffer : Bytes) (st : StreamState) : Consumed :=
  match drainCompleteFrames w buffer st with
  | ((some error,st),_) => failWith error st
  | ((none,st),buffer) =>
    if streamSemanticallyComplete st.outcome = false ∨ buffer ≠ [] then
      failWith (.body "stream ended before a complete semantic response") st
    else
      match st.toolCalls.finalize with
      | .error error => (.error ⟨error,false⟩,st.output)
      | .ok toolCalls =>
        let st := { st with outcome := { st.outcome with toolCalls := toolCalls } }.maybeEndReasoning
        (.ok st.outcome,st.output)

def interruptStream (st : StreamState) : Consumed :=
  let toolCalls := match st.toolCalls.finalize with
    | .ok toolCalls => toolCalls
    | .error _ => []
  let st := { st with outcome := { st.outcome with
    interrupted := true
    toolCalls := toolCalls } }.maybeEndReasoning
  (.ok st.outcome,st.output)

/-- The loop of `consume_response_stream`. -/
def consumeLoop (w : World) : List Bytes → StreamEnd → Bytes → StreamState → Consumed
  | [], .cancelled, _, st => interruptStream st
  | [], .ended, buffer, st => finishStream w buffer st
  | [], .failed detail, buffer, st =>
    if streamSemanticallyComplete st.outcome ∧ buffer = [] then finishStream w buffer st
    else failWith (.body detail) st
  | bytes :: rest, last, buffer, st =>
    match drainCompleteFrames w (buffer ++ bytes) st with
    | ((some error,st),_) => failWith error st
    | ((none,st),buffer) => consumeLoop w rest last buffer st

def consumeResponseStream (w : World) (stream : ByteStream) : Consumed :=
  consumeLoop w stream.reads stream.last [] .empty

end Nefor.Provider
