import Nefor.Except
import Nefor.ToolGate.Frames

/-! The chunks of a streamed chat completion, and what each of them says. -/
namespace Nefor.Provider
open Json (Object)

/-- What the chunks need from outside the program: documents read, strings printed for a reader,
and the texts of errors. -/
structure World where
  readJson : String → Except String Json
  debug : String → String
  usageError : Object → String
  /-- The first error among the frames of a buffer. -/
  frameError : List UInt8 → String

/-! Strings. -/

def trimStart (cs : List Char) : List Char := cs.dropWhile ToolGate.isWhitespace

def trim (cs : List Char) : List Char := ((trimStart cs).reverse.dropWhile ToolGate.isWhitespace).reverse

/-- `strip_prefix`. -/
def strip (mark cs : List Char) : Option (List Char) :=
  if mark <+: cs then some (cs.drop mark.length) else none

/-- A text that is there and not empty. -/
def filled (value : Option Json) : Option String := (value.bind Json.asStr).filter (· ≠ "")

/-- The events of a text, if it is filled. -/
def whenFilled {α : Type} (value : Option Json) (event : String → α) : List α :=
  ((filled value).map event).toList

theorem mem_whenFilled {α : Type} {value : Option Json} {event : String → α} {a : α} :
    a ∈ whenFilled value event ↔ ∃ s, s ≠ "" ∧ value.bind Json.asStr = some s ∧ a = event s := by
  unfold whenFilled filled
  rw [Option.mem_toList,Option.map_eq_some_iff]
  constructor
  · rintro ⟨s,hs,rfl⟩
    obtain ⟨hv,hne⟩ := Option.filter_eq_some_iff.mp hs
    exact ⟨s,by simpa using hne,hv,rfl⟩
  · rintro ⟨s,hne,hv,rfl⟩
    exact ⟨s,Option.filter_eq_some_iff.mpr ⟨hv,by simpa using hne⟩,rfl⟩

def asU64 : Json → Option Nat
  | .number (.posInt n) => some n
  | _ => none

mutual
/-- `==` of values, in which doubles compare as doubles. -/
def valueEq : Json → Json → Bool
  | .null, .null => true
  | .bool a, .bool b => a == b
  | .number a, .number b => a.eq b
  | .string a, .string b => a == b
  | .array xs, .array ys => valueEqItems xs ys
  | .object xs, .object ys => valueEqFields xs ys
  | _, _ => false
def valueEqItems : List Json → List Json → Bool
  | [], [] => true
  | x :: xs, y :: ys => valueEq x y && valueEqItems xs ys
  | _, _ => false
def valueEqFields : List (String × Json) → List (String × Json) → Bool
  | [], [] => true
  | (k,x) :: xs, (l,y) :: ys => k == l && valueEq x y && valueEqFields xs ys
  | _, _ => false
end

/-! Reasoning in blocks. -/

/-- The blocks received so far. -/
abbrev ReasoningDetails := List Json

def reasoningTextField (detail : Object) : Option String :=
  match (detail.get "type").bind Json.asStr with
  | some "reasoning.text" => some "text"
  | some "reasoning.summary" => some "summary"
  | _ => none

def fragmentText (detail : Object) (field : String) : Option String :=
  match detail.get field with
  | none => some ""
  | some .null => some ""
  | some (.string text) => some text
  | some _ => none

def isNull : Json → Bool
  | .null => true
  | _ => false

def missingReasoningMetadata (key : String) (value : Json) : Bool :=
  if key = "id" ∨ key = "format" ∨ key = "signature" then isNull value || value.asStr == some ""
  else if key = "index" then isNull value
  else false

/-- Two blocks disagree on an entry that both of them have. -/
def conflicts (previous : Object) (key : String) (value : Json) : Bool :=
  match previous.get key with
  | none => false
  | some old => !valueEq old value && !missingReasoningMetadata key old && !missingReasoningMetadata key value

def adopt (merged : Object) (key : String) (value : Json) : Object :=
  if (merged.get key).all (missingReasoningMetadata key) then merged.insert key value else merged

/-- The block with the next fragment taken in, if it continues the block. -/
def mergeReasoningFragment : Json → Json → Option Json
  | .object previous, .object next =>
    match reasoningTextField previous with
    | none => none
    | some field =>
      if reasoningTextField next ≠ some field ∨ fragmentText previous field = none then none
      else
        match fragmentText next field with
        | none => none
        | some text =>
          if next.any (fun e => e.1 ≠ field && conflicts previous e.1 e.2) then none
          else
            let merged := next.foldl (fun m e => if e.1 = field then m else adopt m e.1 e.2) previous
            let sofar := ((merged.get field).bind Json.asStr).getD ""
            some (.object (merged.insert field (.string (sofar ++ text))))
  | _, _ => none

def appendChunk (details : ReasoningDetails) (chunk : Json) : ReasoningDetails :=
  match details.getLast?.bind (mergeReasoningFragment · chunk) with
  | some merged => details.dropLast ++ [merged]
  | none => details ++ [chunk]

def appendChunks (details : ReasoningDetails) (chunks : List Json) : ReasoningDetails :=
  chunks.foldl appendChunk details

def fromChunks (chunks : List Json) : Option ReasoningDetails :=
  if chunks = [] then none else some (appendChunks [] chunks)

inductive ReasoningContinuation
  | details (reasoningDetails : ReasoningDetails)
  | content (reasoningContent : String)
  | reasoning (reasoning : String)

/-! Events. -/

structure Usage where
  promptTokens : Option Nat
  completionTokens : Option Nat
  totalTokens : Option Nat
  extensions : Object

def Usage.eq (a b : Usage) : Bool :=
  a.promptTokens == b.promptTokens && a.completionTokens == b.completionTokens &&
    a.totalTokens == b.totalTokens && valueEqFields a.extensions b.extensions

/-- A count that may be left out or null. -/
def tokenCount (raw : Object) (field : String) : Option (Option Nat) :=
  match raw.get field with
  | none => some none
  | some .null => some none
  | some value => (asU64 value).map some

/-- `from_value`, with the fields of no name of its own kept as extensions. -/
def Usage.fromValue (w : World) (raw : Object) : Except String Usage :=
  match tokenCount raw "prompt_tokens", tokenCount raw "completion_tokens", tokenCount raw "total_tokens" with
  | some prompt, some completion, some total => .ok
      { promptTokens := prompt
        completionTokens := completion
        totalTokens := total
        extensions := ((raw.erase "prompt_tokens").erase "completion_tokens").erase "total_tokens" }
  | _, _, _ => .error (w.usageError raw)

inductive FinishReason
  | stop
  | length
  | toolCalls
  | contentFilter
  | functionCall
  deriving DecidableEq, Repr

def FinishReason.asStr : FinishReason → String
  | stop => "stop"
  | length => "length"
  | toolCalls => "tool_calls"
  | contentFilter => "content_filter"
  | functionCall => "function_call"

def FinishReason.parse : String → Option FinishReason
  | "stop" => some stop
  | "length" => some length
  | "tool_calls" => some toolCalls
  | "content_filter" => some contentFilter
  | "function_call" => some functionCall
  | _ => none

/-- One item of a chunk, or several of them in order. -/
inductive SseEvent
  | completionId (id : String)
  | delta (text : String)
  | refusal (message : String)
  | reasoningDelta (text : String)
  | reasoningContentDelta (text : String)
  | reasoningDetails (details : List Json)
  | toolCallFragment (index : Nat) (id kind name arguments : Option String)
  | finish (reason : FinishReason)
  | usage (usage : Usage)
  | error (message : String) (kind code : Option String)
  | malformed (message : String)
  | done
  | batch (events : List SseEvent)
  | empty

/-! Reading a chunk. -/

def parseReasoning (delta : Option Json) : List SseEvent :=
  match (delta.bind (·.get "reasoning_content")).bind Json.asStr with
  | some _ => whenFilled (delta.bind (·.get "reasoning_content")) .reasoningContentDelta
  | none => whenFilled (delta.bind (·.get "reasoning")) .reasoningDelta

def parseDetails (delta : Option Json) : Except String (List SseEvent) :=
  match (delta.bind (·.get "reasoning_details")).filter (fun details => !isNull details) with
  | none => .ok []
  | some details =>
    match details.asArray with
    | none => .error "reasoning_details chunk must be an array"
    | some details =>
      if details.any (fun detail => detail.asObject.isNone) then
        .error "reasoning_details chunk entries must be objects"
      else .ok (if details = [] then [] else [.reasoningDetails details])

def parseToolCall (call : Json) : Except String SseEvent :=
  match (call.get "index").bind asU64 with
  | none => .error "tool-call chunk is missing required index"
  | some index =>
    let function := call.get "function"
    .ok (.toolCallFragment index ((call.get "id").bind Json.asStr) ((call.get "type").bind Json.asStr)
      ((function.bind (·.get "name")).bind Json.asStr) ((function.bind (·.get "arguments")).bind Json.asStr))

def parseToolCalls (delta : Option Json) : Except String (List SseEvent) :=
  match (delta.bind (·.get "tool_calls")).bind Json.asArray with
  | none => .ok []
  | some calls => calls.mapM parseToolCall

def parseFinish (w : World) (choice : Option Json) : Except String (List SseEvent) :=
  match (choice.bind (·.get "finish_reason")).bind Json.asStr with
  | none => .ok []
  | some reason =>
    match FinishReason.parse reason with
    | none => .error ("unknown finish_reason " ++ w.debug reason)
    | some reason => .ok [.finish reason]

def parseUsage (w : World) (value : Json) : Except String (List SseEvent) :=
  match value.get "usage" with
  | none => .ok []
  | some .null => .ok []
  | some (.object raw) =>
    match Usage.fromValue w raw with
    | .ok usage => .ok [.usage usage]
    | .error error => .error ("invalid usage payload: " ++ error)
  | some _ => .error "usage must be a JSON object or null"

/-- The items of a chunk that reports no error, in their order. -/
def parseItems (w : World) (value : Json) : Except String (List SseEvent) := do
  let choice := ((value.get "choices").bind Json.asArray).bind List.head?
  let delta := choice.bind (·.get "delta")
  let details ← parseDetails delta
  let toolCalls ← parseToolCalls delta
  let finish ← parseFinish w choice
  let usage ← parseUsage w value
  return whenFilled (value.get "id") .completionId ++ whenFilled (delta.bind (·.get "content")) .delta ++
    whenFilled (delta.bind (·.get "refusal")) .refusal ++ parseReasoning delta ++ details ++ toolCalls ++
    finish ++ usage

def parseError (error : Object) : SseEvent :=
  .error (((error.get "message").bind Json.asStr).getD "provider returned an error")
    ((error.get "type").bind Json.asStr) ((error.get "code").bind Json.asStr)

def parseValue (w : World) (value : Json) : SseEvent :=
  match (value.get "error").bind Json.asObject with
  | some error => parseError error
  | none =>
    match parseItems w value with
    | .error message => .malformed message
    | .ok [] => .empty
    | .ok [event] => event
    | .ok events => .batch events

def parseSseChunk (w : World) (payload : String) : SseEvent :=
  let payload := String.ofList (trim payload.toList)
  if payload = "" then .empty
  else if payload = "[DONE]" then .done
  else
    match w.readJson payload with
    | .error error => .malformed error
    | .ok value => parseValue w value

/-- An item that is no batch, and whose text, if it is one, is not empty. -/
def SseEvent.Plain : SseEvent → Prop
  | .delta text => text ≠ ""
  | .reasoningDelta text => text ≠ ""
  | .reasoningContentDelta text => text ≠ ""
  | .batch _ => False
  | _ => True

theorem parseReasoning_plain {delta : Option Json} {e : SseEvent} (h : e ∈ parseReasoning delta) :
    e.Plain := by
  unfold parseReasoning at h
  split at h
  · obtain ⟨s,hs,-,rfl⟩ := mem_whenFilled.mp h
    exact hs
  · obtain ⟨s,hs,-,rfl⟩ := mem_whenFilled.mp h
    exact hs

theorem parseDetails_plain {delta : Option Json} {events : List SseEvent}
    (h : parseDetails delta = .ok events) : ∀ e ∈ events, e.Plain := by
  unfold parseDetails at h
  split at h
  · cases h
    simp
  · split at h
    · cases h
    · split at h
      · cases h
      · cases h
        split <;> simp [SseEvent.Plain]

theorem parseToolCalls_plain {delta : Option Json} {events : List SseEvent}
    (h : parseToolCalls delta = .ok events) : ∀ e ∈ events, e.Plain := by
  have hcall : ∀ {call e}, parseToolCall call = .ok e → e.Plain := by
    intro call e h
    unfold parseToolCall at h
    split at h
    · cases h
    · cases h
      trivial
  unfold parseToolCalls at h
  split at h
  · cases h
    simp
  · rename_i calls hcalls
    clear hcalls
    induction calls generalizing events with
    | nil =>
      cases h
      simp
    | cons call calls ih =>
      rw [List.mapM_cons] at h
      obtain ⟨e,he,h⟩ := bind_eq_ok.mp h
      obtain ⟨es,hes,h⟩ := bind_eq_ok.mp h
      cases h
      exact List.forall_mem_cons.mpr ⟨hcall he,ih hes⟩

theorem parseFinish_plain {w : World} {choice : Option Json} {events : List SseEvent}
    (h : parseFinish w choice = .ok events) : ∀ e ∈ events, e.Plain := by
  unfold parseFinish at h
  split at h
  · cases h
    simp
  · split at h
    · cases h
    · cases h
      simp [SseEvent.Plain]

theorem parseUsage_plain {w : World} {value : Json} {events : List SseEvent}
    (h : parseUsage w value = .ok events) : ∀ e ∈ events, e.Plain := by
  unfold parseUsage at h
  split at h
  · cases h
    simp
  · cases h
    simp
  · split at h
    · cases h
      simp [SseEvent.Plain]
    · cases h
  · cases h

/-- All items of a chunk are plain. -/
theorem parseItems_plain {w : World} {value : Json} {events : List SseEvent}
    (h : parseItems w value = .ok events) : ∀ e ∈ events, e.Plain := by
  unfold parseItems at h
  obtain ⟨details,hdetails,h⟩ := bind_eq_ok.mp h
  obtain ⟨toolCalls,htoolCalls,h⟩ := bind_eq_ok.mp h
  obtain ⟨finish,hfinish,h⟩ := bind_eq_ok.mp h
  obtain ⟨usage,husage,h⟩ := bind_eq_ok.mp h
  cases h
  intro e he
  simp only [List.mem_append] at he
  obtain ((((((he | he) | he) | he) | he) | he) | he) | he := he
  · obtain ⟨s,-,-,rfl⟩ := mem_whenFilled.mp he
    trivial
  · obtain ⟨s,hs,-,rfl⟩ := mem_whenFilled.mp he
    exact hs
  · obtain ⟨s,-,-,rfl⟩ := mem_whenFilled.mp he
    trivial
  · exact parseReasoning_plain he
  · exact parseDetails_plain hdetails e he
  · exact parseToolCalls_plain htoolCalls e he
  · exact parseFinish_plain hfinish e he
  · exact parseUsage_plain husage e he

/-- A chunk is a plain item or a batch of them. -/
theorem parseSseChunk_plain (w : World) (payload : String) : (parseSseChunk w payload).Plain ∨
    ∃ events, parseSseChunk w payload = .batch events ∧ ∀ e ∈ events, e.Plain := by
  have hvalue : ∀ value, (parseValue w value).Plain ∨
      ∃ events, parseValue w value = .batch events ∧ ∀ e ∈ events, e.Plain := by
    intro value
    unfold parseValue
    split
    · exact .inl trivial
    · split
      · exact .inl trivial
      · exact .inl trivial
      · rename_i event h
        exact .inl (parseItems_plain h event List.mem_cons_self)
      · rename_i events _ _ h
        exact .inr ⟨events,rfl,parseItems_plain h⟩
  unfold parseSseChunk
  simp only
  split
  · exact .inl trivial
  · split
    · exact .inl trivial
    · split
      · exact .inl trivial
      · exact hvalue _

end Nefor.Provider
