import Nefor.CompactionPolicy
import Nefor.ConversationManager.Domain

/-! The read models of `projection.lua`: tables for the surfaces, the model context and the
change that each accepted event is published with. -/
namespace Nefor.ConversationManager
open Nefor.Lua

def Role.toLua : Role → LuaValue
  | .system => .str "system"
  | .user => .str "user"
  | .assistant => .str "assistant"
  | .tool => .str "tool"

def Visibility.toLua : Visibility → LuaValue
  | .transcript => .str "transcript"
  | .diagnostic => .str "diagnostic"
  | .discarded => .str "discarded"

def CompactionStatus.toLua : CompactionStatus → LuaValue
  | .pending => .str "pending"
  | .completed => .str "completed"
  | .failed => .str "failed"

def Retry.toLua (r : Retry) : LuaValue := .record [("id",.str r.id),("message_id",r.messageId),
  ("reason",r.reason),("provenance",r.provenance)]

def Turn.toLua (t : Turn) : LuaValue := .record [("id",.str t.id),("run_id",.str t.runId),
  ("actor_id",t.actorId),("status",t.status.toLua),("provenance",t.provenance),
  ("message_start",.num (.int t.messageStart)),("sequence_start",t.sequenceStart),
  ("open_messages",.num (.int t.openMessages)),
  ("message_end",match t.messageEnd with | some n => .num (.int n) | none => .nil),
  ("sequence_end",t.sequenceEnd),("terminal",t.terminal)]

def PendingEdit.toLua (e : PendingEdit) : LuaValue :=
  .record [("source_history_id",e.sourceHistoryId.toLua),("text",.str e.text)]

/-- A table of the conversation that may be absent. -/
def optionLua {α : Type} (toLua : α → LuaValue) : Option α → LuaValue
  | some a => toLua a
  | none => .nil

section PolicyState

/-- The completed operations as facts for the policy. -/
def compactionFact (op : Compaction) : Fields := (LuaValue.record [
  ("kind",.str "context_compaction_completed"),("request_id",.str op.requestId),
  ("history_id",op.historyId.toLua),("sequence",op.terminalSequence)]).fields

def policyFacts (c : Conversation) : List Fields :=
  c.noticeFacts ++ (c.compactions.filter fun op => decide (op.status = .completed)).map compactionFact

/-- `table.sort` by sequence; every fact has a sequence of its own. -/
def sortedFacts (c : Conversation) : List Fields :=
  (policyFacts c).mergeSort fun a b => !numLt (b.get "sequence") (a.get "sequence")

/-- The fact concerns the pair and the path to the head. -/
def applicable (c : Conversation) (provider model : LuaValue) (fact : Fields) : Bool :=
  HistoryPath.isPrefix (fact.get "history_id") c.head.toLua &&
    ((fact.get "kind").rawEq (.str "context_compaction_completed") || provider.isNil ||
      (fact.get "provider").rawEq provider && (fact.get "model").rawEq model)

/-- `M.policy_state`: only the facts on the path to the head, all of them bound to the head. -/
def policyState (c : Conversation) (provider model : LuaValue) : CompactionPolicy.State :=
  let s := ((sortedFacts c).filter (applicable c provider model)).foldl
    (fun s fact => CompactionPolicy.reduce s
      (fact.set "history_id" (.str (HistoryPath.keyOf c.head))))
    { epochId := .str c.initialEpochId }
  { s with notices := s.notices.map fun notices =>
      notices.map fun n => (n.1,{ n.2 with historyId := c.head.toLua }) }

end PolicyState

section AuthoredPrompt
variable (encode : LuaValue → Option String)

/-- `display.structured_text`, with the host's JSON encoder. -/
def structuredText (data : LuaValue) : Option String :=
  if data.isTable && !(data.get "value").isNil then encode (data.get "value") else none

/-- The pieces of text among the chunks. -/
def textChunks (chunks : List LuaValue) : List String :=
  chunks.filterMap fun chunk => match chunk.get "kind",chunk.get "data" with
    | .str "text",.str data => some data
    | _,_ => none

/-- `authored_prompt.text`. -/
def authoredText (message : LuaValue) : Option String :=
  if !message.isTable || !(message.get "role").rawEq (.str "user") then none
  else match message.get "authored_prompt",message.get "text" with
    | .str prompt,_ => some prompt
    | _,.str "" | _,.nil => textOf message
    | _,.str text => some text
    | _,_ => textOf message
where
  /-- The text of the chunks that the message itself carries. -/
  textOf (message : LuaValue) : Option String :=
    let chunks := textChunks (message.get "chunks").sequence
    if chunks.isEmpty then none else some (String.join chunks)

/-- `authored_prompt.display_text`. -/
def displayText (message : LuaValue) : String :=
  if !message.isTable then ""
  else match authoredText message with
    | some prompt => prompt
    | none => match message.get "text" with
      | .str text => if text ≠ "" then text else structured message
      | _ => structured message
where
  /-- The only structured part, as text. -/
  structured (message : LuaValue) : String :=
    match (message.get "structured").isTable,(message.get "structured").sequence with
    | true,[data] => (structuredText encode data).getD ""
    | _,_ => ""

end AuthoredPrompt

section Messages
variable (encode : LuaValue → Option String) (c : Conversation)

def projectedExchange (x : Exchange) : LuaValue := .record [("id",.str x.id),
  ("tool_call_id",x.toolCallId),("message_id",.str x.messageId),("name",x.toolName),
  ("status",x.status.toLua),("arguments",x.arguments),("result",x.result),("error",x.error),
  ("completion_delivery",x.completionDelivery)]

/-- The strings of the chunks of one kind. -/
def chunkTexts (kind : String) (chunks : List LuaValue) : List String :=
  chunks.filterMap fun chunk => match chunk.get "data" with
    | .str data => if (chunk.get "kind").rawEq (.str kind) then some data else none
    | _ => none

def structuredChunks (chunks : List LuaValue) : List LuaValue :=
  chunks.filterMap fun chunk =>
    if (chunk.get "kind").rawEq (.str "structured") && !(chunk.get "data").isNil
    then some (chunk.get "data") else none

def toolCalls (m : Message) : List LuaValue := m.exchangeIds.filterMap fun id =>
  (c.findExchange (.str id)).map fun x => .record [("id",x.2.toolCallId),("name",x.2.toolName),
    ("arguments",x.2.arguments),("status",x.2.status.toLua)]

/-- What the prompt functions see of a message. -/
def presentation (m : Message) : LuaValue := .record [("role",m.role.toLua),
  ("authored_prompt",m.authoredPrompt),("text",.str (String.join (chunkTexts "text" m.chunks))),
  ("structured",.array (structuredChunks m.chunks))]

/-- The text of a message, or its only structured part. -/
def messageContent (m : Message) : LuaValue :=
  let text := String.join (chunkTexts "text" m.chunks)
  match structuredChunks m.chunks with
  | [data] => if text = "" then data else .str text
  | _ => .str text

/-- `content:match("^%s*$")`. -/
def isBlank : LuaValue → Bool
  | .nil => true
  | .str s => s.toList.all fun ch => decide (ch ∈ [' ','\t','\n','\r','\x0b','\x0c'])
  | _ => false

/-- The content handed to a provider: the prompt as it was authored, and a mark for an
interrupted answer that said nothing. -/
def providerContent (m : Message) : LuaValue :=
  let content := messageContent m
  let content := match authoredText (presentation m) with
    | some prompt => .str prompt
    | none => content
  if m.role = .assistant ∧ m.status = .interrupted ∧ isBlank content ∧ toolCalls c m = [] then
    .str "[interrupted by user]"
  else content

/-- `projected_message`. -/
def projectedMessage (m : Message) (includeProviderContext : Bool) : LuaValue :=
  let text := String.join (chunkTexts "text" m.chunks)
  .record [("id",.str m.id),("history_id",m.historyId.toLua),("turn_id",m.turnId),
    ("submission_ids",m.submissionIds.orElse (.table false [])),("input_cause",m.inputCause),
    ("delivery_id",m.deliveryId),("role",m.role.toLua),("status",m.status.toLua),
    ("visibility",m.visibility.toLua),("tool_call_id",m.toolCallId),("tool_name",m.toolName),
    ("chunks",.array m.chunks),
    ("content",if includeProviderContext then providerContent c m else messageContent m),
    ("text",.str text),("display_text",.str (displayText encode (presentation m))),
    ("authored_prompt",m.authoredPrompt),
    ("reasoning",.str (String.join (chunkTexts "reasoning" m.chunks))),
    ("structured",.array (structuredChunks m.chunks)),("tool_calls",.array (toolCalls c m)),
    ("terminal",m.terminal),
    ("provider_context",if includeProviderContext then m.providerContext else .nil)]

/-- `context_messages`. -/
def contextMessages (includeProviderContext : Bool) : List LuaValue :=
  (prefixMessages c).map fun m => projectedMessage encode c m includeProviderContext

def publicCompaction (includeCheckpoint : Bool) (op : Compaction) : LuaValue := .record [
  ("request_id",.str op.requestId),("status",op.status.toLua),("history_cutoff",op.historyCutoff),
  ("history_id",op.historyId.toLua),("provider",.str op.provider),("model",.str op.model),
  ("provider_options",op.providerOptions),("epoch_id",.str op.epochId),
  ("context_watermark",op.contextWatermark),("trigger",op.trigger),("tool_call_id",op.toolCallId),
  ("conversation_id",.str op.conversationId),("error",op.error),
  ("checkpoint",if includeCheckpoint then op.checkpoint else .nil)]

end Messages

section LatestResponse
variable (c : Conversation)

/-- A measured response: where it stands and whom it was measured for. -/
structure Measured where
  sequence : LuaValue
  historyId : HistoryPath
  provider : LuaValue
  model : LuaValue
  latestResponseUsage : LuaValue

def Measured.toLua (u : Measured) : LuaValue := .record [("sequence",u.sequence),
  ("history_id",u.historyId.toLua),("provider",u.provider),("model",u.model),
  ("latest_response_usage",u.latestResponseUsage)]

/-- The last completed operation on the path bounds what still counts, and may carry a
measurement itself. -/
def measuredCutoff : LuaValue × Option Measured :=
  c.compactions.foldl (fun found op =>
    let sequence := op.terminalSequence.orElse (.num (.int 0))
    if decide (op.status = .completed) && c.onHead op.historyId && numLt found.1 sequence then
      (sequence,if op.optionalUsage.truthy then some ⟨sequence,op.historyId,.str op.provider,
        .str op.model,op.optionalUsage⟩ else none)
    else found) (.num (.int 0),none)

/-- `consider(usage)`. -/
def consider (provider model cutoff : LuaValue) (latest : Option Measured) (usage : Measured) :
    Option Measured :=
  if (provider.isNil || usage.provider.rawEq provider && usage.model.rawEq model) &&
      numLt cutoff usage.sequence && c.onHead usage.historyId &&
      (match latest with | none => true | some u => numLt u.sequence usage.sequence)
  then some usage else latest

/-- The measurement of a completed message. Its terminal record and the provenance of its turn
are indexed without a check. -/
def messageMeasured (m : Message) : Except Fault (Option Measured) := do
  let terminal := m.terminal.orElse (.table false [])
  let usage ← indexValue terminal "latest_response_usage"
  if m.status = .completed ∧ m.visibility ≠ .discarded ∧ isMeasurement usage then
    let provider ← indexValue terminal "provider"
    let model ← indexValue terminal "model"
    let fallback := c.provenance.get "provider"
    let provider ← if provider.truthy then .ok provider
      else if m.turnId.truthy then match c.findTurn m.turnId with
        | some t => do
          let provider ← indexValue t.2.provenance "provider"
          .ok (provider.orElse fallback)
        | none => .ok fallback
      else .ok fallback
    .ok (some ⟨m.completedSequence,m.historyId,provider,model,usage⟩)
  else .ok none

def considerMessages (provider model cutoff : LuaValue) :
    List Message → Option Measured → Except Fault (Option Measured)
  | [],latest => .ok latest
  | m :: rest,latest => do
    let measured ← messageMeasured c m
    considerMessages provider model cutoff rest <| match measured with
      | some usage => consider c provider model cutoff latest usage
      | none => latest

/-- `latest_response`. -/
def latestResponse (provider model : LuaValue) : Except Fault (Option Measured) := do
  let (cutoff,latest) := measuredCutoff c
  let latest := c.responseUsages.foldl (fun latest u => consider c provider model cutoff latest
    ⟨u.sequence,u.historyId,.str u.provider,u.model,u.latestResponseUsage⟩) latest
  let latest ← considerMessages c provider model cutoff c.messages latest
  .ok <| match latest with
    | none => none
    | some u => if provider.truthy && (!u.provider.rawEq provider || !u.model.rawEq model) then none
      else some u

end LatestResponse

section Views
variable (encode : LuaValue → Option String) (c : Conversation)

/-- The messages on the path to the head, also those that are open or discarded. -/
def activeMessages : List Message := c.messages.filter fun m => c.onHead m.historyId

/-- `M.conversation`. -/
def conversationView : Except Fault LuaValue := do
  let active := activeMessages c
  let exchanges := c.exchanges.filter fun x => active.any fun m => m.id == x.messageId
  let turns := c.turns.filter fun t => active.any fun m => m.turnId.rawEq (.str t.id)
  let compactions := c.compactions.filter fun op => c.onHead op.historyId
  let provider := c.provenance.get "provider"
  let model := c.provenance.get "model"
  let usage ← latestResponse c provider model
  .ok (.record [("id",.str c.id),("status",c.status.toLua),("provenance",.table false c.provenance),
    ("messages",.array (active.map fun m => projectedMessage encode c m false)),
    ("exchanges",.array (exchanges.map projectedExchange)),
    ("retries",.array (c.retries.map Retry.toLua)),("turns",.array (turns.map Turn.toLua)),
    ("compactions",.array (compactions.map (publicCompaction false))),
    ("response_usage",optionLua Measured.toLua usage),
    ("policy_state",(policyState c provider model).toLua),
    ("pending_edit",optionLua PendingEdit.toLua c.pendingEdit),("history_head",c.head.toLua),
    ("terminal",c.terminal),("last_sequence",.num c.lastSequence),
    ("watermark",.num c.lastSequence)])

/-- What a reader asks the context for. -/
structure ContextOptions where
  provider : LuaValue := .nil
  model : LuaValue := .nil
  historyCutoff : LuaValue := .nil

/-- The bound of `for index = 1, limit`. -/
def loopLimit : LuaValue → Nat
  | .num n => match n.toRat with
    | some q => q.floor.toNat
    | none => 0
  | _ => 0

/-- The pair the context is for: the provenance of the conversation unless it is given. -/
def contextPair (options : ContextOptions) : LuaValue × LuaValue :=
  if options.provider.isNil then (c.provenance.get "provider",c.provenance.get "model")
  else (options.provider,options.model)

/-- The messages of the context, cut off where the reader asks for it. -/
def contextAll (options : ContextOptions) : List Message :=
  if options.historyCutoff.isNil then prefixMessages c
  else (prefixMessages c).take (loopLimit options.historyCutoff)

/-- The latest completed operation that fits the path, the messages and the pair. -/
def selectedCompaction (options : ContextOptions) : Option Compaction :=
  let pair := contextPair c options
  c.compactions.reverse.find? fun op => decide (op.status = .completed) && c.onHead op.historyId &&
    numLe op.historyCutoff (.num (.int (contextAll c options).length)) &&
    (pair.1.isNil || pair.1.rawEq (.str op.provider) && pair.2.rawEq (.str op.model))

/-- How many messages the checkpoint of the selected operation stands for. -/
def contextCutoff (options : ContextOptions) : Nat :=
  match selectedCompaction c options with
  | some op => loopLimit op.historyCutoff
  | none => 0

/-- `M.context`. -/
def contextView (options : ContextOptions) : Except Fault LuaValue := do
  let pair := contextPair c options
  let all := (contextAll c options).map fun m => projectedMessage encode c m true
  let usage ← latestResponse c pair.1 pair.2
  .ok (.record [("messages",.array all),("tail_messages",.array (all.drop (contextCutoff c options))),
    ("history_length",.num (.int all.length)),
    ("compaction",optionLua (publicCompaction true) (selectedCompaction c options)),
    ("watermark",.num c.lastSequence),("history_id",c.head.toLua),
    ("policy_state",(policyState c pair.1 pair.2).toLua),
    ("latest_response_usage",match usage with | some u => u.latestResponseUsage | none => .nil),
    ("pending_compaction",optionLua (publicCompaction false)
      (c.compactions.find? fun op => decide (op.status = .pending)))])

end Views

section Change
variable (encode : LuaValue → Option String) (after : Conversation) (event : Fields)

/-- The turn that an event belongs to, directly or through its message or exchange. -/
def changeTurn : LuaValue :=
  let turnId := event.get "turn_id"
  let message := if (event.get "message_id").truthy then after.findMessage (event.get "message_id")
    else none
  let message := message.orElse fun _ =>
    if (event.get "exchange_id").truthy then
      (after.findExchange (event.get "exchange_id")).bind fun x =>
        after.findMessage (.str x.2.messageId)
    else none
  if turnId.truthy then turnId
  else match message with
    | some m => m.2.turnId.orElse .nil
    | none => .nil

/-- The fields that every change has. -/
structure ChangeHead where
  kind : LuaValue
  turnId : LuaValue
  runId : LuaValue
  actorId : LuaValue

def changeHead : ChangeHead :=
  let turnId := changeTurn after event
  let turn := if turnId.truthy then after.findTurn turnId else none
  let own : LuaValue × LuaValue := match turn with
    | some t => (.str t.2.runId,t.2.actorId)
    | none => (.nil,.nil)
  { kind := event.get "kind"
    turnId := turnId
    runId := if turnId.truthy then (event.get "run_id").orElse own.1 else event.get "run_id"
    actorId := if turnId.truthy then (event.get "actor_id").orElse (own.2.orElse .nil)
      else event.get "actor_id" }

def ChangeHead.change (h : ChangeHead) (fields : List (String × LuaValue)) : LuaValue :=
  .record ([("kind",h.kind),("turn_id",h.turnId),("run_id",h.runId),("actor_id",h.actorId)] ++
    fields)

/-- A lookup whose result is indexed at once. -/
def present {α : Type} : Option α → Except Fault α
  | some a => .ok a
  | none => .error (.raised "attempt to index a nil value")

/-- The change of a message that is started or closed. -/
def messageChange (closed : Bool) : Except Fault LuaValue := do
  let m ← present (after.findMessage (event.get "message_id"))
  let message := projectedMessage encode after m.2 false
  .ok ((changeHead after event).change ([("message",message)] ++
    if closed then [("context_messages",.array [message])] else []))

def turnChange : Except Fault LuaValue := do
  let t ← present (after.findTurn (event.get "turn_id"))
  .ok (ChangeHead.change ⟨event.get "kind",.str t.2.id,.str t.2.runId,t.2.actorId⟩
    [("message_start",.num (.int t.2.messageStart)),
      ("message_end",match t.2.messageEnd with | some n => .num (.int n) | none => .nil),
      ("watermark",t.2.sequenceEnd.orElse (event.get "sequence")),("terminal",t.2.terminal)])

/-- What a compactor is handed: the request and the context up to its cutoff. -/
def compactionInput (op : Compaction) (context : LuaValue) : LuaValue := .record [
  ("request",.record [("request_id",.str op.requestId),("conversation_id",.str op.conversationId),
    ("epoch_id",.str op.epochId),("history_id",op.historyId.toLua),
    ("context_watermark",op.contextWatermark),("history_cutoff",op.historyCutoff),
    ("provider",.str op.provider),("model",.str op.model),("provider_options",op.providerOptions),
    ("trigger",op.trigger),("tool_call_id",op.toolCallId)]),("context",context)]

/-- The options with which the context for a requested operation is read. -/
def requestOptions (op : Compaction) : ContextOptions :=
  ⟨.str op.provider,.str op.model,op.historyCutoff⟩

def requestChange : Except Fault LuaValue := do
  let op ← present (after.findCompaction (event.get "request_id"))
  let context ← contextView encode after (requestOptions op.2)
  let context := LuaValue.table false
    ((context.fields.set "watermark" op.2.contextWatermark).unset "pending_compaction")
  let head := { changeHead after event with kind := .str "context_compaction_pending" }
  .ok (head.change [("compaction",publicCompaction false op.2),("context",context),
    ("input",compactionInput op.2 context),("request_id",event.get "request_id")])

def outcomeChange : Except Fault LuaValue := do
  let op := after.findCompaction (event.get "request_id")
  let context ← contextView encode after {}
  .ok ((changeHead after event).change [
    ("compaction",optionLua (fun op => publicCompaction false op.2) op),("context",context),
    ("request_id",event.get "request_id")])

def noticeChange (appended : Bool) : Except Fault LuaValue := do
  let notice := match event.get "notice_id" with
    | .str id => after.noticeById.lookup id
    | _ => none
  let fields := [("notice",optionLua (LuaValue.table false) notice),
    ("request_id",event.get "request_id"),
    ("policy_state",(policyState after (event.get "provider") (event.get "model")).toLua)]
  if appended then
    let m ← present (after.findMessage (event.get "message_id"))
    let message := projectedMessage encode after m.2 true
    .ok ((changeHead after event).change
      (fields ++ [("message",message),("context_messages",.array [message])]))
  else .ok ((changeHead after event).change fields)

/-- The change of an event on an existing conversation, by the kind of its handler. -/
def kindChange : Kind → Except Fault LuaValue
  | .messageCompleted | .messageInterrupted => messageChange encode after event true
  | .contentChunkAppended => .ok ((changeHead after event).change
      [("message_id",event.get "message_id"),("chunk",event.get "chunk")])
  | .toolExchangeStarted | .toolCallFragmentAppended | .toolCallCompleted | .toolResultRecorded
  | .toolErrorRecorded => do
    let x ← present (after.findExchange (event.get "exchange_id"))
    .ok ((changeHead after event).change [("exchange",projectedExchange x.2)])
  | .retryStarted => .ok ((changeHead after event).change
      [("retry",optionLua Retry.toLua after.retries.getLast?)])
  | .turnStarted => .ok ((changeHead after event).change [("provenance",
      match after.findTurn (event.get "turn_id") with
      | some t => t.2.provenance
      | none => .table false [])])
  | .turnCompleted | .turnFailed | .turnInterrupted => turnChange after event
  | .rewindCommitted => do
    let projection ← conversationView encode after
    let context ← contextView encode after {}
    .ok ((changeHead after event).change [("projection",projection),("context",context),
      ("pending_edit",optionLua PendingEdit.toLua after.pendingEdit),
      ("history_head",after.head.toLua)])
  | .contextCompactionRequested => requestChange encode after event
  | .contextCompactionCompleted | .contextCompactionFailed => outcomeChange encode after event
  | .contextNoticeAppended => noticeChange encode after event true
  | .contextNoticeIncluded | .contextNoticeDelivered => noticeChange encode after event false
  | .responseUsageRecorded => do
    let usage ← latestResponse after (after.provenance.get "provider") (after.provenance.get "model")
    .ok ((changeHead after event).change [("response_usage",optionLua Measured.toLua usage)])
  | .provenanceUpdated => .ok ((changeHead after event).change
      [("provenance",.table false after.provenance)])
  | .conversationCompleted | .conversationInterrupted | .conversationFailed =>
    .ok ((changeHead after event).change
      [("status",after.status.toLua),("terminal",after.terminal)])
  | .activeSelected => .ok ((changeHead after event).change [])

/-- `M.change`, for the kinds that the fold knows. -/
def change : Except Fault LuaValue :=
  match dispatch (event.get "kind") with
  | none => .ok ((changeHead after event).change [])
  | some .created => do
    let conversation ← conversationView encode after
    .ok ({ changeHead after event with kind := .str "conversation_created" }.change
      [("conversation",conversation)])
  | some .messageStarted => messageChange encode after event false
  | some (.other kind) => kindChange encode after event kind

end Change
end Nefor.ConversationManager
