import Nefor.ConversationManager.State

/-! The event handlers of `domain.lua` and the fold that dispatches to them. Every handler
runs on the shared conversation table: a failure keeps what was written before it. -/
namespace Nefor.ConversationManager
open Nefor.Lua Nefor.Action

abbrev Handler := Action Conversation Fault Unit

/-- A non-empty string, which is what every identifier must be. -/
def asId : LuaValue → Option String
  | .str s => if s = "" then none else some s
  | _ => none

def requireId (event : Fields) (field : String) : Action Conversation Fault String :=
  need (asId (event.get field)) (.rejected ("invalid_" ++ field)
    [("kind",event.get "kind"),("field",.str field),("value",event.get field)])

def requireLive (event : Fields) : Handler := do
  let c ← read
  require (decide (c.status = .active)) (.rejected "conversation_terminal"
    [("conversation_id",.str c.id),("status",c.status.toLua),("kind",event.get "kind")])

/-- `measurement` of `context_usage.lua`. -/
def isMeasurement (value : LuaValue) : Bool :=
  let integer : LuaValue → Bool
    | .num n => LuaNum.le (.int 0) n && n.finite && n.integral
    | _ => false
  value.isTable && (value.get "kind").rawEq (.str "completed_response") &&
    integer (value.get "total_tokens") &&
    ["input_tokens","output_tokens"].all fun key =>
      (value.get key).isNil || integer (value.get key)

def finite : LuaValue → Bool
  | .num n => n.finite
  | _ => false

/-- `a < b` and `a <= b` once both sides are known to be numbers. -/
def numLt : LuaValue → LuaValue → Bool
  | .num a, .num b => a.lt b
  | _, _ => false

def numLe : LuaValue → LuaValue → Bool
  | .num a, .num b => a.le b
  | _, _ => false

def integral : LuaValue → Bool
  | .num n => n.integral
  | _ => false

/-- Fields of the string library, which indexing a string reaches. -/
def stringLibrary : List String :=
  ["byte","char","dump","find","format","gmatch","gsub","len","lower","match","pack",
    "packsize","rep","reverse","sub","unpack","upper"]

/-- `value[name]` on a value that nothing has checked to be a table. -/
def indexValue (value : LuaValue) (name : String) : Except Fault LuaValue :=
  match value with
  | .table _ es => .ok (Fields.get es name)
  | .str _ => .ok (if name ∈ stringLibrary then .userdata 0 else .nil)
  | v => .error (.raised ("attempt to index a " ++ v.typeName ++ " value"))

def created (conversation : Option Conversation) (event : Fields) : Except Fault Conversation :=
  let id := event.get "conversation_id"
  match conversation with
  | some _ => .error (.rejected "created_more_than_once" [("conversation_id",id)])
  | none =>
    if !(event.get "sequence").rawEq (.num (.int 1)) then
      .error (.rejected "created_not_first"
        [("conversation_id",id),("sequence",event.get "sequence")])
    else if !(event.get "provenance").isNil && !(event.get "provenance").isTable then
      .error (.rejected "invalid_provenance" [("kind",event.get "kind")])
    else .ok {
      id := (asId id).getD ""
      provenance := (event.get "provenance").fields
      initialEpochId := (asId (event.get "event_id")).getD "" }

def responseUsageRecorded (event : Fields) : Handler := do
  requireLive event
  let provider ← requireId event "provider"
  let requestId ← requireId event "request_id"
  require (isMeasurement (event.get "latest_response_usage"))
    (.rejected "invalid_response_usage" [])
  update fun c => { c with responseUsages := c.responseUsages ++ [{
    historyId := c.head
    sequence := event.get "sequence"
    provider := provider
    model := event.get "model"
    requestId := requestId
    latestResponseUsage := event.get "latest_response_usage" }] }

def provenanceUpdated (event : Fields) : Handler := do
  requireLive event
  require (event.get "provenance").isTable
    (.rejected "invalid_provenance" [("kind",event.get "kind")])
  update fun c => { c with
    provenance := (event.get "provenance").fields.foldl (fun p e => p.put e.1 e.2) c.provenance }

/-- What the first checks of `message_started` find out. -/
structure Start where
  id : String
  role : Role
  toolName : LuaValue
  turn : Option Nat
  visibility : Visibility
  allocated : HistoryPath

/-- `message_started` up to the allocation, whose child number is not taken yet. -/
def startAllocated (event : Fields) : Action Conversation Fault Start := do
  requireLive event
  let id ← requireId event "message_id"
  let c ← read
  require (c.messageById.lookup id).isNone
    (.rejected "message_id_conflict" [("message_id",.str id)])
  let role ← need (Role.ofLua (event.get "role"))
    (.rejected "invalid_role" [("message_id",.str id),("role",event.get "role")])
  let toolName ← if role = .tool then do
      let callId ← need (asId (event.get "tool_call_id"))
        (.rejected "invalid_tool_call_id" [("message_id",.str id)])
      let exchange ← need (c.findToolCall (.str callId)) (.rejected "tool_call_not_found"
        [("message_id",.str id),("tool_call_id",.str callId)])
      pure exchange.2.toolName
    else pure .nil
  let turn ← if (event.get "turn_id").truthy then do
      let turn ← need (c.findTurn (event.get "turn_id"))
        (.rejected "turn_not_found" [("turn_id",event.get "turn_id")])
      require (decide (turn.2.status = .opened)) (.rejected "turn_not_open"
        [("turn_id",.str turn.2.id),("status",turn.2.status.toLua)])
      pure (some turn.1)
    else pure none
  let visibility ← if (event.get "visibility").isNil then pure .transcript
    else need (Visibility.ofLua (event.get "visibility")) (.rejected "invalid_visibility"
      [("message_id",.str id),("visibility",event.get "visibility")])
  match HistoryPath.allocate c.head c.historyChildMax with
  | .ok allocated => pure ⟨id,role,toolName,turn,visibility,allocated⟩
  | .error e => fail (.rejected e.code [("message_id",.str id)])

/-- `message_started` up to and including the comparison of the history id. -/
def startChecks (event : Fields) : Action Conversation Fault Start := do
  let s ← startAllocated event
  require ((event.get "history_id").isNil || (event.get "history_id").equal s.allocated.toLua)
    (.rejected "invalid_history_id" [("message_id",.str s.id),
      ("expected",s.allocated.toLua),("actual",event.get "history_id")])
  pure s

/-- The checks that `message_started` only makes after it has taken the child number. -/
def startLateChecks (event : Fields) (id : String) (role : Role) : Handler := do
  require ((event.get "delivery_id").isNil ||
      (asId (event.get "delivery_id")).isSome && decide (role = .user))
    (.rejected "invalid_delivery_id" [("message_id",.str id)])
  require ((event.get "authored_prompt").isNil ||
      (event.get "authored_prompt").typeName == "string")
    (.rejected "invalid_authored_prompt" [("message_id",.str id)])
  require ((event.get "authored_prompt").isNil || decide (role = .user))
    (.rejected "invalid_authored_prompt_role" [("message_id",.str id),("role",event.get "role")])

/-- `c.history_child_max[parent_key] = allocated[#allocated]`. -/
def takeChild (allocated : HistoryPath) (c : Conversation) : Conversation :=
  { c with historyChildMax :=
      assign c.historyChildMax c.head.keyOf (HistoryPath.lastComponent allocated) }

/-- The open message that `message_started` appends. -/
def newMessage (event : Fields) (s : Start) : Message where
  id := s.id
  historyId := s.allocated
  role := s.role
  status := .opened
  visibility := s.visibility
  turnId := event.get "turn_id"
  toolCallId := event.get "tool_call_id"
  submissionIds := (event.get "submission_ids").orElse (.table false [])
  inputCause := event.get "input_cause"
  deliveryId := event.get "delivery_id"
  authoredPrompt := event.get "authored_prompt"
  toolName := (event.get "tool_name").orElse s.toolName

/-- The writes with which `message_started` ends. -/
def startMessage (event : Fields) (s : Start) (c : Conversation) : Conversation :=
  let c := c.pushMessage (newMessage event s)
  let c := if s.role = .user ∧ s.visibility = .transcript then { c with pendingEdit := none }
    else c
  let c := { c with openMessages := c.openMessages + 1 }
  match s.turn with
  | some i => c.modifyTurn i fun t => { t with openMessages := t.openMessages + 1 }
  | none => c

/-- `message_started` also writes the allocated path into the event it was given. -/
def messageStarted (event : Fields) : Action Conversation Fault Fields := do
  let s ← startChecks event
  update (takeChild s.allocated)
  startLateChecks event s.id s.role
  update (startMessage event s)
  pure (event.set "history_id" s.allocated.toLua)

/-- The message an event names, which must exist and be open. -/
def requireOpenMessage (c : Conversation) (id : LuaValue) :
    Action Conversation Fault (Nat × Message) := do
  let m ← need (c.findMessage id) (.rejected "message_not_found" [("message_id",id)])
  require (decide (m.2.status = .opened)) (.rejected "message_not_open"
    [("message_id",id),("status",m.2.status.toLua)])
  pure m

def isChunkKind : LuaValue → Bool
  | .str kind => kind ∈ ["text","reasoning","structured","native"]
  | _ => false

def contentChunkAppended (event : Fields) : Handler := do
  requireLive event
  let c ← read
  let m ← requireOpenMessage c (event.get "message_id")
  let chunk := event.get "chunk"
  require (chunk.isTable && isChunkKind (chunk.get "kind")) (.rejected "invalid_content_chunk"
    [("message_id",event.get "message_id"),("chunk_kind",chunk.get "kind")])
  update fun c => c.modifyMessage m.1 fun m => { m with chunks := m.chunks ++ [chunk] }

def toolExchangeStarted (event : Fields) : Handler := do
  requireLive event
  let id ← requireId event "exchange_id"
  let c ← read
  require (c.exchangeById.lookup id).isNone
    (.rejected "exchange_id_conflict" [("exchange_id",.str id)])
  let m ← requireOpenMessage c (event.get "message_id")
  require ((event.get "tool_call_id").isNil || (asId (event.get "tool_call_id")).isSome)
    (.rejected "invalid_tool_call_id"
      [("exchange_id",.str id),("tool_call_id",event.get "tool_call_id")])
  let exchange : Exchange := {
    id := id
    messageId := (asId (event.get "message_id")).getD ""
    toolCallId := event.get "tool_call_id"
    toolName := event.get "tool_name"
    status := .callOpen }
  update fun c =>
    let c := { c with
      exchanges := c.exchanges ++ [exchange]
      exchangeById := assign c.exchangeById id c.exchanges.length
      openExchanges := c.openExchanges + 1 }
    c.modifyMessage m.1 fun m => { m with exchangeIds := m.exchangeIds ++ [id] }

/-- The exchange an event names, which must exist and still collect its call. -/
def requireOpenCall (c : Conversation) (event : Fields) :
    Action Conversation Fault (Nat × Exchange) := do
  let x ← need (c.findExchange (event.get "exchange_id"))
    (.rejected "exchange_not_found" [("exchange_id",event.get "exchange_id")])
  require (decide (x.2.status = .callOpen)) (.rejected "tool_call_not_open"
    [("exchange_id",event.get "exchange_id"),("status",x.2.status.toLua)])
  pure x

def toolCallFragmentAppended (event : Fields) : Handler := do
  requireLive event
  let c ← read
  let x ← requireOpenCall c event
  let m ← need (c.findMessage (.str x.2.messageId)) (.raised "attempt to index a nil value")
  require (decide (m.2.status = .opened)) (.rejected "message_not_open"
    [("message_id",.str m.2.id),("status",m.2.status.toLua)])
  let fragment := event.get "fragment"
  update fun c => c.modifyExchange x.1 fun x =>
    { x with callChunks := if fragment.isNil then x.callChunks else x.callChunks ++ [fragment] }

def toolCallCompleted (event : Fields) : Handler := do
  requireLive event
  let c ← read
  let x ← requireOpenCall c event
  let exchangeId := event.get "exchange_id"
  let call := event.get "call"
  require call.isTable (.rejected "invalid_tool_call" [("exchange_id",exchangeId)])
  let externalId ← need
    (asId (((call.get "id").orElse (event.get "tool_call_id")).orElse x.2.toolCallId))
    (.rejected "invalid_tool_call_id" [("exchange_id",exchangeId)])
  let name ← need (asId (((call.get "name").orElse (event.get "tool_name")).orElse x.2.toolName))
    (.rejected "invalid_tool_name" [("exchange_id",exchangeId)])
  require (!(call.get "arguments").isNil)
    (.rejected "invalid_tool_arguments" [("exchange_id",exchangeId)])
  -- a call id may be reused once the attempt that held it has been discarded
  let conflict := match c.findToolCall (.str externalId) with
    | none => false
    | some existing => decide (existing.1 ≠ x.1) &&
        match c.findMessage (.str existing.2.messageId) with
        | none => true
        | some m => decide (m.2.visibility ≠ .discarded)
  require (!conflict) (.rejected "tool_call_id_conflict"
    [("exchange_id",exchangeId),("tool_call_id",.str externalId)])
  update fun c =>
    let c := c.modifyExchange x.1 fun x => { x with
      status := .callCompleted
      toolCallId := .str externalId
      toolName := .str name
      arguments := call.get "arguments" }
    { c with exchangeByToolCallId := assign c.exchangeByToolCallId externalId x.1 }

def isCompletionDelivery : LuaValue → Bool
  | .str delivery => delivery ∈ ["sync","async"]
  | _ => false

/-- `finish_exchange` records the result or the error of a completed call. -/
def finishExchange (settle : Exchange → Exchange) (event : Fields) : Handler := do
  requireLive event
  let c ← read
  let exchangeId := event.get "exchange_id"
  let x ← need (c.findExchange exchangeId)
    (.rejected "exchange_not_found" [("exchange_id",exchangeId)])
  let code := if x.2.status = .result ∨ x.2.status = .error then "tool_exchange_terminal"
    else "tool_call_incomplete"
  require (decide (x.2.status = .callCompleted)) (.rejected code
    [("exchange_id",exchangeId),("status",x.2.status.toLua)])
  let delivery := event.get "completion_delivery"
  require (delivery.isNil || isCompletionDelivery delivery)
    (.rejected "invalid_completion_delivery"
      [("exchange_id",exchangeId),("completion_delivery",delivery)])
  update fun c =>
    let c := c.modifyExchange x.1 fun x => { settle x with completionDelivery := delivery }
    { c with openExchanges := c.openExchanges - 1 }

def toolResultRecorded (event : Fields) : Handler :=
  finishExchange (fun x => { x with status := .result, result := event.get "result" }) event

def toolErrorRecorded (event : Fields) : Handler :=
  finishExchange (fun x => { x with status := .error, error := event.get "error" }) event

/-- `settle_visibility`: the visibility may only narrow, and is written at once. -/
def settleVisibility (i : Nat) (m : Message) (event : Fields) : Handler :=
  let given := event.get "visibility"
  if given.isNil then pure ()
  else do
    let visibility ← need (Visibility.ofLua given) (.rejected "invalid_visibility"
      [("message_id",.str m.id),("visibility",given)])
    require (decide (m.visibility = .transcript ∨ visibility ≠ .transcript))
      (.rejected "invalid_visibility_promotion" [("message_id",.str m.id)])
    update fun c => c.modifyMessage i fun m => { m with visibility := visibility }

/-- The first exchange of a message whose call is still open; a dangling id would raise. -/
def findOpenCall (c : Conversation) : List String → Except Fault (Option Exchange)
  | [] => .ok none
  | id :: rest => match c.findExchange (.str id) with
    | none => .error (.raised "attempt to index a nil value")
    | some x => if x.2.status = .callOpen then .ok (some x.2) else findOpenCall c rest

def isProviderContext (context : LuaValue) : Bool :=
  context.isTable && (context.get "provider").nonempty && (context.get "format").nonempty &&
    (context.get "artifact").isTable &&
    ((context.get "model").isNil || (context.get "model").nonempty)

/-- The two refusals of `message_completed` that come after the visibility is settled. -/
def completionChecks (m : Message) (event : Fields) : Handler := do
  let c ← read
  match findOpenCall c m.exchangeIds with
  | .error e => fail e
  | .ok (some x) => fail (.rejected "tool_call_incomplete"
      [("exchange_id",.str x.id),("message_id",.str m.id)])
  | .ok none =>
    let context := event.get "provider_context"
    require (context.isNil || isProviderContext context)
      (.rejected "invalid_provider_context" [("message_id",.str m.id)])

/-- Closing an open message is counted in the conversation and in its turn. -/
def closeMessage (m : Message) (c : Conversation) : Conversation :=
  let c := { c with openMessages := c.openMessages - 1 }
  if m.turnId.truthy then
    match c.findTurn m.turnId with
    | some t => c.modifyTurn t.1 fun t => { t with openMessages := t.openMessages - 1 }
    | none => c
  else c

/-- The terminal record; `message.completion` is indexed without a check of its type. -/
def completionTerminal (event : Fields) (completion : LuaValue) : Except Fault LuaValue := do
  let usage ← if (event.get "latest_response_usage").truthy
    then .ok (event.get "latest_response_usage")
    else indexValue completion "latest_response_usage"
  let provider ← if (event.get "provider").truthy then .ok (event.get "provider")
    else indexValue completion "provider"
  .ok (.record [("model",event.get "model"),("duration_ms",event.get "duration_ms"),
    ("usage",event.get "usage"),("latest_response_usage",usage),("provider",provider),
    ("finish_reason",event.get "finish_reason")])

def messageCompleted (event : Fields) : Handler := do
  requireLive event
  let c ← read
  let m ← requireOpenMessage c (event.get "message_id")
  settleVisibility m.1 m.2 event
  completionChecks m.2 event
  let completion := (event.get "completion").orElse (.table false [])
  let context := event.get "provider_context"
  update fun c =>
    let c := c.modifyMessage m.1 fun m => { m with
      status := .completed
      completedSequence := event.get "sequence"
      completion := completion
      providerContext := if context.isNil then m.providerContext else context }
    closeMessage m.2 c
  match completionTerminal event completion with
  | .error e => fail e
  | .ok terminal =>
    update fun c => c.modifyMessage m.1 fun m => { m with terminal := terminal }

def messageInterrupted (event : Fields) : Handler := do
  requireLive event
  let c ← read
  let m ← requireOpenMessage c (event.get "message_id")
  settleVisibility m.1 m.2 event
  update fun c =>
    let c := c.modifyMessage m.1 fun m => { m with
      status := .interrupted
      terminal :=
        ((event.get "detail").orElse (event.get "terminal")).orElse (.table false []) }
    closeMessage m.2 c

def retryStarted (event : Fields) : Handler := do
  requireLive event
  let id ← requireId event "retry_id"
  let c ← read
  require (c.retryById.lookup id).isNone (.rejected "retry_id_conflict" [("retry_id",.str id)])
  let messageId := event.get "message_id"
  let m ← if messageId.isNil then pure none else do
    let m ← requireOpenMessage c messageId
    pure (some m.1)
  let retry : Retry := {
    id := id
    messageId := messageId
    reason := event.get "reason"
    provenance := (event.get "provenance").orElse (.table false []) }
  update fun c =>
    let c := { c with
      retries := c.retries ++ [retry]
      retryById := assign c.retryById id c.retries.length }
    match m with
    | some i => c.modifyMessage i fun m => { m with attempts := m.attempts ++ [retry] }
    | none => c

def turnStarted (event : Fields) : Handler := do
  requireLive event
  let id ← requireId event "turn_id"
  let runId ← requireId event "run_id"
  let c ← read
  require (c.turnById.lookup id).isNone (.rejected "turn_id_conflict" [("turn_id",.str id)])
  update fun c => { c with
    turns := c.turns ++ [{
      id := id
      runId := runId
      actorId := event.get "actor_id"
      status := .opened
      provenance := (event.get "provenance").orElse (.table false [])
      messageStart := c.messages.length + 1
      sequenceStart := event.get "sequence"
      openMessages := 0 }]
    turnById := assign c.turnById id c.turns.length }

def finishTurn (status : TurnStatus) (event : Fields) : Handler := do
  requireLive event
  let c ← read
  let t ← need (c.findTurn (event.get "turn_id"))
    (.rejected "turn_not_found" [("turn_id",event.get "turn_id")])
  require (decide (t.2.status = .opened)) (.rejected "turn_not_open"
    [("turn_id",.str t.2.id),("status",t.2.status.toLua)])
  require ((event.get "run_id").rawEq (.str t.2.runId)) (.rejected "turn_run_mismatch"
    [("turn_id",.str t.2.id),("expected",.str t.2.runId),("actual",event.get "run_id")])
  require (decide (t.2.openMessages = 0)) (.rejected "open_message_at_turn_terminal"
    [("turn_id",.str t.2.id),("open_messages",.num (.int t.2.openMessages))])
  update fun c => c.modifyTurn t.1 fun t => { t with
    status := status
    messageEnd := some c.messages.length
    sequenceEnd := event.get "sequence"
    terminal :=
      ((event.get "detail").orElse (event.get "terminal")).orElse (.table false []) }

def turnCompleted (event : Fields) : Handler := finishTurn .completed event
def turnFailed (event : Fields) : Handler := finishTurn .failed event
def turnInterrupted (event : Fields) : Handler := finishTurn .interrupted event

/-- `authored_prompt.text`; messages of the fold carry no `text` field. -/
def promptText (m : Message) : Option String :=
  if m.role ≠ .user then none
  else match m.authoredPrompt with
    | .str prompt => some prompt
    | _ =>
      let texts := m.chunks.filterMap fun chunk =>
        match chunk.get "kind",chunk.get "data" with
        | .str "text",.str data => some data
        | _,_ => none
      if texts.isEmpty then none else some (String.join texts)

/-- No compaction of the conversation is waiting for its outcome. -/
def requireNoPending (c : Conversation) : Handler :=
  match c.compactions.find? fun op => decide (op.status = .pending) with
  | some op => fail (.rejected "compaction_pending" [("request_id",.str op.requestId)])
  | none => pure ()

def rewindCommitted (event : Fields) : Handler := do
  requireLive event
  let c ← read
  requireNoPending c
  let openTurns := c.turns.countP fun t => decide (t.status = .opened)
  require (decide (c.openMessages = 0 ∧ c.openExchanges = 0 ∧ openTurns = 0))
    (.rejected "rewind_while_active" [("open_messages",.num (.int c.openMessages)),
      ("open_exchanges",.num (.int c.openExchanges)),("open_turns",.num (.int openTurns))])
  let target := event.get "target_history_id"
  let invalid : Fault := .rejected "invalid_rewind_target" [("target_history_id",target)]
  require (HistoryPath.valid target false) invalid
  let expected := event.get "expected_head"
  require (HistoryPath.valid expected true && expected.equal c.head.toLua)
    (.rejected "stale_rewind_target"
      [("expected_head",expected),("actual_head",c.head.toLua)])
  let m ← need (c.findHistory target) invalid
  require (decide (m.2.role = .user ∧ m.2.visibility = .transcript ∧ m.2.status = .completed) &&
    c.onHead m.2.historyId) invalid
  let prompt ← need (promptText m.2) invalid
  update fun c => { c with
    head := m.2.historyId.parent
    pendingEdit := some ⟨m.2.historyId,prompt⟩ }

/-- `current_epoch`: the last completed compaction on the path to the head. -/
def currentEpoch (c : Conversation) : String :=
  c.compactions.foldl
    (fun epoch op => if op.status = .completed ∧ c.onHead op.historyId then op.requestId else epoch)
    c.initialEpochId

def pairMatches (c : Conversation) (provider model : LuaValue) : Bool :=
  let agrees := fun key value => (c.provenance.get key).isNil || (c.provenance.get key).rawEq value
  agrees "provider" provider && agrees "model" model

/-- The notice is still owed to its provider and model on the path to the head. -/
def noticePending (c : Conversation) (event notice : Fields) : Bool :=
  !(notice.get "delivered").truthy &&
    ["epoch_id","provider","model"].all (fun key => (notice.get key).rawEq (event.get key)) &&
    HistoryPath.isPrefix (notice.get "history_id") c.head.toLua

def requireIds (event : Fields) : List String → Handler
  | [] => pure ()
  | field :: rest => do
    let _ ← requireId event field
    requireIds event rest

/-- Store the notice under its id and log it, bound to the path of its message. -/
def recordNotice (event : Fields) (id : String) (path : HistoryPath) (c : Conversation) :
    Conversation :=
  let recorded := ((event.unset "text").set "history_id" path.toLua).set "request_ids" (.array [])
  { c with
    noticeById := assign c.noticeById id recorded
    noticeFacts := c.noticeFacts ++ [recorded] }

/-- The diagnostic message that carries a new notice. -/
def noticeMessage (event : Fields) (id : String) (allocated : HistoryPath) : Message where
  id := id
  historyId := allocated
  role := .system
  status := .completed
  visibility := .diagnostic
  chunks := [.record [("kind",.str "text"),("data",event.get "text")]]
  completedSequence := event.get "sequence"

def contextNoticeAppended (event : Fields) : Handler := do
  requireLive event
  requireIds event ["notice_id","message_id","epoch_id","provider","model"]
  let noticeId := (asId (event.get "notice_id")).getD ""
  let messageId := (asId (event.get "message_id")).getD ""
  let c ← read
  require (c.noticeById.lookup noticeId).isNone (.rejected "notice_id_conflict" [])
  require (decide (c.openMessages = 0 ∧ c.openExchanges = 0))
    (.rejected "notice_while_active_exchange" [])
  require ((event.get "epoch_id").rawEq (.str (currentEpoch c)) &&
      pairMatches c (event.get "provider") (event.get "model") &&
      (event.get "history_id").equal c.head.toLua)
    (.rejected "stale_notice_binding" [])
  require ((event.get "expected_watermark").rawEq (.num c.lastSequence))
    (.rejected "stale_context_watermark" [])
  require (["milestone_percent","measured_percent","total_tokens","regular_window"].all
        (fun key => finite (event.get key)) &&
      !numLe (event.get "regular_window") (.num (.int 0)) &&
      !numLt (event.get "total_tokens") (.num (.int 0)))
    (.rejected "invalid_notice_data" [])
  require (!c.noticeById.any fun notice => noticePending c event notice.2)
    (.rejected "notice_pending" [])
  match c.findMessage (.str messageId) with
  | some m =>
    require (decide (m.2.role = .system ∧ m.2.status = .completed) && c.onHead m.2.historyId)
      (.rejected "invalid_notice_message" [])
    update (recordNotice event noticeId m.2.historyId)
  | none =>
    require (event.get "text").nonempty (.rejected "invalid_notice_text" [])
    match HistoryPath.allocate c.head c.historyChildMax with
    | .error e => fail (.rejected e.code [])
    | .ok allocated =>
      update fun c => recordNotice event noticeId allocated
        ((takeChild allocated c).pushMessage (noticeMessage event messageId allocated))

/-- The binding, request and watermark checks shared by inclusion and delivery. -/
def evidenceChecks (delivered : Bool) (event : Fields) :
    Action Conversation Fault (String × Fields × String) := do
  let c ← read
  let stale : Fault := .rejected "stale_notice_binding" []
  let id ← need (asId (event.get "notice_id")) stale
  let notice ← need (c.noticeById.lookup id) stale
  require ((event.get "epoch_id").rawEq (.str (currentEpoch c)) &&
      ["epoch_id","provider","model"].all (fun key => (notice.get key).rawEq (event.get key)) &&
      pairMatches c (event.get "provider") (event.get "model") &&
      HistoryPath.isPrefix (notice.get "history_id") c.head.toLua &&
      HistoryPath.isPrefix (event.get "history_id") c.head.toLua &&
      (delivered || (event.get "history_id").equal c.head.toLua)) stale
  let requestId ← need (asId (event.get "request_id")) (.rejected "invalid_request_id" [])
  let watermark := event.get "context_watermark"
  require (finite watermark && integral watermark && !numLt watermark (notice.get "sequence") &&
      !numLt (.num c.lastSequence) watermark)
    (.rejected "invalid_context_watermark" [])
  pure (id,notice,requestId)

/-- `(notice.inclusions or {})[event.request_id]`; the notice kept whatever `inclusions`
the event that appended it carried. -/
def findInclusion (notice : Fields) (requestId : String) : Except Fault LuaValue :=
  indexValue ((notice.get "inclusions").orElse (.table false [])) requestId

/-- The delivery branch: the inclusion must be the one that was acknowledged. -/
def deliverNotice (notice : Fields) (inclusion : LuaValue) (event : Fields) :
    Except Fault Fields := do
  let mismatch : Fault := .rejected "notice_request_mismatch" []
  if !inclusion.truthy then .error mismatch
  let watermark ← indexValue inclusion "context_watermark"
  if !watermark.rawEq (event.get "context_watermark") then .error mismatch
  let path ← indexValue inclusion "history_id"
  if !path.equal (event.get "history_id") then .error mismatch
  if (notice.get "delivered").truthy then .error (.rejected "notice_already_delivered" [])
  .ok (notice.set "delivered" (.bool true))

/-- The inclusion branch; assigning a field of a string raises. -/
def includeNotice (notice : Fields) (inclusion : LuaValue) (requestId : String)
    (event : Fields) (lastSequence : LuaNum) : Except Fault Fields := do
  if inclusion.truthy then .error (.rejected "notice_request_conflict" [])
  if !(event.get "context_watermark").rawEq (.num lastSequence) then
    .error (.rejected "stale_context_watermark" [])
  match (notice.get "inclusions").orElse (.table false []) with
  | .table marked es =>
    let inclusions := LuaValue.table marked (Fields.set es requestId (.table false event))
    let requests := (notice.get "request_ids").sequence ++ [.str requestId]
    .ok ((notice.set "inclusions" inclusions).set "request_ids" (.array requests))
  | v => .error (.raised ("attempt to index a " ++ v.typeName ++ " value"))

/-- The notice as an accepted inclusion or delivery leaves it. -/
def updateNotice (delivered : Bool) (notice : Fields) (requestId : String) (event : Fields)
    (lastSequence : LuaNum) : Except Fault Fields := do
  let inclusion ← findInclusion notice requestId
  if delivered then deliverNotice notice inclusion event
  else includeNotice notice inclusion requestId event lastSequence

/-- `notice_evidence`. -/
def noticeEvidence (delivered : Bool) (event : Fields) : Handler := do
  let (id,notice,requestId) ← evidenceChecks delivered event
  let c ← read
  match updateNotice delivered notice requestId event c.lastSequence with
  | .error e => fail e
  | .ok notice =>
    let recorded := ((event.set "milestone_percent" (notice.get "milestone_percent")).set
      "message_id" (notice.get "message_id")).set "request_ids" (notice.get "request_ids")
    update fun c => { c with
      noticeById := assign c.noticeById id notice
      noticeFacts := c.noticeFacts ++ [recorded] }

def contextNoticeIncluded (event : Fields) : Handler := noticeEvidence false event
def contextNoticeDelivered (event : Fields) : Handler := noticeEvidence true event

/-- `prefix_messages`: the closed messages of the model context, in order. -/
def prefixMessages (c : Conversation) : List Message :=
  c.messages.filter fun m =>
    c.onHead m.historyId && decide (m.status ≠ .opened ∧ m.visibility ≠ .discarded)

/-- `calls[key] = true`; a `nil` key raises. -/
def markCall (calls : List LuaValue) (key : LuaValue) : Except Fault (List LuaValue) :=
  if key.isNil then .error (.raised "index is nil") else .ok (calls ++ [key])

def markExchanges (c : Conversation) : List String → List LuaValue → Except Fault (List LuaValue)
  | [], calls => .ok calls
  | id :: rest, calls => match c.findExchange (.str id) with
    | none => .error (.raised "attempt to index a nil value")
    | some x => do
      let calls ← markCall calls x.2.toolCallId
      markExchanges c rest calls

/-- The tool calls left without an answer in a prefix of the context. -/
def openCalls (c : Conversation) : List Message → List LuaValue → Except Fault (List LuaValue)
  | [], calls => .ok calls
  | m :: rest, calls => do
    let calls ← markExchanges c m.exchangeIds calls
    let calls := if m.role = .tool then calls.filter fun id => !id.rawEq m.toolCallId else calls
    openCalls c rest calls

/-- `history_cutoff` as a count: a whole number from 0 to the length of the context. -/
def cutoffCount (cutoff : LuaValue) (limit : Nat) : Option Nat :=
  match cutoff with
  | .num n => do
    let q ← n.toRat
    if n.integral && decide (0 ≤ q ∧ q ≤ limit) then some q.num.toNat else none
  | _ => none

/-- The checks of `context_compaction_requested` before it looks at the prefix. -/
def requestChecks (event : Fields) : Handler := do
  requireLive event
  requireIds event ["request_id","provider","model","epoch_id"]
  let c ← read
  require (at? c.compactionById (event.get "request_id")).isNone
    (.rejected "compaction_request_conflict" [])
  requireNoPending c
  require ((event.get "epoch_id").rawEq (.str (currentEpoch c)) &&
      (event.get "history_id").equal c.head.toLua &&
      pairMatches c (event.get "provider") (event.get "model"))
    (.rejected "stale_compaction_binding" [])
  require ((event.get "context_watermark").rawEq (.num c.lastSequence))
    (.rejected "stale_context_watermark" [])
  let trigger := event.get "trigger"
  require (["manual","self","hard"].any fun t => trigger.rawEq (.str t))
    (.rejected "invalid_compaction_trigger" [])
  require (!trigger.rawEq (.str "self") || (event.get "tool_call_id").nonempty)
    (.rejected "invalid_tool_call_id" [])
  let options := event.get "provider_options"
  -- an array mark makes the table a list, which is not a set of options
  require (options.isNil || match options with | .table marked _ => !marked | _ => false)
    (.rejected "invalid_provider_options" [])

def contextCompactionRequested (event : Fields) : Handler := do
  requestChecks event
  let c ← read
  let all := prefixMessages c
  let cutoff ← need (cutoffCount (event.get "history_cutoff") all.length)
    (.rejected "invalid_history_cutoff" [])
  match openCalls c (all.take cutoff) [] with
  | .error e => fail e
  | .ok calls =>
    require calls.isEmpty (.rejected "unsafe_history_cutoff" [])
    let requestId := (asId (event.get "request_id")).getD ""
    update fun c => { c with
      compactions := c.compactions ++ [{
        requestId := requestId
        conversationId := c.id
        status := .pending
        historyCutoff := event.get "history_cutoff"
        historyId := c.head
        epochId := (asId (event.get "epoch_id")).getD ""
        contextWatermark := event.get "context_watermark"
        trigger := event.get "trigger"
        toolCallId := event.get "tool_call_id"
        requestedSequence := event.get "sequence"
        provider := (asId (event.get "provider")).getD ""
        model := (asId (event.get "model")).getD ""
        providerOptions := event.get "provider_options" }]
      compactionById := assign c.compactionById requestId c.compactions.length }

/-- The pending operation that an outcome names, still bound to the current branch. -/
def requirePendingOp (c : Conversation) (event : Fields) :
    Action Conversation Fault (Nat × Compaction) := do
  let op ← need (c.findCompaction (event.get "request_id"))
    (.rejected "compaction_request_not_found" [])
  require (decide (op.2.status = .pending)) (.rejected "compaction_request_terminal" [])
  require ((event.get "epoch_id").rawEq (.str op.2.epochId) &&
      (event.get "history_id").equal op.2.historyId.toLua &&
      (event.get "provider").rawEq (.str op.2.provider) &&
      (event.get "model").rawEq (.str op.2.model) &&
      decide (currentEpoch c = op.2.epochId) && c.onHead op.2.historyId)
    (.rejected "stale_compaction_binding" [])
  pure op

def contextCompactionCompleted (event : Fields) : Handler := do
  let c ← read
  let op ← requirePendingOp c event
  let cp := event.get "checkpoint"
  let compatible := event.get "compatibility"
  require (cp.isTable && (cp.get "provider").rawEq (.str op.2.provider) &&
      (cp.get "model").rawEq (.str op.2.model) && (cp.get "format").nonempty &&
      !(cp.get "artifact").isNil && compatible.isTable &&
      ["provider","model","format"].all fun key => (compatible.get key).rawEq (cp.get key))
    (.rejected "invalid_checkpoint" [])
  let usage := event.get "optional_usage"
  require (usage.isNil || isMeasurement usage) (.rejected "invalid_response_usage" [])
  update fun c => c.modifyCompaction op.1 fun op => { op with
    checkpoint := cp
    compatibility := compatible
    optionalUsage := usage
    status := .completed
    terminalSequence := event.get "sequence" }

def contextCompactionFailed (event : Fields) : Handler := do
  let c ← read
  let op ← requirePendingOp c event
  let error := event.get "error"
  require (error.isTable && (error.get "code").nonempty && (error.get "message").typeName == "string")
    (.rejected "invalid_compaction_error" [])
  update fun c => c.modifyCompaction op.1 fun op => { op with
    error := error
    status := .failed
    terminalSequence := event.get "sequence" }

def terminate (status : ConversationStatus) (event : Fields) : Handler := do
  requireLive event
  let c ← read
  require (decide (status ≠ .completed ∨ c.openMessages = 0))
    (.rejected "open_message_at_completion" [("open_messages",.num (.int c.openMessages))])
  require (decide (status ≠ .completed ∨ c.openExchanges = 0))
    (.rejected "open_exchange_at_completion" [("open_exchanges",.num (.int c.openExchanges))])
  update fun c => { c with
    status := status
    terminal := (event.get "detail").orElse (.table false []) }

def conversationCompleted (event : Fields) : Handler := terminate .completed event
def conversationInterrupted (event : Fields) : Handler := terminate .interrupted event
def conversationFailed (event : Fields) : Handler := terminate .failed event

def activeSelected (_ : Fields) : Handler := pure ()

/-- The events that act on an existing conversation and leave the event as it is. -/
inductive Kind
  | responseUsageRecorded | provenanceUpdated | contentChunkAppended
  | toolExchangeStarted | toolCallFragmentAppended | toolCallCompleted
  | toolResultRecorded | toolErrorRecorded | messageCompleted | messageInterrupted
  | retryStarted | turnStarted | turnCompleted | turnFailed | turnInterrupted
  | rewindCommitted | contextNoticeAppended | contextNoticeIncluded | contextNoticeDelivered
  | contextCompactionRequested | contextCompactionCompleted | contextCompactionFailed
  | conversationCompleted | conversationInterrupted | conversationFailed | activeSelected
  deriving DecidableEq, Repr

/-- The names under which `handlers` holds them. -/
def Kind.ofName : String → Option Kind
  | "response_usage_recorded" => some .responseUsageRecorded
  | "provenance_updated" => some .provenanceUpdated
  | "content_chunk_appended" => some .contentChunkAppended
  | "tool_exchange_started" => some .toolExchangeStarted
  | "tool_call_fragment_appended" => some .toolCallFragmentAppended
  | "tool_call_completed" => some .toolCallCompleted
  | "tool_result_recorded" => some .toolResultRecorded
  | "tool_error_recorded" => some .toolErrorRecorded
  | "message_completed" => some .messageCompleted
  | "message_interrupted" => some .messageInterrupted
  | "retry_started" => some .retryStarted
  | "turn_started" => some .turnStarted
  | "turn_completed" => some .turnCompleted
  | "turn_failed" => some .turnFailed
  | "turn_interrupted" => some .turnInterrupted
  | "rewind_committed" => some .rewindCommitted
  | "context_notice_appended" => some .contextNoticeAppended
  | "context_notice_included" => some .contextNoticeIncluded
  | "context_notice_delivered" => some .contextNoticeDelivered
  | "context_compaction_requested" => some .contextCompactionRequested
  | "context_compaction_completed" => some .contextCompactionCompleted
  | "context_compaction_failed" => some .contextCompactionFailed
  | "conversation_completed" => some .conversationCompleted
  | "conversation_interrupted" => some .conversationInterrupted
  | "conversation_failed" => some .conversationFailed
  | "active_selected" => some .activeSelected
  | _ => none

def Kind.handler : Kind → Fields → Handler
  | .responseUsageRecorded => ConversationManager.responseUsageRecorded
  | .provenanceUpdated => ConversationManager.provenanceUpdated
  | .contentChunkAppended => ConversationManager.contentChunkAppended
  | .toolExchangeStarted => ConversationManager.toolExchangeStarted
  | .toolCallFragmentAppended => ConversationManager.toolCallFragmentAppended
  | .toolCallCompleted => ConversationManager.toolCallCompleted
  | .toolResultRecorded => ConversationManager.toolResultRecorded
  | .toolErrorRecorded => ConversationManager.toolErrorRecorded
  | .messageCompleted => ConversationManager.messageCompleted
  | .messageInterrupted => ConversationManager.messageInterrupted
  | .retryStarted => ConversationManager.retryStarted
  | .turnStarted => ConversationManager.turnStarted
  | .turnCompleted => ConversationManager.turnCompleted
  | .turnFailed => ConversationManager.turnFailed
  | .turnInterrupted => ConversationManager.turnInterrupted
  | .rewindCommitted => ConversationManager.rewindCommitted
  | .contextNoticeAppended => ConversationManager.contextNoticeAppended
  | .contextNoticeIncluded => ConversationManager.contextNoticeIncluded
  | .contextNoticeDelivered => ConversationManager.contextNoticeDelivered
  | .contextCompactionRequested => ConversationManager.contextCompactionRequested
  | .contextCompactionCompleted => ConversationManager.contextCompactionCompleted
  | .contextCompactionFailed => ConversationManager.contextCompactionFailed
  | .conversationCompleted => ConversationManager.conversationCompleted
  | .conversationInterrupted => ConversationManager.conversationInterrupted
  | .conversationFailed => ConversationManager.conversationFailed
  | .activeSelected => ConversationManager.activeSelected

/-- How `fold` treats an event, decided by its kind. -/
inductive Dispatch
  | created
  | messageStarted
  | other (kind : Kind)
  deriving DecidableEq, Repr

def dispatch : LuaValue → Option Dispatch
  | .str "created" => some .created
  | .str "message_started" => some .messageStarted
  | .str name => (Kind.ofName name).map .other
  | _ => none

/-- The checks of `fold` that need no conversation. -/
def eventChecks (event : Fields) : Except Fault Dispatch := do
  if !(event.get "event_id").nonempty then
    .error (.rejected "invalid_event_id" [("kind",event.get "kind")])
  if !(event.get "conversation_id").nonempty then
    .error (.rejected "invalid_conversation_id" [("kind",event.get "kind")])
  let sequence := event.get "sequence"
  if !integral sequence || numLt sequence (.num (.int 1)) then
    .error (.rejected "invalid_sequence" [("sequence",sequence)])
  match dispatch (event.get "kind") with
  | none => .error (.rejected "unknown_event_kind" [("kind",event.get "kind")])
  | some d => .ok d

/-- The checks of `fold` against the conversation that the event continues. -/
def continuationChecks (c : Conversation) (event : Fields) : Except Fault Unit := do
  if !(event.get "conversation_id").rawEq (.str c.id) then
    .error (.rejected "conversation_id_mismatch"
      [("expected",.str c.id),("actual",event.get "conversation_id")])
  if !(event.get "sequence").rawEq (.num c.lastSequence.succ) then
    .error (.rejected "noncontiguous_sequence" [("conversation_id",.str c.id),
      ("expected",.num c.lastSequence.succ),("actual",event.get "sequence")])
  let turnId := event.get "turn_id"
  if turnId.truthy && !(event.get "kind").rawEq (.str "turn_started") then
    match c.findTurn turnId with
    | none => .error (.rejected "turn_not_found" [("turn_id",turnId)])
    | some t => do
      let runId := event.get "run_id"
      if !runId.isNil && !runId.rawEq (.str t.2.runId) then
        .error (.rejected "turn_run_mismatch"
          [("turn_id",.str t.2.id),("expected",.str t.2.runId),("actual",runId)])
      let actorId := event.get "actor_id"
      if !actorId.isNil && !t.2.actorId.isNil && !actorId.rawEq t.2.actorId then
        .error (.rejected "turn_actor_mismatch"
          [("turn_id",.str t.2.id),("expected",t.2.actorId),("actual",actorId)])

/-- `folded.last_sequence = event.sequence`. -/
def stamp (event : Fields) (c : Conversation) : Conversation :=
  match event.get "sequence" with
  | .num n => { c with lastSequence := n }
  | _ => c

/-- `M.fold` on an existing conversation: the event as the handler leaves it, and the
conversation table as the call leaves it. -/
def foldInto (event : Fields) (d : Dispatch) : Action Conversation Fault Fields := do
  let c ← read
  match continuationChecks c event with
  | .error e => fail e
  | .ok _ =>
    match d with
    | .created => fail (.rejected "created_more_than_once"
        [("conversation_id",event.get "conversation_id")])
    | .messageStarted =>
      let event' ← messageStarted event
      update (stamp event)
      pure event'
    | .other kind =>
      kind.handler event
      update (stamp event)
      pure event

/-- `M.fold`. -/
def fold (conversation : Option Conversation) (event : Fields) :
    Except Fault Fields × Option Conversation :=
  match eventChecks event with
  | .error e => (.error e,conversation)
  | .ok d =>
    match conversation with
    | some c =>
      let r := foldInto event d c
      (r.1,some r.2)
    | none =>
      if d = .created then
        match created none event with
        | .ok c => (.ok event,some (stamp event c))
        | .error e => (.error e,none)
      else (.error (.rejected "created_required"
        [("conversation_id",event.get "conversation_id"),("kind",event.get "kind")]),none)

end Nefor.ConversationManager
