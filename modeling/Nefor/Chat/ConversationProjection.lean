import Nefor.ConversationManager.Projection

/-! The reducer of the chat surface (`chat/conversation_projection.lua`). It follows the active
conversation by the change of every event, and starts over from a snapshot or a rewind. Beside
its state it returns the actions with which the surface redraws. -/
namespace Nefor.Chat
open Nefor.Lua Nefor.ConversationManager

/-- A table that is keyed by whatever a message or an exchange carries as its id. -/
abbrev LuaMap := List (LuaValue × LuaValue)

namespace LuaMap

/-- `map[key]`. -/
def find (map : LuaMap) (key : LuaValue) : LuaValue :=
  match map with
  | [] => .nil
  | (k,v) :: rest => if k.rawEq key then v else find rest key

def put (map : LuaMap) (key value : LuaValue) : LuaMap := (key,value) :: map

/-- `map[key] = value`, where the key may be missing. -/
def assign (map : LuaMap) (key value : LuaValue) : Except Fault LuaMap :=
  if key.isNil then .error (.raised "index is nil") else .ok (put map key value)

end LuaMap

/-- What the reducer keeps of a message. -/
structure Recorded where
  role : LuaValue := .nil
  turnId : LuaValue := .nil
  authoredPrompt : LuaValue := .nil
  displayText : LuaValue := .nil
  visibility : LuaValue := .nil
  streamed : Bool := false

/-- The state of the reducer; `initial(active_conversation_id)`. -/
structure Projection where
  activeConversationId : Option String := none
  messages : List (String × Recorded) := []
  exchanges : LuaMap := []
  turnText : LuaMap := []
  userPrompts : List LuaValue := []
  historyHead : LuaValue := .array []
  pendingEdit : LuaValue := .nil

/-- A state under reduction, with the actions so far. -/
structure Surface where
  state : Projection
  actions : List LuaValue := []

/-- `action(actions, kind, fields)`. -/
def Surface.action (s : Surface) (kind : String) (fields : List (String × LuaValue)) : Surface :=
  { s with actions := s.actions ++ [.record (("kind",.str kind) :: fields)] }

/-- `ipairs(value or {})`. -/
def elements (value : LuaValue) : Except Fault (List LuaValue) :=
  match value.orElse (.table false []) with
  | .table marked es => .ok (LuaValue.table marked es).sequence
  | .str _ => .ok []
  | v => .error (.raised ("attempt to index a " ++ v.typeName ++ " value"))

/-- `terminal_text`. -/
def terminalText (terminal : LuaValue) : LuaValue :=
  match terminal.get "error",terminal.get "message",terminal.get "reason" with
  | .str e,_,_ => .str e
  | _,.str m,_ => .str m
  | _,_,.str r => .str r
  | _,_,_ => .nil

def hiddenVisibility (visibility : LuaValue) : Bool :=
  visibility.rawEq (.str "diagnostic") || visibility.rawEq (.str "discarded")

/-- `hidden`: model context or audit, never a message on a surface. -/
def hidden (message : LuaValue) : Bool :=
  message.isTable && hiddenVisibility (message.get "visibility")

/-- `record_message`. -/
def recordMessage (message : LuaValue) (state : Projection) : Projection :=
  match message.isTable,message.get "id" with
  | true,.str id =>
    let previous := (state.messages.lookup id).getD {}
    let state := { state with messages := assign state.messages id {
      role := message.get "role"
      turnId := message.get "turn_id"
      authoredPrompt := (message.get "authored_prompt").orElse previous.authoredPrompt
      displayText := (message.get "display_text").orElse previous.displayText
      visibility := ((message.get "visibility").orElse previous.visibility).orElse (.str "transcript")
      streamed := previous.streamed } }
    if (message.get "history_id").isTable then { state with historyHead := message.get "history_id" }
    else state
  | _,_ => state

/-- The record of the message, if it has one. -/
def recorded (message : LuaValue) (state : Projection) : Option Recorded :=
  at? state.messages ((message.get "id").orElse (.str ""))

/-- `settle_hidden`: whether the fact that ends a message hides it, which retracts what was
streamed of it. -/
def settleHidden (message : LuaValue) (s : Surface) : Bool × Surface :=
  let wasStreamed := ((recorded message s.state).map (·.streamed)).getD false
  let s := { s with state := recordMessage message s.state }
  if !hidden message then (false,s)
  else (true,if wasStreamed then s.action "message_discarded"
    [("message_id",message.get "id"),("turn_id",message.get "turn_id")] else s)

/-- `exchange_arguments`. -/
def exchangeArguments (exchange : LuaValue) : LuaValue :=
  let arguments := exchange.get "arguments"
  if arguments.isTable then
    ((arguments.get "arguments").orElse (arguments.get "args")).orElse arguments
  else arguments.orElse (.table false [])

/-- `remember_user_prompt`. -/
def rememberUserPrompt (message : LuaValue) (state : Projection) : Projection :=
  if !(message.get "history_id").isTable || !(message.get "status").rawEq (.str "completed") ||
      !((message.get "visibility").orElse (.str "transcript")).rawEq (.str "transcript") then state
  else match authoredText message with
    | none => state
    | some text => { state with userPrompts := state.userPrompts ++
        [.record [("history_id",message.get "history_id"),("text",.str text)]] }

/-- A message that a person wrote, not the notice of an asynchronous completion. -/
def fromUser (message : LuaValue) : Bool :=
  (message.get "role").rawEq (.str "user") &&
    !(message.get "input_cause").rawEq (.str "internal_async_completion")

section Messages
variable (encode : LuaValue → Option String)

/-- `visible_text`. -/
def visibleText (message : LuaValue) : String :=
  let text := displayText encode message
  if text ≠ "" then text
  else match message.get "display_text" with
    | .str text => text
    | _ => ""

def messageAction (message : LuaValue) (text : String) (s : Surface) : Surface :=
  s.action "message" [("role",message.get "role"),("text",.str text),("message_id",message.get "id"),
    ("turn_id",message.get "turn_id"),("submission_ids",message.get "submission_ids")]

def assistantCompleted (message : LuaValue) (s : Surface) : Surface :=
  s.action "assistant_completed" [("text",(message.get "text").orElse (.str "")),
    ("message_id",message.get "id"),("turn_id",message.get "turn_id"),
    ("terminal",message.get "terminal")]

/-- `message_completed`. -/
def messageCompleted (message : LuaValue) (s : Surface) : Surface :=
  let (hides,s) := settleHidden message s
  if hides || !message.isTable then s
  else if fromUser message then
    let text := visibleText encode message
    let text := match text,(recorded message s.state).map (·.displayText) with
      | "",some (.str shown) => shown
      | text,_ => text
    messageAction message text { s with state := rememberUserPrompt message s.state }
  else if (message.get "role").rawEq (.str "assistant") then assistantCompleted message s
  else s

/-- What the snapshot looks up while it replays its messages. -/
structure Lookup where
  exchangeById : LuaMap := []
  exchangeByCallId : LuaMap := []
  toolMessageByCallId : List String := []

def Lookup.addExchange (lookup : Lookup) (exchange : LuaValue) : Except Fault Lookup := do
  let id ← indexValue exchange "id"
  let exchangeById ← lookup.exchangeById.assign id exchange
  let lookup := { lookup with exchangeById := exchangeById }
  match exchange.get "tool_call_id" with
  | .str call => .ok { lookup with
      exchangeByCallId := lookup.exchangeByCallId.put (.str call) exchange }
  | _ => .ok lookup

def Lookup.addMessage (lookup : Lookup) (message : LuaValue) : Except Fault Lookup := do
  let role ← indexValue message "role"
  match role.rawEq (.str "tool"),message.get "tool_call_id" with
  | true,.str call => .ok { lookup with toolMessageByCallId := call :: lookup.toolMessageByCallId }
  | _,_ => .ok lookup

/-- `exchange_by_id[call.id] or exchange_by_call_id[call.id]`. -/
def Lookup.exchange (lookup : Lookup) (call : LuaValue) : LuaValue :=
  (lookup.exchangeById.find (call.get "id")).orElse (lookup.exchangeByCallId.find (call.get "id"))

/-- `complete_exchange`. -/
def completeExchange (exchange : LuaValue) (s : Surface) : Surface :=
  let isError := (exchange.get "status").rawEq (.str "error")
  if !exchange.isTable || !(isError || (exchange.get "status").rawEq (.str "result")) then s
  else s.action "tool_completed" [("exchange_id",exchange.get "id"),
    ("output",if isError then exchange.get "error" else exchange.get "result"),
    ("error",.bool isError),("completion_delivery",exchange.get "completion_delivery")]

/-- The start of one call of an assistant message. -/
def replayCall (lookup : Lookup) (message : LuaValue) (s : Surface) (call : LuaValue) :
    Except Fault Surface := do
  let callId ← indexValue call "id"
  let exchange := lookup.exchange call
  let exchangeId := if exchange.truthy then (exchange.get "id").orElse callId else callId
  let exchanges ← s.state.exchanges.assign exchangeId (call.get "status")
  .ok ({ s with state := { s.state with exchanges := exchanges } }.action "tool_started"
    [("exchange_id",exchangeId),("name",call.get "name"),
      ("arguments",exchangeArguments (exchange.orElse call)),("turn_id",message.get "turn_id")])

/-- The end of a call that no tool message of the snapshot carries. -/
def completeCall (lookup : Lookup) (s : Surface) (call : LuaValue) : Surface :=
  let exchange := lookup.exchange call
  match exchange.get "tool_call_id" with
  | .str id => if id ∈ lookup.toolMessageByCallId then s else completeExchange exchange s
  | _ => completeExchange exchange s

/-- The reasoning and the text of an assistant message, as one piece each. -/
def replayText (message : LuaValue) (s : Surface) : Surface :=
  let piece (text : LuaValue) := [("text",text),("message_id",message.get "id"),
    ("turn_id",message.get "turn_id")]
  let s := if (message.get "reasoning").nonempty then
      s.action "reasoning_delta" (piece (message.get "reasoning")) else s
  if (message.get "text").nonempty then
    let s := s.action "text_delta" (piece (message.get "text"))
    if (message.get "turn_id").isNil then s
    else { s with state := { s.state with
      turnText := s.state.turnText.put (message.get "turn_id") (message.get "text") } }
  else s

def replayAssistant (lookup : Lookup) (message : LuaValue) (s : Surface) : Except Fault Surface := do
  let calls ← elements (message.get "tool_calls")
  let s ← calls.foldlM (replayCall lookup message) (replayText message s)
  .ok (calls.foldl (completeCall lookup) (assistantCompleted message s))

/-- One message of the snapshot. -/
def replayMessage (lookup : Lookup) (s : Surface) (message : LuaValue) : Except Fault Surface :=
  let s := { s with state := recordMessage message s.state }
  if hidden message then .ok s
  else if (message.get "role").rawEq (.str "assistant") then replayAssistant lookup message s
  else if fromUser message then
    .ok (messageAction message (visibleText encode message)
      { s with state := rememberUserPrompt message s.state })
  else if (message.get "role").rawEq (.str "tool") then
    .ok (completeExchange (lookup.exchangeByCallId.find (message.get "tool_call_id")) s)
  else .ok s

def restoreTurn (s : Surface) (turn : LuaValue) : Except Fault Surface := do
  let status ← indexValue turn "status"
  .ok (if status.rawEq (.str "open") then s else s.action "turn_restored" [("turn_id",turn.get "id"),
    ("run_id",turn.get "run_id"),("status",status),("terminal",turn.get "terminal")])

/-- `"compaction_" .. compaction.status`. -/
def restoreCompaction (s : Surface) (compaction : LuaValue) : Except Fault Surface := do
  let status ← indexValue compaction "status"
  match status with
  | .str status => .ok (s.action ("compaction_" ++ status) [("compaction",compaction)])
  | .num status => .ok (s.action ("compaction_" ++ status.text) [("compaction",compaction)])
  | v => .error (.raised ("attempt to concatenate a " ++ v.typeName ++ " value"))

/-- `snapshot_actions`. -/
def snapshotActions (projection : LuaValue) (s : Surface) : Except Fault Surface := do
  let s : Surface := { s with state := {
    activeConversationId := s.state.activeConversationId
    historyHead := (projection.get "history_head").orElse (.array [])
    pendingEdit := projection.get "pending_edit" } }
  let s := s.action "snapshot_reset" []
  let exchanges ← elements (projection.get "exchanges")
  let messages ← elements (projection.get "messages")
  let lookup ← exchanges.foldlM Lookup.addExchange {}
  let lookup ← messages.foldlM Lookup.addMessage lookup
  let s ← messages.foldlM (replayMessage encode lookup) s
  let turns ← elements (projection.get "turns")
  let s ← turns.foldlM restoreTurn s
  let compactions ← elements (projection.get "compactions")
  let s ← compactions.foldlM restoreCompaction s
  let s := s.action "response_usage_restored" [("response_usage",projection.get "response_usage")]
  .ok (if (projection.get "pending_edit").isTable then
    s.action "rewind_restored" [("pending_edit",projection.get "pending_edit")] else s)

end Messages

section Reduce
variable (encode : LuaValue → Option String)

/-- The change of a `message_started`: an edit is over as soon as a user message starts. -/
def messageStarted (change : LuaValue) (s : Surface) : Surface :=
  let message := change.get "message"
  let clearsRewind := !s.state.pendingEdit.isNil && message.isTable &&
    (message.get "role").rawEq (.str "user")
  let s := { s with state := recordMessage message s.state }
  if clearsRewind then
    { s with state := { s.state with pendingEdit := .nil } }.action "rewind_cleared" []
  else s

def recordChunk (id : String) (m : Recorded) (s : Surface) : Surface :=
  { s with state := { s.state with messages := assign s.state.messages id m } }

/-- A structured chunk gives a user message its text to display; the strings of an assistant
message are streamed. -/
def contentChunkAppended (change : LuaValue) (s : Surface) : Surface :=
  let chunk := change.get "chunk"
  match change.get "message_id",at? s.state.messages (change.get "message_id") with
  | .str id,some m =>
    if hiddenVisibility m.visibility then s
    else if m.role.rawEq (.str "user") && chunk.isTable &&
        (chunk.get "kind").rawEq (.str "structured") && m.displayText.isNil then
      recordChunk id { m with displayText := .str (displayText encode (.record [("role",.str "user"),
        ("authored_prompt",m.authoredPrompt),("structured",.array [chunk.get "data"])])) } s
    else match m.role.rawEq (.str "assistant") && chunk.isTable,chunk.get "data" with
      | true,.str data =>
        if data = "" then s
        else
          let s := recordChunk id { m with streamed := true } s
          let piece := [("text",.str data),("message_id",.str id),("turn_id",m.turnId)]
          if (chunk.get "kind").rawEq (.str "text") then
            let text := match s.state.turnText.find m.turnId with
              | .str before => before ++ data
              | _ => data
            let s := if m.turnId.isNil then s
              else { s with state := { s.state with
                turnText := s.state.turnText.put m.turnId (.str text) } }
            s.action "text_delta" piece
          else if (chunk.get "kind").rawEq (.str "reasoning") then s.action "reasoning_delta" piece
          else s
      | _,_ => s
  | _,_ => s

def messageInterrupted (change : LuaValue) (s : Surface) : Surface :=
  let (hides,s) := settleHidden (change.get "message") s
  if hides then s
  else s.action "message_interrupted"
    [("message",change.get "message"),("turn_id",change.get "turn_id")]

/-- `change.exchange or {}`, with its status noted under its id. -/
def noteExchange (change : LuaValue) (s : Surface) : Except Fault (LuaValue × Surface) := do
  let exchange := (change.get "exchange").orElse (.table false [])
  let id ← indexValue exchange "id"
  let exchanges ← s.state.exchanges.assign id (exchange.get "status")
  .ok (exchange,{ s with state := { s.state with exchanges := exchanges } })

def toolStarted (change : LuaValue) (s : Surface) : Except Fault Surface := do
  let (exchange,s) ← noteExchange change s
  .ok (s.action "tool_started" [("exchange_id",exchange.get "id"),("name",exchange.get "name"),
    ("arguments",exchangeArguments exchange),("turn_id",change.get "turn_id")])

def toolCompleted (isError : Bool) (change : LuaValue) (s : Surface) : Except Fault Surface := do
  let (exchange,s) ← noteExchange change s
  .ok (s.action "tool_completed" [("exchange_id",exchange.get "id"),
    ("output",if isError then exchange.get "error" else exchange.get "result"),
    ("error",.bool isError),("completion_delivery",exchange.get "completion_delivery"),
    ("turn_id",change.get "turn_id")])

def turnEnded (kind : String) (change : LuaValue) (s : Surface) : Surface :=
  s.action kind [("turn_id",change.get "turn_id"),("run_id",change.get "run_id"),
    ("terminal",change.get "terminal"),("answer",s.state.turnText.find (change.get "turn_id"))]

def conversationEnded (kind : String) (change : LuaValue) (s : Surface) : Surface :=
  s.action kind [("terminal",change.get "terminal"),
    ("message",terminalText (change.get "terminal"))]

/-- The change of one event. -/
def reduceChange (change : LuaValue) (s : Surface) : Except Fault Surface :=
  match change.get "kind" with
  | .str "rewind_committed" => if (change.get "projection").isTable then
      snapshotActions encode (change.get "projection") s else .ok s
  | .str "conversation_created" => .ok (s.action "conversation_created"
      [("conversation_id",match s.state.activeConversationId with | some id => .str id | none => .nil)])
  | .str "turn_started" => .ok (s.action "turn_started"
      [("turn_id",change.get "turn_id"),("run_id",change.get "run_id")])
  | .str "message_started" => .ok (messageStarted change s)
  | .str "content_chunk_appended" => .ok (contentChunkAppended encode change s)
  | .str "message_completed" => .ok (messageCompleted encode (change.get "message") s)
  | .str "message_interrupted" => .ok (messageInterrupted change s)
  | .str "tool_exchange_started" => toolStarted change s
  | .str "tool_call_completed" => toolStarted change s
  | .str "tool_result_recorded" => toolCompleted false change s
  | .str "tool_error_recorded" => toolCompleted true change s
  | .str "retry_started" => .ok (s.action "retry_started"
      [("retry",change.get "retry"),("turn_id",change.get "turn_id")])
  | .str "turn_completed" => .ok (turnEnded "turn_completed" change s)
  | .str "turn_failed" => .ok (turnEnded "turn_failed" change s)
  | .str "turn_interrupted" => .ok (turnEnded "turn_interrupted" change s)
  | .str "response_usage_recorded" => .ok (s.action "response_usage_updated"
      [("response_usage",change.get "response_usage")])
  | .str "context_compaction_pending" => .ok (s.action "compaction_pending"
      [("compaction",change.get "compaction")])
  | .str "context_compaction_completed" => .ok (s.action "compaction_completed"
      [("compaction",change.get "compaction")])
  | .str "context_compaction_failed" => .ok (s.action "compaction_failed"
      [("compaction",change.get "compaction")])
  | .str "conversation_interrupted" => .ok (conversationEnded "conversation_interrupted" change s)
  | .str "conversation_failed" => .ok (conversationEnded "conversation_failed" change s)
  | _ => .ok s

/-- The event that makes another conversation the active one, or none. -/
def activeChanged (previous : Projection) (body : LuaValue) : Projection × List LuaValue :=
  match asId (body.get "conversation_id") with
  | none => ({},[.record [("kind",.str "active_cleared")]])
  | some id => if previous.activeConversationId = some id then (previous,[])
    else ({ activeConversationId := some id },
      [.record [("kind",.str "active_changed"),("conversation_id",.str id)]])

/-- `M.reduce`. -/
def reduce (previous : Projection) (body : LuaValue) : Except Fault (Projection × List LuaValue) :=
  let done (s : Surface) := (s.state,s.actions)
  if !body.isTable then .ok (previous,[])
  else if (body.get "kind").rawEq (.str "conversation.active.changed") then
    .ok (activeChanged previous body)
  else if !previous.activeConversationId.any fun id => (body.get "conversation_id").rawEq (.str id)
    then .ok (previous,[])
  else if (body.get "kind").rawEq (.str "conversation.snapshot") then
    if (body.get "found").rawEq (.bool true) && (body.get "projection").isTable then
      (snapshotActions encode (body.get "projection") ⟨previous,[]⟩).map done
    else .ok (previous,[])
  else if !(body.get "kind").rawEq (.str "conversation.projection.delta") ||
      !(body.get "change").isTable then .ok (previous,[])
  else (reduceChange encode (body.get "change") ⟨previous,[]⟩).map done

end Reduce
end Nefor.Chat
