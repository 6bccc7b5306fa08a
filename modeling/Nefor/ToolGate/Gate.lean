import Nefor.Action
import Nefor.ToolGate.Frames

/-! The gate as it handles its events one after another. Whether a frame is admitted to the wire
depends on its size and on the writer, so the link may answer anything to any frame. -/
namespace Nefor.ToolGate
open Json (Object)

/-- Why a frame was not sent. A refusal concerns this frame only. -/
inductive TransportError
  | frameTooLarge
  | invalidFraming
  | writerClosed
  | fault
  deriving DecidableEq, Repr

def TransportError.refusal : TransportError → Bool
  | frameTooLarge => true
  | invalidFraming => true
  | _ => false

/-- What the gate heard and what it tried to send, in order. -/
inductive Entry
  | heard (body : Object)
  | sent (frame : Frame) (outcome : Option TransportError)

/-- The outcome of sending a frame after everything that happened before. -/
abbrev Link := List Entry → Object → Option TransportError

structure Session where
  state : GateState
  history : List Entry := []
  /-- The ending of the gate, once it has ended. -/
  ended : Option (Except TransportError Unit) := none

abbrev Handler (α : Type) := Action Session TransportError α

def field (body : Object) (key : String) : Option String := (body.get key).bind Json.asStr

/-! Decisions of the gate that only look. -/

def malformedToolNameList (field : String) : String :=
  "tool.invoke field `" ++ field ++ "` must be an array containing only tool-name strings"

def toolNameList (body : Object) (key : String) : Except String (Option (List String)) :=
  match body.get key with
  | none => .ok none
  | some (.array values) => match values.mapM Json.asStr with
    | some names => .ok (some names)
    | none => .error (malformedToolNameList key)
  | some _ => .error (malformedToolNameList key)

/-- The tools the caller of one invocation can call, in the order its model was offered them. -/
def availableTools (s : GateState) (allowlist : Option (List String))
    (requestLocalTools : List String) : List String :=
  let offered := match allowlist with
    | some names => names.foldl (fun available name =>
        if name ∈ s.toolOwner ∧ name ∉ available then available ++ [name] else available) []
    | none => s.toolOwner.keys.mergeSort (· ≤ ·)
  requestLocalTools.foldl (fun available name =>
    if name ∉ available then available ++ [name] else available) offered

def unknownToolMessage (name : String) (available : List String) : String :=
  if available = [] then "unknown tool `" ++ name ++ "`; no tools are available"
  else "unknown tool `" ++ name ++ "`; available tools: " ++ String.intercalate ", " available

/-- The error a caller receives for a call the gate decided not to run. -/
def denialMessage (name : String) (policy : ApprovalPolicy) (reason : String) : String :=
  match policy with
  | .readOnly => "tool `" ++ name ++ "` was not run: your approval policy is ReadOnly and " ++ reason
  | .default => "tool `" ++ name ++ "` was not run: " ++ reason

/-- What becomes of an invocation before anything is sent for it. -/
inductive Admission
  | dropped
  | rejected (outerId message : String)
  | admitted (call : PendingApproval)

/-- The checks of an invocation. An admitted call carries the next inner id. -/
def admission (s : GateState) (body : Object) : Admission :=
  match field body "id" with
  | none => .dropped
  | some outerId =>
  match field body "name" with
  | none => .rejected outerId "tool-gate.tool.invoke missing required string field `name`"
  | some name =>
  let args := (body.get "args").getD (.object [])
  match toolNameList body "allowlist" with
  | .error message => .rejected outerId message
  | .ok allowedNames =>
  let allowlist := ((body.get "allowlist").bind Json.asArray).map Json.array
  match toolNameList body "request_local_tools" with
  | .error message => .rejected outerId message
  | .ok requestLocalTools =>
  let allowed := allowedNames.all fun names => name ∈ names
  match (s.toolOwner.lookup name).filter fun _ => allowed with
  | none => .rejected outerId
      (unknownToolMessage name (availableTools s allowedNames (requestLocalTools.getD [])))
  | some source =>
  match s.toolExecution.lookup name with
  | some (.providerNative provider) => .rejected outerId
      ("tool `" ++ name ++ "` is provider-native to `" ++ provider ++
        "` and cannot be invoked through tool-gate")
  | _ =>
  let call (policy : Option ApprovalPolicy) : PendingApproval := {
    outerId, innerId := innerId (s.innerIdCounter+1), source, name, args
    invokingFrom := field body "from"
    invocation := body.get "invocation"
    allowlist
    approvalPolicy := policy }
  match body.get "workflow_node" with
  | some (.bool true) =>
    if (body.get "approval_policy").isSome then .rejected outerId
      "tool.invoke cannot be both a workflow node's call and an agent's call with an `approval_policy`"
    else .admitted (call none)
  | some _ => .rejected outerId "tool.invoke field `workflow_node` must be `true` when present"
  | none =>
  match (field body "approval_policy").bind ApprovalPolicy.parse with
  | none => .rejected outerId
      "tool.invoke requires `approval_policy`, the calling agent's policy: `ReadOnly` or `Default`"
  | some policy =>
    if name ∈ s.denied ∧ verdict policy s.mode .denied = .deny then
      .rejected outerId (denialMessage name policy deniedBySetting)
    else .admitted (call (some policy))

/-- The assessment that the decision table is applied to, or why there is none. -/
def assess (denied : List String) (call : PendingApproval) (body : Object) :
    Except String (Assessment × String) :=
  let statedReason := (field body "reason").filter (· ≠ "")
  match field body "decision" with
  | none => .error "its source answered without a decision"
  | some decision => match Assessment.parse decision with
    | none => .error ("its source answered with the unknown decision `" ++ decision ++ "`")
    | some assessment =>
      if call.name ∈ denied then .ok (.denied,deniedBySetting)
      else match assessment, statedReason with
        | .safe, _ => .ok (assessment,"")
        | _, some reason => .ok (assessment,reason)
        | _, none => .error "its source gave no reason for a decision that is not `safe`"

/-- The message to the caller whose call the user refused. -/
def refusalMessage (name : String) (body : Object) : String :=
  match field body "reason" with
  | some reason => if reason ≠ "" then "tool `" ++ name ++ "` denied: " ++ reason
      else "tool `" ++ name ++ "` denied by user"
  | none => "tool `" ++ name ++ "` denied by user"

section Sending
variable (link : Link)

def updateState (f : GateState → GateState) : Handler Unit :=
  Action.update fun s => { s with state := f s.state }

def checkedSend (frame : Frame) : Handler Unit := fun s =>
  let outcome := link s.history frame.body
  let s' := { s with history := s.history ++ [.sent frame outcome] }
  match outcome with
  | none => (.ok (),s')
  | some e => (.error e,s')

def outputFailed : String :=
  "output admission failed; earlier or external effects may have occurred"

/-- A refused terminal answer is replaced by a small one. -/
def sendEvent (frame : Frame) : Handler Unit := do
  match ← Action.attempt (checkedSend link frame) with
  | .ok () => pure ()
  | .error e => match frame.terminalId with
    | some id => if e.refusal then checkedSend link (.resultError id outputFailed) else Action.fail e
    | none => Action.fail e

/-- The call whose request was refused is answered; a closed writer ends the gate. -/
def admissionFailure (outerId : String) (e : TransportError) : Handler Unit :=
  if e.refusal then checkedSend link (.resultError outerId outputFailed) else Action.fail e

end Sending

section Calls
variable (link : Link)

/-- Forward the call to its source under its inner id. -/
def request (phase : Phase) (call : PendingApproval) (accepted : Handler Unit) : Handler Unit := do
  updateState fun s => { s with pending := s.pending.insert call.innerId call.forward }
  match ← Action.attempt (sendEvent link (.request phase call)) with
  | .error e =>
    updateState fun s => { s with pending := s.pending.erase call.innerId }
    admissionFailure link call.outerId e
  | .ok () => accepted

/-- Ask the call's source to prepare it and say what it means under the caller's policy. -/
def prepare (call : PendingApproval) : Handler Unit :=
  request link .prepare call
    (updateState fun s => { s with preparing := s.preparing.insert call.innerId call })

/-- Run the call. -/
def execute (call : PendingApproval) : Handler Unit := request link .invoke call (pure ())

/-- Refuse a prepared call: the caller learns why, and its source drops what it prepared. -/
def deny (call : PendingApproval) (message : String) : Handler Unit := do
  updateState fun s => { s with pending := s.pending.erase call.innerId }
  sendEvent link (.resultError call.outerId message)
  sendEvent link (.cancel call.source call.innerId)

/-- End a call that could not be decided. -/
def fail (call : PendingApproval) (problem : String) : Handler Unit :=
  deny link call ("tool `" ++ call.name ++ "` could not be decided: " ++ problem)

end Calls

section Events
variable (link : Link)

def handleToolInvoke (body : Object) : Handler Unit := do
  let s ← Action.read
  match admission s.state body with
  | .dropped => pure ()
  | .rejected outerId message => sendEvent link (.resultError outerId message)
  | .admitted call =>
    updateState fun s => { s with innerIdCounter := s.innerIdCounter+1 }
    -- Only calls that carry a policy are prepared.
    if call.approvalPolicy = none then execute link call else prepare link call

/-- The source's answer to a prepare request: apply the decision table. -/
def handleToolPrepared (body : Object) : Handler Unit := do
  let s ← Action.read
  match (field body "id").bind s.state.preparing.lookup with
  | none => pure ()
  | some call =>
    updateState fun s => { s with preparing := s.preparing.erase ((field body "id").getD "") }
    match call.approvalPolicy with
    | none => fail link call "it was prepared without an approval policy"
    | some policy => match assess s.state.denied call body with
      | .error problem => fail link call problem
      | .ok (assessment,reason) => match verdict policy s.state.mode assessment with
        | .run => execute link call
        | .ask => do
          updateState fun s =>
            { s with awaitingApproval := s.awaitingApproval.insert call.outerId call }
          sendEvent link (.permissionRequest call policy reason)
        | .deny => deny link call (denialMessage call.name policy reason)

/-- Send one after another, until one fails. -/
def sendAll (frames : List Frame) : Handler Unit := frames.forM (sendEvent link)

/-- The forwards of a caller's id, by inner id. -/
def forwardsOf (s : GateState) (outerId : String) : List (String × String) :=
  ((s.pending.entries.filter fun e => e.2.outerId = outerId).map fun e => (e.1,e.2.source)).mergeSort
    fun a b => a.1 ≤ b.1

/-- Cancellation ends a call whatever it is waiting for. -/
def handleToolCancel (body : Object) : Handler Unit := do
  match field body "id" with
  | none => pure ()
  | some outerId => do
    let s ← Action.read
    let canceledApproval := (s.state.awaitingApproval.lookup outerId).isSome
    let forwards := forwardsOf s.state outerId
    updateState fun s => { s with
      awaitingApproval := s.awaitingApproval.erase outerId
      pending := forwards.foldl (fun m e => m.erase e.1) s.pending
      preparing := forwards.foldl (fun m e => m.erase e.1) s.preparing }
    if !canceledApproval && forwards.isEmpty then pure ()
    else do
      sendAll link (forwards.map fun e => .cancel e.2 e.1)
      sendEvent link (.resultError outerId "tool invocation canceled")

def handleToolStream (body : Object) : Handler Unit := do
  match field body "id" with
  | none => pure ()
  | some innerId => do
    let s ← Action.read
    match s.state.pending.lookup innerId with
    | none => pure ()
    | some pending => match ← Action.attempt (sendEvent link (.progress pending.outerId body)) with
      | .ok () => pure ()
      | .error e => do
        updateState fun s => { s with pending := s.pending.erase innerId }
        if e.refusal then sendEvent link (.cancel pending.source innerId) else pure ()
        admissionFailure link pending.outerId e

/-- Keep the waiting calls that the test accepts. -/
def retain (table : Table PendingApproval) (keep : PendingApproval → Bool) : Table PendingApproval :=
  ⟨table.entries.filter fun e => keep e.2,table.nodupKeys.sublist List.filter_sublist⟩

/-- A source may end a call at any time, also while preparing it or while the user is asked. -/
def handleToolResult (body : Object) : Handler Unit := do
  match field body "id" with
  | none => pure ()
  | some innerId => do
    let s ← Action.read
    match s.state.pending.lookup innerId with
    | none => pure ()
    | some pending => do
      updateState fun s => { s with
        pending := s.pending.erase innerId
        preparing := s.preparing.erase innerId
        awaitingApproval := retain s.awaitingApproval fun call => call.innerId ≠ innerId }
      sendEvent link (.result pending body)

def handlePermissionResponse (body : Object) : Handler Unit := do
  match field body "id" with
  | none => pure ()
  | some outerId => do
    let s ← Action.read
    match s.state.awaitingApproval.lookup outerId with
    | none => pure ()
    | some call => do
      updateState fun s => { s with awaitingApproval := s.awaitingApproval.erase outerId }
      if field body "decision" = some "approve" then
        execute link { call with args := (body.get "args").getD call.args }
      else deny link call (refusalMessage call.name body)

def handleSetMode (body : Object) : Handler Unit := do
  match (field body "mode").bind GateMode.parse with
  | none => pure ()
  | some target => do
    updateState fun s => { s with mode := target }
    sendEvent link (.modeChanged target)

section Advertising
-- The contract a tool's display has to meet.
variable (displayContract : Json → Except String Unit)

/-- Text per approval policy; an empty object is the same as none. -/
def parsePolicyDescriptions (value : Option Json) : Except String (Option Json) :=
  match value.filter (fun v => match v with | .null => false | _ => true) with
  | none => .ok none
  | some value => match value.asObject with
    | none => .error "must be an object"
    | some object => do
      object.forM fun e => do
        if ApprovalPolicy.parse e.1 = none then
          throw ("unknown approval policy `" ++ e.1 ++ "`")
        if (e.2.asStr.filter (· ≠ "")).isNone then
          throw ("text for `" ++ e.1 ++ "` must be a non-empty string")
      pure (if object = [] then none else some value)

def parseTool (source : String) (t : Json) : Except String ToolSpec := do
  let some name := ((t.get "name").bind Json.asStr).filter fun n => !blank n
    | throw "tool name must be a non-empty string"
  let some display := t.get "display" | throw ("tool missing display contract: " ++ name)
  (displayContract display).mapError fun e => "invalid display for " ++ name ++ ": " ++ e
  let execution ← (ToolExecution.parse (t.get "execution") source).mapError
    fun e => "invalid execution for " ++ name ++ ": " ++ e
  let policyDescriptions ← (parsePolicyDescriptions (t.get "policy_descriptions")).mapError
    fun e => "invalid policy_descriptions for " ++ name ++ ": " ++ e
  pure {
    name, display, execution, policyDescriptions
    description := ((t.get "description").bind Json.asStr).getD ""
    parameters := (t.get "parameters").getD (.object []) }

/-- The first name in the sorted list that repeats. -/
def firstRepeat : List String → Option String
  | a :: b :: rest => if a = b then some a else firstRepeat (b :: rest)
  | _ => none

def validateUniqueToolNames (source : String) (tools : List ToolSpec) (s : GateState) :
    Except String Unit :=
  let names := (tools.map (·.name)).mergeSort (· ≤ ·)
  match firstRepeat names with
  | some name => .error ("duplicate tool name `" ++ name ++
      "` advertised more than once by source `" ++ source ++ "`")
  | none =>
    let collisions := (s.advertised.entries.filter fun e => e.1 ≠ source).flatMap fun e =>
      (e.2.filter fun tool => tool.name ∈ names).map fun tool => (tool.name,e.1)
    match (collisions.mergeSort fun a b => a.1 < b.1 ∨ a.1 = b.1 ∧ a.2 ≤ b.2).head? with
    | some (name,owner) => .error ("duplicate tool name `" ++ name ++
        "` advertised by sources `" ++ owner ++ "` and `" ++ source ++ "`")
    | none => .ok ()

def handleToolsAdvertise (body : Object) : Handler Unit := do
  match (field body "source").filter fun source => !blank source with
  | none => sendEvent link (.advertiseError "" "source must be a non-empty string")
  | some source => match (body.get "tools").bind Json.asArray with
    | none => pure ()
    | some items => match items.mapM (parseTool displayContract source) with
      | .error e => sendEvent link (.advertiseError source e)
      | .ok tools => do
        let s ← Action.read
        match validateUniqueToolNames source tools s.state with
        | .error e => sendEvent link (.advertiseError source e)
        | .ok () => do
          let advertised := if tools.isEmpty then s.state.advertised.erase source
            else s.state.advertised.insert source tools
          updateState fun s => { s with advertised }.rebuildOwnerMap
          sendEvent link (.toolRegister { s.state with advertised }.rebuildOwnerMap.specs)

end Advertising

variable (displayContract : Json → Except String Unit)

def dispatchEvent (body : Object) : Handler Unit :=
  match field body "kind" with
  | some "tool-gate.tools.advertise" => handleToolsAdvertise link displayContract body
  | some "tool-gate.tool.invoke" => handleToolInvoke link body
  | some "tool-gate.tool.cancel" => handleToolCancel link body
  | some "tool.prepared" => handleToolPrepared link body
  | some "tool.stream" => handleToolStream link body
  | some "tool.result" => handleToolResult link body
  | some "tool.permission_response" => handlePermissionResponse link body
  | some "tool-gate.set_mode" => handleSetMode link body
  | _ => pure ()

/-- The sources of the remaining calls are told, and nothing is kept. -/
def close (result : Except TransportError Unit) : Handler Unit := do
  let s ← Action.read
  let canceled ← Action.attempt
    (sendAll link (s.state.pending.entries.map fun e => .cancel e.2.source e.1))
  updateState fun s => { s with pending := ∅, preparing := ∅, awaitingApproval := ∅ }
  match result, canceled with
  | .error e, _ => Action.fail e
  | .ok (), .error e => Action.fail e
  | .ok (), .ok () => sendEvent link .goodbye

/-- What reaches the dispatch loop. -/
inductive Input
  | event (body : Object)
  | noise
  | stop
  | fault (e : TransportError)

def finish (result : Except TransportError Unit) (s : Session) : Session :=
  match close link result s with
  | (r,s') => { s' with ended := some r }

/-- One turn of the dispatch loop. -/
def turn (s : Session) (input : Input) : Session :=
  match s.ended, input with
  | some _, _ => s
  | none, .noise => s
  | none, .stop => finish link (.ok ()) s
  | none, .fault e => finish link (.error e) s
  | none, .event body =>
    match dispatchEvent link displayContract body { s with history := s.history ++ [.heard body] } with
    | (.ok (),s') => s'
    | (.error e,s') => finish link (.error e) s'

/-- The gate as it enters the dispatch loop. -/
def start (denied : List String) : Session :=
  let s : Session := { state := { denied } }
  match sendAll link [.hello "0.4.0",.modeChanged .safe] s with
  | (.ok (),s') => s'
  | (.error e,s') => { s' with ended := some (.error e) }

def run (denied : List String) (inputs : List Input) : Session :=
  inputs.foldl (turn link displayContract) (start link denied)

end Events
end Nefor.ToolGate
