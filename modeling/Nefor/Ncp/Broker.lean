import Mathlib.Logic.Function.Basic
import Nefor.Json.Value
import Nefor.Ncp.Connection

/-! The broker: the log of the bus, the connections and the handlers of the event loop. What the
Lua side, the clock and the tasks of the connections do is left to the world the broker runs in. -/
namespace Nefor.Ncp
open Json (Object)

/-- What the engine itself reports. -/
inductive Fact
  | processTerminated (plugin : PluginName) (outcome : ExitOutcome)
  | transportFailed (plugin : PluginName) (phase kind : String)
  | deliveryLost (plugin : PluginName) (count : UInt64)
  | interruptRequested
  deriving DecidableEq, Repr

def ExitOutcome.body : ExitOutcome → Object
  | cleanExit => .ofList [("kind",.string "clean_exit")]
  | exitCode code => .ofList [("kind",.string "exit_code"),("code",.number (.ofI64 code.toInt64))]
  | .signal number =>
    .ofList [("kind",.string "signal"),("signal",.number (.ofI64 number.toInt64))]
  | crash => .ofList [("kind",.string "crash")]
  | spawnFailure reason => .ofList [("kind",.string "spawn_failure"),("reason",.string reason)]
  | unknown reason => .ofList [("kind",.string "unknown"),("reason",.string reason)]

def ExitOutcome.abnormalExitCode : ExitOutcome → Option String
  | cleanExit => none
  | exitCode _ => some "exit_code"
  | signal _ => some "signal"
  | crash => some "crash"
  | spawnFailure _ => some "spawn_failure"
  | unknown _ => some "unknown"

namespace Fact

def kind : Fact → String
  | processTerminated .. => "engine.plugin_process_terminated"
  | transportFailed .. => "engine.plugin_transport_failed"
  | deliveryLost .. => "engine.plugin_delivery_lost"
  | interruptRequested => "engine.interrupt_requested"

/-- The body of the envelope that carries the fact. -/
def body : Fact → Object
  | processTerminated plugin outcome => .ofList [("kind",.string "engine.plugin_process_terminated"),
      ("plugin",.string plugin),("outcome",.object outcome.body)]
  | transportFailed plugin phase kind => .ofList [("kind",.string "engine.plugin_transport_failed"),
      ("plugin",.string plugin),("phase",.string phase),
      ("reason",.object (Object.ofList (if kind = "frame_too_large" then
        [("kind",.string kind),("limit_bytes",.number (.posInt (UInt64.ofNat maxLineBytes).toFin))]
        else [("kind",.string kind)])))]
  | deliveryLost plugin count => .ofList [("kind",.string "engine.plugin_delivery_lost"),
      ("plugin",.string plugin),("count",.number (.posInt count.toFin)),("reason",.string "queue_overflow")]
  | interruptRequested => .ofList [("kind",.string "engine.interrupt_requested"),
      ("signal",.string "SIGINT")]

end Fact

/-- An entry of the bus log. One of the engine is kept by the fact its envelope carries. -/
inductive LogEntry
  | step (target : Option PluginName) (payload : String)
  | engine (fact : Fact)
  deriving DecidableEq, Repr

/-- The bookkeeping the broker keeps for a connection. -/
structure ConnectionRecord where
  name : PluginName
  closing : Bool
  transportFailure : Option Nat
  closeDeadline : Option Nat
  hasWatcher : Bool
  pendingExit : Option ExitOutcome
  /-- The trigger that kills the process has not been used. -/
  terminate : Bool
  deriving DecidableEq, Repr

/-- The hooks through which the broker enters Lua. -/
inductive Call
  | cli (name : String) (args : List String)
  | fromPlugin (source : PluginName) (lines : List String)
  | dispatch (entries : List LogEntry)
  | subscriptions (entries : List LogEntry)
  | cooperativeTask
  | runtimeCallback
  | shutdown
  deriving DecidableEq, Repr

/-- What Lua asks of the broker. -/
inductive Op
  | send (target : Option PluginName) (payload : String)
  | deliver (target : PluginName) (payload : String)
  | deliverBatch (target : PluginName) (payloads : List String)
  deriving DecidableEq, Repr

structure ShutdownRequest where
  code : Int
  reason : String
  graceMs : Nat
  deriving DecidableEq, Repr

/-- What can be seen of a run. -/
inductive Event
  | published (entry : LogEntry)
  /-- Lua was entered, with these names routed and these connections open. -/
  | entered (call : Call) (routed opened : List PluginName)
  | delivered (target : PluginName) (lines : List String) (error : Option AdmissionError)
  | received (id : ConnectionId) (message : ConnectionInbound)
  | exited (id : ConnectionId) (outcome : ExitOutcome)
  | shutdownRequested (request : ShutdownRequest)
  | transportFailed (id : ConnectionId)
  | closeQueued (id : ConnectionId)
  | terminated (id : ConnectionId)
  /-- The loop waits, with or without deferred work of Lua left. -/
  | waits (tasks : Bool)
  deriving DecidableEq, Repr

abbrev History := List Event

/-- The branches of the wait. -/
inductive Choice
  | runtimeCallback
  | inbound
  | writer (id : ConnectionId) (reason : WriterEnd)
  | exit (id : ConnectionId) (outcome : ExitOutcome)
  | interrupt
  | shutdown (request : ShutdownRequest)
  | sleep
  deriving DecidableEq, Repr

/-- All that the broker does not decide; each answer may depend on what has happened. -/
structure World where
  react : History → List Op
  writerOpen : History → PluginName → Bool
  now : History → Nat
  /-- A deadline has passed: one of a connection, or one of the loop. -/
  reached : History → Option ConnectionId → Nat → Bool
  lost : History → ConnectionId → UInt64
  /-- The reader and the writer of the connection are done. -/
  finished : History → ConnectionId → Bool
  pending : History → Nat
  arrival : History → Option ConnectionId
  writerEnds : History → List (ConnectionId × WriterEnd)
  hasCallback : History → Bool
  hasTasks : History → Bool
  activeProcesses : History → Nat
  select : History → Choice

structure Broker where
  eventLog : List LogEntry
  /-- The routing map. -/
  conns : List PluginName
  connsById : ConnectionId → Option ConnectionRecord
  /-- The attached connections, in the order the table of them is walked. -/
  order : List ConnectionId
  /-- What the readers have yet to hand over. -/
  inbound : ConnectionId → List ConnectionInbound
  mirroredCount : Nat
  pendingEngineEnvelopes : List Fact
  abnormalExits : List (PluginName × String)
  history : History

namespace Broker

def ids (b : Broker) : List ConnectionId := b.order.filter fun id => (b.connsById id).isSome

def records (b : Broker) : List ConnectionRecord := b.order.filterMap b.connsById

/-- The names of the connections that are neither closing nor removed. -/
def opened (b : Broker) : List PluginName :=
  (b.records.filter fun record => !record.closing).map (·.name)

def note (b : Broker) (event : Event) : Broker := { b with history := b.history ++ [event] }

def publish (b : Broker) (entries : List LogEntry) : Broker :=
  { b with eventLog := b.eventLog ++ entries, history := b.history ++ entries.map .published }

def update (b : Broker) (id : ConnectionId) (f : ConnectionRecord → ConnectionRecord) : Broker :=
  { b with connsById := Function.update b.connsById id ((b.connsById id).map f) }

def remove (b : Broker) (id : ConnectionId) : Broker :=
  { b with connsById := Function.update b.connsById id none }

def unroute (b : Broker) (name : PluginName) : Broker :=
  { b with conns := b.conns.filter (· ≠ name) }

/-! The routing sink handed to Lua. -/

def send (b : Broker) (target : Option PluginName) (payload : String) : Broker :=
  match admitFrame payload with
  | .error _ => b
  | .ok payload => b.publish [.step target payload]

/-- Lines queued to the writer of a peer. -/
def enqueue (w : World) (b : Broker) (target : PluginName) (lines : List String) : Broker :=
  if target ∈ b.conns then
    if w.writerOpen b.history target then b.note (.delivered target lines none)
    else b.note (.delivered target lines (some (.writerClosed target)))
  else b.note (.delivered target lines (some (.unavailable target)))

def deliver (w : World) (b : Broker) (target : PluginName) (payload : String) : Broker :=
  match admitFrame payload with
  | .error error => b.note (.delivered target [payload] (some error))
  | .ok payload => b.enqueue w target [withTrailingNewline payload]

def deliverBatch (w : World) (b : Broker) (target : PluginName) (payloads : List String) : Broker :=
  match payloads.mapM admitFrame with
  | .error error => b.note (.delivered target payloads (some error))
  | .ok payloads => b.enqueue w target (payloads.map withTrailingNewline)

def perform (w : World) (b : Broker) : Op → Broker
  | .send target payload => b.send target payload
  | .deliver target payload => b.deliver w target payload
  | .deliverBatch target payloads => b.deliverBatch w target payloads

/-- A call into Lua, with all it asks for meanwhile. -/
def enter (w : World) (call : Call) (b : Broker) : Broker :=
  let b := b.note (.entered call b.conns b.opened)
  (w.react b.history).foldl (perform w) b

/-! Dispatch. -/

/-- The entries at the end of the log that were not passed yet go to both hooks. -/
def dispatchTail (w : World) (b : Broker) : Broker :=
  let tail := b.eventLog.drop b.mirroredCount
  let b := { b with mirroredCount := b.eventLog.length }
  enter w (.subscriptions tail) (enter w (.dispatch tail) b)

def drainRounds (w : World) : Nat → Broker → Broker
  | 0, b => b
  | rounds + 1, b =>
    if b.eventLog.length ≤ b.mirroredCount then b else drainRounds w rounds (dispatchTail w b)

/-- The cascade cap is eight rounds. -/
def drainPendingDispatch (w : World) (b : Broker) : Broker := drainRounds w 8 b

def queueEngineEnvelope (b : Broker) (fact : Fact) : Broker :=
  { b with pendingEngineEnvelopes := b.pendingEngineEnvelopes ++ [fact] }

def publishEngineEnvelopes (b : Broker) : Broker :=
  Broker.publish { b with pendingEngineEnvelopes := [] } (b.pendingEngineEnvelopes.map .engine)

def drainEngineEnvelopes (w : World) (b : Broker) : Broker :=
  if b.pendingEngineEnvelopes = [] then b
  else drainPendingDispatch w b.publishEngineEnvelopes

/-! Teardown. -/

def forceClose (w : World) (b : Broker) (id : ConnectionId) : Broker :=
  match b.connsById id with
  | none => b
  | some record =>
    if record.closing then b
    else
      let b := b.update id fun record =>
        { record with closing := true, closeDeadline := some (w.now b.history + 2000) }
      if record.name ∈ b.conns then (b.unroute record.name).note (.closeQueued id) else b

/-- The failure is recorded, and its fact waits to be drained. -/
def recordFailure (w : World) (b : Broker) (id : ConnectionId) (name : PluginName)
    (phase kind : String) : Broker :=
  let now := w.now b.history
  let b := b.update id fun record => { record with
    transportFailure := some now
    closing := true
    closeDeadline := some (now + 2000) }
  ((b.note (.transportFailed id)).unroute name).queueEngineEnvelope (.transportFailed name phase kind)

def transportFailed (w : World) (b : Broker) (id : ConnectionId) (phase kind : String) : Broker :=
  match b.connsById id with
  | none => b
  | some record =>
    if record.transportFailure.isSome then b
    else
      let b := drainEngineEnvelopes w (b.recordFailure w id record.name phase kind)
      if record.hasWatcher then b else b.remove id

def handleReaderClosed (w : World) (b : Broker) (id : ConnectionId) : ReaderEnd → Broker
  | .eof =>
    let b := b.forceClose w id
    match b.connsById id with
    | none => b
    | some record => if record.hasWatcher then b else b.remove id
  | .ioError => b.transportFailed w id "read" "read_io"
  | .invalidUtf8 => b.transportFailed w id "read" "invalid_utf8"
  | .lineTooLong => b.transportFailed w id "read" "frame_too_large"

def fireTerminate (b : Broker) (id : ConnectionId) : Broker :=
  match b.connsById id with
  | none => b
  | some record =>
    if record.terminate then
      (b.update id fun record => { record with terminate := false }).note (.terminated id)
    else b

/-- The deadline of the connection is past: it is not looked at again, and the process killed. -/
def expire (b : Broker) (id : ConnectionId) : Broker :=
  (b.update id fun record => { record with closeDeadline := none }).fireTerminate id

def observeLossesAndLocalDeadlines (w : World) (b : Broker) : Broker :=
  let losses := b.ids.filterMap fun id => (b.connsById id).bind fun record =>
    let count := w.lost b.history id
    if count > 0 then some (record.name,count) else none
  let due := b.ids.filter fun id => (b.connsById id).any fun record =>
    record.closeDeadline.any (w.reached b.history (some id))
  let transportOnly := due.filter fun id => (b.connsById id).any fun record => !record.hasWatcher
  let b := transportOnly.foldl remove (due.foldl expire b)
  losses.foldl (fun b loss => b.queueEngineEnvelope (.deliveryLost loss.1 loss.2)) b

def handleExit (w : World) (b : Broker) (id : ConnectionId) (outcome : ExitOutcome) : Broker :=
  (b.update id fun record => { record with pendingExit := some outcome }).forceClose w id

/-- The connection is removed and its process accounted for. -/
def reportExit (b : Broker) (id : ConnectionId) (name : PluginName) (outcome : ExitOutcome) : Broker :=
  let b := (b.remove id).unroute name
  let b := match outcome.abnormalExitCode with
    | none => b
    | some code => { b with abnormalExits := b.abnormalExits ++ [(name,code)] }
  b.queueEngineEnvelope (.processTerminated name outcome)

def accountExit (w : World) (b : Broker) (id : ConnectionId) : Broker :=
  match b.connsById id with
  | none => b
  | some record =>
    match record.pendingExit with
    | none => (b.remove id).unroute record.name
    | some outcome => drainEngineEnvelopes w (b.reportExit id record.name outcome)

def accountFinishedExits (w : World) (b : Broker) : Broker :=
  (b.ids.filter fun id => (b.connsById id).any fun record =>
    record.pendingExit.isSome && w.finished b.history id).foldl (accountExit w) b

/-- The subscribers of the engine's lifecycle hear of it before any connection is closed. -/
def beginShutdown (w : World) (b : Broker) : Broker :=
  let b := drainPendingDispatch w (enter w .shutdown b)
  b.ids.foldl (forceClose w) b

/-- A connection without a process is only forgotten. -/
def discard (b : Broker) (id : ConnectionId) : Broker :=
  match b.connsById id with
  | none => b
  | some record => (b.remove id).unroute record.name

def forceTerminateAll (b : Broker) : Broker :=
  let transportOnly := b.ids.filter fun id => (b.connsById id).any fun record => !record.hasWatcher
  transportOnly.foldl discard (b.ids.foldl fireTerminate b)

/-- No outcome was observed: the process is accounted for with an unknown one. -/
def accountUnreaped (b : Broker) (id : ConnectionId) : Broker :=
  match b.connsById id with
  | none => b
  | some record =>
    b.reportExit id record.name (.unknown "process did not exit after forced teardown")

def accountUnreapedProcesses (w : World) (b : Broker) : Broker :=
  drainEngineEnvelopes w (b.ids.foldl accountUnreaped b)

/-! The inbound tick. -/

def tryRecv (w : World) (b : Broker) : Option ((ConnectionId × ConnectionInbound) × Broker) :=
  (w.arrival b.history).bind fun id =>
    match b.inbound id with
    | [] => none
    | message :: rest => some ((id,message),
        { b with inbound := Function.update b.inbound id rest }.note (.received id message))

/-- The messages of one turn; a burst is bounded. -/
def burst (w : World) : Nat → Broker → List (ConnectionId × ConnectionInbound) × Broker
  | 0, b => ([],b)
  | more + 1, b => match tryRecv w b with
    | none => ([],b)
    | some (message,b) =>
      let (messages,b) := burst w more b
      (message :: messages,b)

/-- The lines of a tick by peer, and the readers that ended. -/
structure Batch where
  lines : List (PluginName × List String)
  closed : List (ConnectionId × ReaderEnd)

/-- A line joins the batch of its peer. -/
def addLine (name : PluginName) (line : String) :
    List (PluginName × List String) → List (PluginName × List String)
  | [] => [(name,[line])]
  | (peer,lines) :: rest =>
    if peer = name then (peer,lines ++ [line]) :: rest else (peer,lines) :: addLine name line rest

def sort (connsById : ConnectionId → Option ConnectionRecord) (batch : Batch)
    (message : ConnectionId × ConnectionInbound) : Batch :=
  match connsById message.1 with
  | none => batch
  | some record => match message.2 with
    | .line line =>
      if record.closing then batch else { batch with lines := addLine record.name line batch.lines }
    | .closed reason => { batch with closed := batch.closed ++ [(message.1,reason)] }

/-- The hook for each peer that has lines. -/
def passLines (w : World) (b : Broker) (peer : PluginName × List String) : Broker :=
  if peer.2 = [] then b else enter w (.fromPlugin peer.1 peer.2) b

/-- The batch of a tick, from its first message on. -/
def batch (w : World) (first : ConnectionId × ConnectionInbound) (b : Broker) : Batch :=
  (first :: (burst w 255 b).1).foldl (sort b.connsById) ⟨[],[]⟩

def passBatch (w : World) (first : ConnectionId × ConnectionInbound) (b : Broker) : Broker :=
  (batch w first b).lines.foldl (passLines w) (burst w 255 b).2

/-- The readers that ended are torn down last: their lines were passed before. -/
def handleInboundTick (w : World) (first : ConnectionId × ConnectionInbound) (b : Broker) : Broker :=
  (batch w first b).closed.foldl (fun b closed => handleReaderClosed w b closed.1 closed.2)
    (drainPendingDispatch w (passBatch w first b))

def moreCallbacks (w : World) : Nat → Broker → Broker
  | 0, b => b
  | more + 1, b =>
    if w.hasCallback b.history then moreCallbacks w more (enter w .runtimeCallback b) else b

def handleRuntimeCallbacks (w : World) (b : Broker) : Broker :=
  drainPendingDispatch w (moreCallbacks w 255 (enter w .runtimeCallback b))

end Broker
end Nefor.Ncp
