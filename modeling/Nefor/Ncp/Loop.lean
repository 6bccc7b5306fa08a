import Nefor.Ncp.Broker

/-! The event loop of the broker, from the attached connections on. -/
namespace Nefor.Ncp
open Broker

/-- Outcome of the loop. -/
inductive BrokerStopReason
  | shutdown
  | allPluginsGone
  deriving DecidableEq, Repr

structure Loop where
  broker : Broker
  shutdownGrace : Option Nat
  shutdownDeadline : Option Nat
  forcedExitDeadline : Option Nat
  stopped : Option BrokerStopReason

namespace Loop

/-- Inbound messages that are already there. -/
def takeInbound (w : World) : Nat → Broker → Broker
  | 0, b => b
  | more + 1, b => match tryRecv w b with
    | none => b
    | some (message,b) => takeInbound w more (handleInboundTick w message b)

/-- Notices that wait are drained before any outcome of a process is accounted. -/
def drainNotices (w : World) (b : Broker) : Broker :=
  if b.ids.any fun id => (b.connsById id).any fun record => record.pendingExit.isSome then
    let b := takeInbound w (w.pending b.history) b
    (w.writerEnds b.history).foldl (fun b notice =>
      transportFailed w b notice.1 notice.2.phase notice.2.kind) b
  else b

/-- What every turn begins with. -/
def settle (w : World) (b : Broker) : Broker :=
  drainEngineEnvelopes w
    (accountFinishedExits w (observeLossesAndLocalDeadlines w (drainNotices w b)))

/-- The grace of a shutdown is over: every process that is still owned is terminated. -/
def expireGrace (w : World) (s : Loop) : Loop :=
  if s.shutdownDeadline.any (w.reached s.broker.history none) then
    { s with
      broker := forceTerminateAll s.broker
      shutdownDeadline := none
      forcedExitDeadline := some (w.now s.broker.history + 2000) }
  else s

/-- One deferred continuation of Lua. -/
def runTask (w : World) (s : Loop) : Loop :=
  if s.shutdownGrace.isNone && w.hasTasks s.broker.history then
    { s with broker := drainPendingDispatch w (enter w .cooperativeTask s.broker) }
  else s

/-- The branch of the wait that is taken; some are closed during a shutdown. -/
def select (w : World) (s : Loop) : Loop :=
  let b := s.broker
  match w.select b.history with
  | .runtimeCallback =>
    if s.shutdownGrace.isNone then { s with broker := handleRuntimeCallbacks w b } else s
  | .inbound => match tryRecv w b with
    | none => s
    | some (message,b) => { s with broker := handleInboundTick w message b }
  | .writer id reason => { s with broker := transportFailed w b id reason.phase reason.kind }
  | .exit id outcome => { s with broker := handleExit w (b.note (.exited id outcome)) id outcome }
  | .interrupt =>
    if s.shutdownGrace.isNone then
      { s with broker := drainEngineEnvelopes w (b.queueEngineEnvelope .interruptRequested) }
    else s
  | .shutdown request =>
    if s.shutdownGrace.isNone then
      { s with
        broker := beginShutdown w (b.note (.shutdownRequested request))
        shutdownGrace := some request.graceMs
        shutdownDeadline := some (w.now b.history + request.graceMs) }
    else s
  | .sleep => s

/-- The loop stops, or waits for something to happen. -/
def await (w : World) (s : Loop) : Loop :=
  if s.shutdownGrace.isSome && s.broker.ids.isEmpty &&
      w.activeProcesses s.broker.history = 0 then { s with stopped := some .shutdown }
  else if s.shutdownGrace.isNone && s.broker.ids.isEmpty then
    { s with stopped := some .allPluginsGone }
  else
    let tasks := s.shutdownGrace.isNone && w.hasTasks s.broker.history
    select w { s with broker := s.broker.note (.waits tasks) }

def turn (w : World) (s : Loop) : Loop :=
  if s.stopped.isSome then s
  else
    let s := expireGrace w { s with broker := settle w s.broker }
    if s.forcedExitDeadline.any (w.reached s.broker.history none) then
      { s with broker := accountUnreapedProcesses w s.broker, stopped := some .shutdown }
    else await w (runTask w s)

end Loop

/-- A transport that was handed to the broker. -/
structure Connection where
  id : ConnectionId
  name : PluginName
  hasWatcher : Bool
  terminate : Bool
  output : Output
  deriving DecidableEq, Repr

/-- What the loop starts from: the connections in the order their table is walked, the plugins
that could not be spawned, what the configuration published while it was loaded, and the
subcommand that is run first, if any. -/
structure Setup where
  connections : List Connection
  failures : List (PluginName × String)
  loaded : List (Option PluginName × String)
  cli : Option (String × List String)
  ids_nodup : (connections.map (·.id)).Nodup
  names_nodup : (connections.map (·.name)).Nodup
  failures_apart : ∀ failure ∈ failures, failure.1 ∉ connections.map (·.name)

namespace Setup

def shared (setup : Setup) : Broker :=
  Broker.publish ⟨[],[],fun _ => none,[],fun _ => [],0,[],[],[]⟩
    (setup.loaded.map fun entry => .step entry.1 entry.2)

def attachTransport (b : Broker) (c : Connection) : Broker :=
  { b with
    conns := b.conns.filter (· ≠ c.name) ++ [c.name]
    connsById := Function.update b.connsById c.id
      (some ⟨c.name,false,none,none,c.hasWatcher,none,c.terminate⟩)
    order := b.order ++ [c.id]
    inbound := Function.update b.inbound c.id (runReader c.output) }

def queueProcessFact (b : Broker) (failure : PluginName × String) : Broker :=
  b.queueEngineEnvelope (.processTerminated failure.1 (.spawnFailure failure.2))

def spawned (setup : Setup) : Broker :=
  setup.failures.foldl queueProcessFact (setup.connections.foldl attachTransport setup.shared)

def start (setup : Setup) (w : World) : Loop :=
  let broker := match setup.cli with
    | none => setup.spawned
    | some (name,args) => enter w (.cli name args) setup.spawned
  ⟨broker,none,none,none,none⟩

end Setup

/-- The loop after a number of turns. -/
def run (w : World) (setup : Setup) (turns : Nat) : Loop := (Loop.turn w)^[turns] (setup.start w)

end Nefor.Ncp
