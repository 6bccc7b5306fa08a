import Nefor.Json.Equality
import Nefor.Ncp.Broker
import Nefor.Window

/-! The Lua side of the protocol: the handshake of the plugins, the dispatch of the bus log to the
wrappers of the peers, and the replay of it to a peer that attaches late. What the callbacks
publish reaches the log with a later dispatch. -/
namespace Nefor.Core
open Ncp (PluginName LogEntry Fact ExitOutcome)
open Json (Object)

def ncpVersion : String := "0.1"
def engineVersion : String := "0.1.0"

/-- An envelope of the bus, as the callbacks of the wrappers see it. -/
structure Envelope where
  type : String
  /-- The field `from`. -/
  sender : String
  ts : Option Json
  body : Json
  replay : Bool
  deriving DecidableEq, Repr

/-- An envelope of a batch and the target of the entry it was read from. -/
abbrev Delivery := Envelope × Option PluginName

/-- An envelope a plugin wrote. -/
structure Inbound where
  type : String
  sender : String
  body : Json
  deriving DecidableEq, Repr

/-- An envelope of the engine's own, without the reading of the clock it carries. -/
structure Notice where
  type : String
  body : Object
  deriving DecidableEq, Repr

/-- The callbacks a wrapper has registered. -/
structure Transform where
  fromPlugin : Bool
  toPlugin : Bool
  deriving DecidableEq, Repr

inductive Effect
  /-- The engine's own line for a peer. -/
  | deliver (target : PluginName) (notice : Notice)
  /-- The batch handed to the callback of the wrapper, be it the default one. -/
  | toPlugin (target : PluginName) (batch : List Delivery)
  /-- The default callback writes an envelope to the peer, without its stamp. -/
  | write (target : PluginName) (envelope : Envelope)
  | fromPlugin (source : PluginName) (envs : List Inbound)
  deriving DecidableEq, Repr

/-- The decoder of the engine, with the text of its errors. -/
structure World where
  decode : String → Except String Json

/-- The names of the open connections, the keys of a map. -/
structure Connected where
  names : List PluginName
  nodup : names.Nodup

structure Framework where
  readyPlugins : List PluginName
  pluginTransforms : PluginName → Option Transform
  pendingChatPopups : List Notice
  dispatchHwm : Nat
  /-- The mirror of the bus log that the engine grows before each dispatch. -/
  currentLog : List LogEntry
  /-- The flag of `core.replay_window`. -/
  replayWindow : Bool

namespace Framework

def initial : Framework where
  readyPlugins := []
  pluginTransforms := fun _ => none
  pendingChatPopups := []
  dispatchHwm := 0
  currentLog := []
  replayWindow := false

end Framework

/-! Values as Lua sees them. -/

/-- The value is a table. -/
def isTable : Json → Bool
  | .array _ | .object _ => true
  | _ => false

/-- A field that holds a string. -/
def str (value : Json) (key : String) : Option String := (value.get key).bind Json.asStr

/-! What the framework itself tells a peer. -/

def deliverError (target : PluginName) (code message : String) : Effect :=
  .deliver target ⟨"system",.ofList [("kind",.string "error"),("code",.string code),
    ("message",.string message)]⟩

def deliverReadyOk (target : PluginName) : Effect :=
  .deliver target ⟨"system",.ofList [("kind",.string "ready_ok"),
    ("engine_version",.string engineVersion)]⟩

/-! The bus entries. -/

/-- What a step entry carries, before it is stamped. -/
structure Emission where
  target : Option PluginName
  sender : String
  ts : Option Json
  body : Json
  deriving DecidableEq, Repr

namespace Emission

def kind (e : Emission) : Option String := str e.body "kind"

/-- The markers open and close the replay window. -/
def mark (e : Emission) : Option Bool :=
  if e.kind = some "sessions.replay.start" then some true
  else if e.kind = some "sessions.replay.end" then some false
  else none

def stamp (e : Emission) (replay : Bool) : Delivery :=
  (⟨"event",e.sender,e.ts,e.body,replay⟩,e.target)

end Emission

/-- A payload that does not decode to an event with a table for its body is passed over. -/
def emission (w : World) (target : Option PluginName) (payload : String) : Option Emission :=
  match w.decode payload with
  | .error _ => none
  | .ok decoded =>
    if str decoded "type" = some "event" then
      match decoded.get "body" with
      | none => none
      | some body =>
        if isTable body then
          some ⟨target,(str decoded "from").getD "engine",decoded.get "ts",body⟩
        else none
    else none

/-! The callbacks. -/

/-- The text before the first full stop. -/
def peerOf (kind : String) : Option PluginName :=
  let name := kind.toList.takeWhile (· ≠ '.')
  if name = [] ∨ name.length = kind.length then none else some (String.ofList name)

namespace Framework

/-- The default callback, on one envelope: an emission is not echoed to its sender, and one that
is addressed, by its entry or by its kind, goes to the addressee alone. -/
def defaultDeliverFor (s : Framework) (target : PluginName) (delivery : Delivery) : Option Effect :=
  let env := delivery.1
  if env.sender = target then none
  else if delivery.2 ≠ none ∧ delivery.2 ≠ some target then none
  else
    match (str env.body "kind").bind peerOf with
    | none => some (.write target env)
    | some peer =>
      if peer ≠ env.sender ∧ peer ∈ s.readyPlugins ∧ peer ≠ target then none
      else some (.write target env)

/-- A failed delivery is not reported through the path that failed. -/
def routed (delivery : Delivery) : Bool := str delivery.1.body "kind" ≠ some "ncp.delivery_failed"

def callToPluginForBatch (s : Framework) (target : PluginName) (batch : List Delivery) : List Effect :=
  let batch := batch.filter routed
  if batch = [] then []
  else
    .toPlugin target batch :: (if (s.pluginTransforms target).any (·.toPlugin) then []
      else batch.filterMap (s.defaultDeliverFor target))

/-! Replay on attach. -/

/-- The entries that are for the peer, with the window as the markers among them have it. -/
def prior (w : World) (target : PluginName) : Bool → List LogEntry → List Delivery
  | _, [] => []
  | currentReplay, .engine _ :: rest => prior w target currentReplay rest
  | currentReplay, .step entryTarget payload :: rest =>
    if entryTarget = none ∨ entryTarget = some target then
      match emission w entryTarget payload with
      | none => prior w target currentReplay rest
      | some e =>
        let currentReplay := e.mark.getD currentReplay
        e.stamp currentReplay :: prior w target currentReplay rest
    else prior w target currentReplay rest

def replayPriorEvents (w : World) (s : Framework) (target : PluginName) (log : List LogEntry) :
    List Effect :=
  s.callToPluginForBatch target (prior w target false log)

/-! The handshake. -/

def handleReady (w : World) (s : Framework) (origin : PluginName) (body : Json) (log : List LogEntry) :
    Framework × List Effect :=
  match str body "protocol_version" with
  | none => (s,[deliverError origin "invalid_ready"
      "ready body missing required string field 'protocol_version'"])
  | some version =>
    if version ≠ ncpVersion then
      (s,[deliverError origin "protocol_version_mismatch"
        ("engine speaks NCP " ++ ncpVersion ++ "; plugin declared '" ++ version ++ "'")])
    else if origin ∈ s.readyPlugins then
      (s,[deliverError origin "invalid_ready"
        "plugin already ready; 'ready' is only valid as the first message"])
    else
      let s := { s with readyPlugins := s.readyPlugins ++ [origin] }
      let effects := deliverReadyOk origin :: s.replayPriorEvents w origin log
      -- the popups that waited for the terminal
      if origin = "nefor-tui" then
        ({ s with pendingChatPopups := [] },
          effects ++ s.pendingChatPopups.map (.deliver "nefor-tui"))
      else (s,effects)

def handleSystem (w : World) (s : Framework) (origin : PluginName) (body : Option Json)
    (log : List LogEntry) : Framework × List Effect :=
  match body.bind (str · "kind") with
  | none => (s,[deliverError origin "malformed_envelope" "system body missing 'kind'"])
  | some kind =>
    if kind = "ready" then s.handleReady w origin (body.getD .null) log
    else (s,[deliverError origin "unknown_kind"
      ("plugins may only send 'ready' as a system kind; got '" ++ kind ++ "'")])

/-! The lines of the plugins. -/

inductive Classified
  | drop (reply : Effect)
  | system (body : Option Json)
  | event (env : Inbound)

def classifyInboundPayload (w : World) (s : Framework) (source : PluginName) (payload : String) :
    Classified :=
  match w.decode payload with
  | .error error =>
    .drop (deliverError source "malformed_envelope" ("payload is not valid JSON: " ++ error))
  | .ok decoded =>
    if ¬ isTable decoded then
      .drop (deliverError source "malformed_envelope" "payload is not a JSON object")
    else if str decoded "type" = some "system" then .system (decoded.get "body")
    else if str decoded "type" = some "event" then
      match (decoded.get "body").filter isTable with
      | none => .drop (deliverError source "body_not_object" "event body must be a JSON object")
      | some body =>
        if source ∉ s.readyPlugins then
          .drop (deliverError source "malformed_envelope"
            "received event before 'ready' handshake completed")
        else .event ⟨"event",(str decoded "from").getD source,body⟩
    else .drop (deliverError source "malformed_envelope"
      "envelope 'type' must be 'system' or 'event'")

def deliverEventBatchFrom (source : PluginName) (envs : List Inbound) : List Effect :=
  if envs = [] then [] else [.fromPlugin source envs]

/-- The lines in order; the events before a system message are handed over first. -/
def readLines (w : World) (source : PluginName) (log : List LogEntry) :
    Framework → List Inbound → List String → Framework × List Effect
  | s, envs, [] => (s,deliverEventBatchFrom source envs)
  | s, envs, raw :: rest =>
    match s.classifyInboundPayload w source raw with
    | .drop reply =>
      let r := readLines w source log s envs rest
      (r.1,reply :: r.2)
    | .event env => readLines w source log s (envs ++ [env]) rest
    | .system body =>
      let handled := s.handleSystem w source body log
      let r := readLines w source log handled.1 [] rest
      (r.1,deliverEventBatchFrom source envs ++ handled.2 ++ r.2)

def invokeFromPluginBatch (w : World) (s : Framework) (source : PluginName) (payloads : List String) :
    Framework × List Effect :=
  if source = "" ∨ payloads = [] then (s,[]) else readLines w source s.currentLog s [] payloads

/-! Dispatch. -/

/-- Why a process stopped, in the text of the popup. -/
def detail : ExitOutcome → String
  | .cleanExit => "clean_exit"
  | .exitCode code => toString code.toInt
  | .signal number => toString number.toInt
  | .crash => "crash"
  | .spawnFailure reason | .unknown reason => reason

def stoppedPopup (plugin : PluginName) (outcome : ExitOutcome) : Notice :=
  ⟨"event",.ofList [("kind",.string "chat.popup"),("level",.string "error"),
    ("title",.string "plugin stopped"),
    ("message",.string (plugin ++ " stopped (" ++ detail outcome ++ ")")),
    ("source",.string "engine")]⟩

/-- A process that did not end well is shown in the chat, once the terminal is there. -/
def handleEngineEnvelope (s : Framework) (plugins : List PluginName) : Fact → Framework × List Effect
  | .processTerminated plugin outcome =>
    if outcome ≠ .cleanExit ∧ "nefor-tui" ∈ plugins then
      if "nefor-tui" ∈ s.readyPlugins then
        (s,[.deliver "nefor-tui" (stoppedPopup plugin outcome)])
      else
        ({ s with pendingChatPopups := s.pendingChatPopups ++ [stoppedPopup plugin outcome] },[])
    else (s,[])
  | .transportFailed .. | .deliveryLost .. | .interruptRequested => (s,[])

/-- Where the walk over the new entries stands. The batches of the ready peers grow alike, so one
is kept for all of them. -/
structure Walk where
  ncp : Framework
  batch : List Delivery
  effects : List Effect

def visit (w : World) (plugins : List PluginName) (walk : Walk) : LogEntry → Walk
  | .engine fact =>
    let handled := walk.ncp.handleEngineEnvelope plugins fact
    { walk with ncp := handled.1, effects := walk.effects ++ handled.2 }
  | .step target payload =>
    match emission w target payload with
    | none => walk
    | some e =>
      let currentReplay := e.mark.getD walk.ncp.replayWindow
      { walk with
        ncp := { walk.ncp with replayWindow := currentReplay }
        batch := walk.batch ++ [e.stamp currentReplay] }

def walk (w : World) (plugins : List PluginName) (s : Framework) : Walk :=
  (s.currentLog.drop s.dispatchHwm).foldl (visit w plugins) ⟨s,[],[]⟩

/-- The entries past the high-water mark go to the peers that are ready, one batch each. -/
def dispatch (w : World) (plugins : List PluginName) (s : Framework) : Framework × List Effect :=
  if s.currentLog.length ≤ s.dispatchHwm then (s,[])
  else
    let walked := walk w plugins s
    ({ walked.ncp with dispatchHwm := s.currentLog.length },
      walked.effects ++ (plugins.filter (· ∈ s.readyPlugins)).flatMap fun name =>
        walked.ncp.callToPluginForBatch name walked.batch)

/-- The engine appends the new entries to the mirror and calls the dispatch. -/
def invokeDispatch (w : World) (plugins : List PluginName) (s : Framework) (entries : List LogEntry) :
    Framework × List Effect :=
  dispatch w plugins { s with currentLog := s.currentLog ++ entries }

end Framework

/-- What may happen to the module. -/
inductive Act
  | spawn (name : PluginName) (transform : Transform)
  | invokeFromPluginBatch (source : PluginName) (payloads : List String)
  | invokeDispatch (entries : List LogEntry) (plugins : Connected)
  /-- Another module sets the flag of `core.replay_window`. -/
  | setReplayWindow (flag : Bool)

namespace Framework

def step (w : World) (s : Framework) : Act → Framework × List Effect
  | .spawn name transform =>
    ({ s with pluginTransforms := Function.update s.pluginTransforms name (some transform) },[])
  | .invokeFromPluginBatch source payloads => s.invokeFromPluginBatch w source payloads
  | .invokeDispatch entries plugins => s.invokeDispatch w plugins.names entries
  | .setReplayWindow flag => ({ s with replayWindow := flag },[])

/-- The state after the acts, and all that came of them. -/
def run (w : World) (acts : List Act) : Framework × List Effect :=
  acts.foldl (fun r act => ((step w r.1 act).1,r.2 ++ (step w r.1 act).2)) (initial,[])

end Framework
end Nefor.Core
