import Mathlib.Data.Finset.Basic
import Mathlib.Data.List.AList
import Mathlib.Data.List.Sort
import Mathlib.Data.String.Basic
import Nefor.Lua.Value

/-! The actors of a run and what they ask for: the fold over graph modifications (`inventory.lua`),
the instances and their activity (`routing.lua`), and the requests that are open
(`correlation.lua`). -/
namespace Nefor.Kernel
open Nefor.Lua

/-- A record of the inventory. An id without a record never existed. -/
structure Actor where
  factory : LuaValue
  params : LuaValue
  typeArguments : LuaValue
  input : LuaValue
  outputs : LuaValue
  semanticStrict : Bool
  alive : Bool := true

/-- A constructed instance, by the entry points that it has. -/
structure Instance where
  deliver : Bool
  handleKill : Bool
  handleDrain : Bool

structure Correlation where
  requester : String
  ref : LuaValue

/-- Why a request is cancelled. -/
inductive Cause
  | interrupt
  | kill
  deriving DecidableEq

/-- What leaves the kernel, and what it does to an actor. Actors are named in the scope of their run. -/
inductive KernelEvent
  | spawned (scope id : String)
  | delivered (scope id : String)
  | ready (scope id : String)
  | busy (scope id : String)
  | idle (scope id : String) (busyMs : Int)
  | output (scope id : String) (wire : LuaValue)
  | failed (scope id : String) (failure : LuaValue)
  | signal (scope id : String) (kind : String)
  | approvalRequest (scope id : String)
  | approvalCancel (scope id : String)
  | runComplete (scope id : String)
  | ignored (scope id : String) (staleGeneration : Bool)
  | invoke (request scope id : String)
  | cancel (request : String) (cause : Cause)
  | reply (request scope id : String) (ref : LuaValue)
  | dropped (request : String)
  | died (scope id : String)
  | forgotten (scope id : String)
  | rejected (scope error : String)

structure Constellation where
  scope : String
  sessionId : LuaValue
  actors : AList fun _ : String => Actor
  instances : AList fun _ : String => Instance
  ready : Finset String
  /-- When the open activity of an actor began. -/
  busy : AList fun _ : String => Int
  /-- The actors whose signal handler is running. -/
  signaling : Finset String
  generations : AList fun _ : String => Nat
  pending : AList fun _ : String => Correlation
  capSeq : Nat

namespace Constellation

def new (scope : String) (sessionId : LuaValue) : Constellation :=
  { scope := scope, sessionId := sessionId, actors := ∅, instances := ∅, ready := ∅, busy := ∅, signaling := ∅,
    generations := ∅, pending := ∅, capSeq := 0 }

def isAlive (c : Constellation) (id : String) : Bool :=
  match c.actors.lookup id with
  | some actor => actor.alive
  | none => false

def isConstructed (c : Constellation) (id : String) : Bool := (c.instances.lookup id).isSome

/-! The fold. -/

/-- A modification that was validated. -/
structure Modification where
  actors : List (String × LuaValue)
  messages : List (String × LuaValue)
  kills : List String

/-- `is_array`. -/
def isArray : LuaValue → Bool
  | .table _ entries =>
    (entries.all fun e => match e.1 with
      | .int _ => true
      | .str _ => false) &&
    (List.range entries.length).all fun (i : Nat) => !(Fields.index entries (.int (i + 1))).isNil
  | _ => false

def validateActorShape (actor : LuaValue) (index : Nat) : Except String String :=
  if !actor.isTable then .error ("actors[" ++ toString index ++ "] is not a table")
  else match actor.get "id" with
    | .str id =>
      if id = "" then .error ("actors[" ++ toString index ++ "] missing string id")
      else if !(actor.get "factory").nonempty then .error ("actor '" ++ id ++ "' missing string factory")
      else if !isArray (actor.get "type_arguments") then
        .error ("actor '" ++ id ++ "' type_arguments must be a dense list")
      else if !(actor.get "params").isNil && !(actor.get "params").isTable then
        .error ("actor '" ++ id ++ "' params must be a table")
      else .ok id
    | _ => .error ("actors[" ++ toString index ++ "] missing string id")

def validateActors (index : Nat) (spawned : List (String × LuaValue)) :
    List LuaValue → Except String (List (String × LuaValue))
  | [] => .ok spawned
  | actor :: rest =>
    match validateActorShape actor index with
    | .error err => .error err
    | .ok id =>
      if id ∈ spawned.map Prod.fst then
        .error ("id collision: '" ++ id ++ "' spawned twice in one modification")
      else validateActors (index + 1) (spawned ++ [(id,actor)]) rest

def validateKills (index : Nat) : List LuaValue → Except String (List String)
  | [] => .ok []
  | .str id :: rest =>
    if id = "" then .error ("kills[" ++ toString index ++ "] is not an id string")
    else match validateKills (index + 1) rest with
      | .error err => .error err
      | .ok ids => .ok (id :: ids)
  | _ :: _ => .error ("kills[" ++ toString index ++ "] is not an id string")

/-- A reply to an approval has to find a live instance, which may have asked for it. -/
def acceptsMessage (c : Constellation) (content : LuaValue) (target : String) : Bool :=
  !((content.get "kind").rawEq (.str "mag.ApprovalReply")) || c.isAlive target && c.isConstructed target

def validateMessages (c : Constellation) (spawned : List String) (index : Nat) :
    List LuaValue → Except String (List (String × LuaValue))
  | [] => .ok []
  | msg :: rest =>
    if !msg.isTable then .error ("messages[" ++ toString index ++ "] is not a table")
    else match msg.get "to" with
      | .str target =>
        if target = "" then .error ("messages[" ++ toString index ++ "] missing string 'to'")
        else if (c.actors.lookup target).isNone && target ∉ spawned then
          .error ("unknown message target '" ++ target ++ "'")
        else if !acceptsMessage c (msg.get "content") target then
          .error ("'mag.ApprovalReply' rejected: target '" ++ target ++ "' has no outstanding approval request")
        else match validateMessages c spawned (index + 1) rest with
          | .error err => .error err
          | .ok messages => .ok ((target,msg) :: messages)
      | _ => .error ("messages[" ++ toString index ++ "] missing string 'to'")

/-- `validate_actor_contracts`, over the errors that the registry finds. There is nothing to find where no
types are declared and no actors are named. -/
def contractErrors (registry : LuaValue → List String) (mod : LuaValue) : List String :=
  if (mod.get "types").isNil && ((mod.get "actors").orElse (.array [])).sequence.isEmpty then [] else registry mod

/-- `validate`. -/
def validate (registry : LuaValue → List String) (c : Constellation) (mod : LuaValue) : Except String Modification :=
  let actors := (mod.get "actors").orElse (.array [])
  let messages := (mod.get "messages").orElse (.array [])
  let kills := (mod.get "kills").orElse (.array [])
  if !mod.isTable then .error "modification is not a table"
  else if !(mod.get "rules").isNil then .error "rules are not a supported modification field"
  else if !isArray actors then .error "actors must be an array"
  else if !isArray messages then .error "messages must be an array"
  else if !isArray kills then .error "kills must be an array"
  else do
    let spawned ← validateActors 1 [] actors.sequence
    let ids ← validateKills 1 kills.sequence
    let sends ← validateMessages c (spawned.map Prod.fst) 1 messages.sequence
    match contractErrors registry mod with
    | [] => return ⟨spawned,sends,ids⟩
    | errors => throw ("; ".intercalate errors)

/-- What is left to do of a call of the host. -/
inductive Chore
  | spawn (run id : String) (actor : LuaValue)
  | send (run target : String)
  | kill (run id : String)
  | forget (run id : String)
  | drained (run id : String)
  | settle (run request : String)
  | drop (run : String)

def Modification.tasks (run : String) (mod : Modification) : List Chore :=
  (mod.actors.map fun actor => .spawn run actor.1 actor.2) ++ (mod.messages.map fun msg => .send run msg.1) ++
    mod.kills.map (.kill run)

/-- `do_spawn`: an id that exists, alive or dead, stays as it is. -/
def spawn (c : Constellation) (id : String) (actor : LuaValue) : Constellation × List KernelEvent :=
  match c.actors.lookup id with
  | some _ => (c,[])
  | none =>
    ({ c with actors := c.actors.insert id {
        factory := actor.get "factory"
        params := (actor.get "params").orElse (.array [])
        typeArguments := actor.get "type_arguments"
        input := actor.get "input"
        outputs := actor.get "outputs"
        semanticStrict := (actor.get "semantic_strict").rawEq (.bool true) } },[.spawned c.scope id])

/-- `do_send`. -/
def send (c : Constellation) (target : String) : List KernelEvent :=
  if c.isAlive target then [.delivered c.scope target] else []

/-- `take_requester`, the requests that it returns. -/
def requestsOf (c : Constellation) (requester : String) : List String :=
  (c.pending.keys.filter fun request => match c.pending.lookup request with
    | some entry => entry.requester == requester
    | none => false).insertionSort (· ≤ ·)

/-- `do_kill` up to the signal handler, with `dispatch_kill`. -/
def kill (c : Constellation) (id : String) : Constellation × List KernelEvent × Bool :=
  match c.actors.lookup id with
  | none => (c,[],false)
  | some actor =>
    if !actor.alive then (c,[],false)
    else
      let requests := c.requestsOf id
      let handled := match c.instances.lookup id with
        | some instance' => instance'.handleKill
        | none => false
      ({ c with
        actors := c.actors.insert id { actor with alive := false }
        pending := requests.foldl (fun pending request => pending.erase request) c.pending
        signaling := if handled then insert id c.signaling else c.signaling },
        .died c.scope id :: requests.map fun request => .cancel request .kill,true)

/-- `forget`, after the signal handler. -/
def forget (c : Constellation) (id : String) : Constellation × List KernelEvent :=
  ({ c with
    ready := c.ready.erase id
    busy := c.busy.erase id
    instances := c.instances.erase id
    signaling := c.signaling.erase id },[.forgotten c.scope id])

/-! What actors do. -/

/-- A completion that an instance returns or that an emission reports, and whether a route or the result
boundary takes the status that stands for it. -/
inductive ActorCompletion
  | pending
  | ok (routed : Bool)
  | failed (failure : LuaValue) (routed : Bool)

/-- A message that an instance emits. The error is what `factory_arrival` finds in an output. -/
inductive Emission
  | ready
  | capabilityInvoke (ref : LuaValue)
  | complete (completion : ActorCompletion)
  | runComplete
  | approvalRequest
  | approvalCancel
  | output (wire : LuaValue) (error : Option LuaValue)

def onReady (c : Constellation) (id : String) : Constellation × List KernelEvent :=
  if id ∈ c.ready then (c,[]) else ({ c with ready := insert id c.ready },[.ready c.scope id])

/-- The ids of requests, as the run context mints them. -/
def requestId (scope : String) (n : Nat) : String := scope ++ "/cap-" ++ toString n

def onCapabilityInvoke (c : Constellation) (id : String) (ref : LuaValue) : Constellation × List KernelEvent :=
  let request := requestId c.scope (c.capSeq + 1)
  ({ c with capSeq := c.capSeq + 1, pending := c.pending.insert request ⟨id,ref⟩ },[.invoke request c.scope id])

def markBusy (c : Constellation) (id : String) (now : Int) : Constellation × List KernelEvent :=
  if (c.busy.lookup id).isSome then (c,[]) else ({ c with busy := c.busy.insert id now },[.busy c.scope id])

def markIdle (c : Constellation) (id : String) (now : Int) : Constellation × List KernelEvent :=
  match c.busy.lookup id with
  | none => (c,[])
  | some since => ({ c with busy := c.busy.erase id },[.idle c.scope id (now - since)])

/-- `apply_completion`. -/
def applyCompletion (c : Constellation) (id : String) (completion : ActorCompletion) (now : Int) :
    Constellation × List KernelEvent :=
  match completion with
  | .pending => (c,[])
  | .ok routed =>
    let (c,events) := c.markIdle id now
    (c,events ++ if routed then [.output c.scope id (.str "mag.Unit")] else [])
  | .failed failure routed =>
    let (c,events) := c.markIdle id now
    (c,events ++ [if routed then .output c.scope id failure else .failed c.scope id failure])

def staleGeneration (c : Constellation) (id : String) (generation : Nat) : Bool :=
  decide (c.generations.lookup id ≠ some generation)

/-- What `on_emit` hears from a stale emitter (`terminal_control_signal`). -/
def terminalControlSignal (c : Constellation) (id : String) : Emission → Bool
  | .runComplete => true
  | .approvalCancel => decide (id ∈ c.signaling)
  | _ => false

/-- What `on_emit` hears from a dead actor (`signal_bus_envelope`). -/
def signalBusEnvelope (c : Constellation) (id : String) : Emission → Bool
  | .output _ _ => decide (id ∈ c.signaling)
  | _ => false

/-- `on_emit`, for an emitter of the given generation. -/
def onEmit (c : Constellation) (id : String) (generation : Nat) (message : Emission) (now : Int) :
    Constellation × List KernelEvent :=
  if !c.terminalControlSignal id message &&
      (c.staleGeneration id generation || !c.isAlive id && !c.signalBusEnvelope id message) then
    (c,[.ignored c.scope id (c.staleGeneration id generation)])
  else match message with
    | .ready => c.onReady id
    | .capabilityInvoke ref => c.onCapabilityInvoke id ref
    | .complete completion => c.applyCompletion id completion now
    | .runComplete => (c,[.runComplete c.scope id])
    | .approvalRequest => (c,[.approvalRequest c.scope id])
    | .approvalCancel => (c,[.approvalCancel c.scope id])
    | .output wire error =>
      if id ∈ c.signaling then (c,[.signal c.scope id "bus"])
      else match error with
        | some detail => (c,[.failed c.scope id detail])
        | none => (c,[.output c.scope id wire])

/-- `bus_response` for an id that is open here, up to the entry point of the requester. -/
def respond (c : Constellation) (request : String) (entry : Correlation) :
    Constellation × List KernelEvent × Option String :=
  let c := { c with pending := c.pending.erase request }
  if !c.isAlive entry.requester then (c,[.dropped request],none)
  else match c.instances.lookup entry.requester with
    | some instance' =>
      if instance'.deliver then (c,[.reply request c.scope entry.requester entry.ref],some entry.requester)
      else (c,[.dropped request],none)
    | none => (c,[.dropped request],none)

end Constellation

/-- A call of an instance or of a constructor that has not returned. -/
inductive Call
  | deliver (run id : String)
  | construct (run id : String)

/-- The live runs, what is left of the current call of the host, and what has left the kernel. -/
structure RunTable where
  runs : AList fun _ : String => Constellation
  runSeq : Nat
  calls : List Call
  work : List Constellation.Chore
  log : List KernelEvent

namespace RunTable
open Constellation

def new : RunTable := ⟨∅,0,[],[],[]⟩

def scopeOf (n : Nat) : String := "r" ++ toString n

def emit (k : RunTable) (events : List KernelEvent) : RunTable := { k with log := k.log ++ events }

/-- A run changes and says what happened. -/
def update (k : RunTable) (run : String) (r : Constellation × List KernelEvent) : RunTable :=
  { k with runs := k.runs.insert run r.1, log := k.log ++ r.2 }

/-- The next task of the call of the host that is being done. -/
def perform (k : RunTable) (task : Chore) : RunTable :=
  match task with
  | .spawn run id actor =>
    match k.runs.lookup run with
    | some c => k.update run (c.spawn id actor)
    | none => k
  | .send run target =>
    match k.runs.lookup run with
    | some c => k.emit (c.send target)
    | none => k
  | .kill run id =>
    match k.runs.lookup run with
    | some c =>
      let (c,events,died) := c.kill id
      let k := k.update run (c,events)
      if died then { k with work := .forget run id :: k.work } else k
    | none => k
  | .forget run id =>
    match k.runs.lookup run with
    | some c => k.update run (c.forget id)
    | none => k
  | .drained run id =>
    match k.runs.lookup run with
    | some c => k.update run ({ c with signaling := c.signaling.erase id },[])
    | none => k
  | .settle run request =>
    match k.runs.lookup run with
    | some c => match c.pending.lookup request with
      | some entry =>
        let (c,events,target) := c.respond request entry
        let k := k.update run (c,events)
        match target with
        | some id => { k with calls := .deliver run id :: k.calls }
        | none => k
      | none => k
    | none => k
  | .drop run => { k with runs := k.runs.erase run }

/-- The run that a response belongs to. Ids are tried on every run. -/
def claimant (k : RunTable) (request : String) : Option String :=
  (k.runs.entries.find? fun e => (e.2.pending.lookup request).isSome).map Sigma.fst

/-- `leftovers` of `reap_run`. -/
def leftovers (c : Constellation) : List String :=
  (c.actors.keys.filter c.isAlive).insertionSort (· ≤ ·)

/-- What may happen. Calls of the host come one after the other; while one is being done, actors act. -/
inductive Act
  | beginRun (run : String) (sessionId : LuaValue)
  | apply (run : String) (mod : LuaValue)
  | respond (request : String)
  | interrupt (run : String)
  | drain (run id : String)
  | resume (run id : String)
  | endRun (run : String)
  | work
  | construct (run id : String)
  | constructed (made : Option Instance)
  | activate (run id : String) (now : Int)
  | bypass (run id : String)
  | returned (completion : ActorCompletion) (now : Int)
  | emit (run id : String) (generation : Nat) (message : Emission) (now : Int)

def Idle (k : RunTable) : Prop := k.calls = [] ∧ k.work = []

inductive Next (registry : LuaValue → List String) : RunTable → Act → RunTable → Prop
  /-- Runs of other sessions are ended before. -/
  | beginRun {k : RunTable} {run : String} {sessionId : LuaValue} : k.Idle → run ≠ "" → k.runs.lookup run = none →
    (∀ other c, k.runs.lookup other = some c → c.sessionId.rawEq sessionId = true) →
    Next registry k (.beginRun run sessionId)
      { k with runSeq := k.runSeq + 1, runs := k.runs.insert run (.new (scopeOf (k.runSeq + 1)) sessionId) }
  | rejected {k : RunTable} {run error : String} {mod : LuaValue} {c : Constellation} : k.Idle →
    k.runs.lookup run = some c → c.validate registry mod = .error error →
    Next registry k (.apply run mod) (k.emit [.rejected c.scope error])
  | applied {k : RunTable} {run : String} {mod : LuaValue} {m : Modification} {c : Constellation} : k.Idle →
    k.runs.lookup run = some c → c.validate registry mod = .ok m →
    Next registry k (.apply run mod) { k with work := m.tasks run }
  | unclaimed {k : RunTable} {request : String} : k.Idle → k.claimant request = none →
    Next registry k (.respond request) k
  | claimed {k : RunTable} {run request : String} : k.Idle → k.claimant request = some run →
    Next registry k (.respond request) (k.perform (.settle run request))
  | interrupt {k : RunTable} {run : String} {c : Constellation} : k.Idle → k.runs.lookup run = some c →
    Next registry k (.interrupt run)
      { k.emit ((c.pending.keys.insertionSort (· ≤ ·)).map fun request => .cancel request .interrupt) with
        work := (c.pending.keys.insertionSort (· ≤ ·)).map (.settle run) }
  | drain {k : RunTable} {run id : String} {c : Constellation} {made : Instance} : k.Idle → k.runs.lookup run = some c →
    c.instances.lookup id = some made → made.handleDrain = true →
    Next registry k (.drain run id)
      { k with runs := k.runs.insert run { c with signaling := insert id c.signaling }, work := [.drained run id] }
  | resume {k : RunTable} {run id : String} {c : Constellation} : k.Idle → k.runs.lookup run = some c →
    c.isAlive id = true → Next registry k (.resume run id) { k with calls := [.deliver run id] }
  | endRun {k : RunTable} {run : String} {c : Constellation} : k.Idle → k.runs.lookup run = some c →
    Next registry k (.endRun run) { k with
      work := (match c.validate registry (.record [("kills",.array ((leftovers c).map .str))]) with
        | .ok m => m.tasks run
        | .error _ => []) ++ [.drop run] }
  | work {k : RunTable} {task : Chore} {rest : List Chore} : k.calls = [] → k.work = task :: rest →
    Next registry k .work ({ k with work := rest }.perform task)
  | construct {k : RunTable} {run id : String} {c : Constellation} : k.runs.lookup run = some c → c.isAlive id = true →
    c.instances.lookup id = none →
    Next registry k (.construct run id) { k with
      runs := k.runs.insert run { c with generations := c.generations.insert id ((c.generations.lookup id).getD 0 + 1) }
      calls := .construct run id :: k.calls }
  | constructed {k : RunTable} {run id : String} {c : Constellation} {rest : List Call} {made : Instance} :
    k.calls = .construct run id :: rest → k.runs.lookup run = some c →
    Next registry k (.constructed (some made)) { k with
      runs := k.runs.insert run { c with instances := c.instances.insert id made }, calls := rest }
  | unconstructed {k : RunTable} {run id : String} {c : Constellation} {rest : List Call} :
    k.calls = .construct run id :: rest → k.runs.lookup run = some c →
    Next registry k (.constructed none) { k.emit [.failed c.scope id (.str "construct")] with calls := rest }
  | activate {k : RunTable} {run id : String} {now : Int} {c : Constellation} {made : Instance} :
    k.runs.lookup run = some c → c.isAlive id = true → c.instances.lookup id = some made → made.deliver = true →
    Next registry k (.activate run id now) { k.update run (c.markBusy id now) with calls := .deliver run id :: k.calls }
  | bypass {k : RunTable} {run id : String} {c : Constellation} {made : Instance} : k.runs.lookup run = some c →
    c.isAlive id = true → c.instances.lookup id = some made → made.deliver = true →
    Next registry k (.bypass run id) { k with calls := .deliver run id :: k.calls }
  | returned {k : RunTable} {run id : String} {completion : ActorCompletion} {now : Int} {c : Constellation} {rest : List Call} :
    k.calls = .deliver run id :: rest → k.runs.lookup run = some c →
    Next registry k (.returned completion now) { k.update run (c.applyCompletion id completion now) with calls := rest }
  | emit {k : RunTable} {run id : String} {generation : Nat} {message : Emission} {now : Int} {c : Constellation} :
    k.runs.lookup run = some c →
    Next registry k (.emit run id generation message now) (k.update run (c.onEmit id generation message now))

end RunTable
end Nefor.Kernel
