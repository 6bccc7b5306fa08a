import Mathlib.Data.Finset.Basic
import Mathlib.Data.List.AList
import Mathlib.Data.List.Sort
import Mathlib.Data.String.Basic
import Nefor.Lua.Value

/-! The registry of detached runs and of the calls that wait for them (`lead-workflow/run-registry.lua`).
A run is a table that several tables of the registry refer to; `heap` holds it under a number. -/
namespace Nefor.LeadWorkflow
open Nefor.Lua

inductive Phase
  | queued
  | running
  | terminating
  | terminal
  deriving DecidableEq, Repr

/-- A run, without the fields that the registry only stores for others. -/
structure Run where
  runId : String
  runName : LuaValue
  invocationLabel : LuaValue := .nil
  sessionId : String
  phase : Phase := .queued
  status : String := "queued"
  terminalStatus : LuaValue := .nil
  terminateReason : LuaValue := .nil
  dispatcherId : LuaValue
  waiters : List String := []
  canonical : LuaValue := .nil
  canonicalBody : LuaValue := .nil
  error : LuaValue := .nil
  durationMs : LuaValue := .nil
  relayDelivered : Bool := false

structure Registry where
  terminalLimit : Nat
  tombstoneLimit : Nat
  heap : Nat → Run
  registered : Nat
  runs : AList fun _ : String => Nat
  activeRuns : AList fun _ : String => Nat
  completedRuns : List Nat
  terminalOrder : List String
  /-- The session of each tombstone. -/
  tombstones : AList fun _ : String => String
  tombstoneOrder : List String
  waiterRuns : AList fun _ : String => String
  dispatcherRuns : AList fun _ : String => Finset String
  runDispatchers : AList fun _ : String => String

/-- `valid_handle`: `^mag%-run%-%w[%w_-]*$`, and at most 256 bytes. -/
def validHandle (runId : String) : Bool :=
  decide (runId.utf8ByteSize ≤ 256) && "mag-run-".toList.isPrefixOf runId.toList &&
    match runId.toList.drop 8 with
    | [] => false
    | c :: rest => c.isAlphanum && rest.all fun d => d.isAlphanum || d == '_' || d == '-'

/-- `typed_error`, with the fields that a caller adds. -/
def typedError (code message runId : String) (status : LuaValue) (more : List (String × LuaValue)) : LuaValue :=
  .record ([("error_code",.str code),("error",.str ("mag-await[" ++ code ++ "]: " ++ message)),
    ("run_id",.str runId),("status",status)] ++ more)

def authorityError (code message runId : String) : LuaValue :=
  .record [("error_code",.str code),("error",.str ("run-control[" ++ code ++ "]: " ++ message)),
    ("run_id",.str runId),("status",.str "denied")]

/-- `output[name] = output[name] or value`. -/
def setDefault (output : Fields) (name : String) (value : LuaValue) : Fields :=
  let chosen := (output.get name).orElse value
  if chosen.isNil then output.unset name else output.set name chosen

def Run.labels (run : Run) : List (String × LuaValue) :=
  [("run_name",run.runName),("invocation_label",run.invocationLabel)]

/-- `canonical_outcome`. The text that `tostring` makes of a table is the host's. -/
def canonicalOutcome (tostring : LuaValue → String) (body : LuaValue) (run : Run) : LuaValue :=
  let status := body.get "status"
  match body, status with
  | .table marked fields, .str "completed" =>
    let output : Fields := Fields.unset (Fields.unset fields "kind") "in_reply_to"
    let output := setDefault (output.set "run_id" (.str run.runId)) "run_name" run.runName
    let output := setDefault output "invocation_label" run.invocationLabel
    .record [("output",.table marked (output.set "status" (.str "completed")))]
  | _, _ =>
    let killed := status.rawEq (.str "killed")
    let fallback := if killed then "run was killed" else "run failed"
    typedError (if killed then "await_run_killed" else "await_run_failed")
      (tostring ((body.get "error").orElse (.str fallback))) run.runId status
      (run.labels ++ [("terminal",body)])

/-- The error for those who wait when the session of the run ends. -/
def sessionEnded (runId : String) : LuaValue :=
  typedError "await_run_session_ended" "the owning session ended before the run reached a terminal result"
    runId .nil []

/-- `remove_value`: the last occurrence goes. -/
def removeValue {α : Type} [DecidableEq α] (list : List α) (value : α) : List α :=
  (list.reverse.erase value).reverse

/-- The keys in the order of `table.sort`. -/
def sorted (keys : List String) : List String := keys.insertionSort (· ≤ ·)

/-- What a call answers. -/
inductive Answer
  | raised (message : String)
  | registered (run : Nat)
  | flag (value : Bool)
  | marked (run : Option Nat)
  | immediate (value : LuaValue)
  | waiting (run : Nat)
  | unsettled
  | settled (run : Nat) (waiters : List String) (outcome : LuaValue)
  | lost (runs : List Nat) (waiterSettlements : List (String × LuaValue))
  | ended (activeRunIds : List String) (waiterSettlements : List (String × LuaValue))

/-- The calls that the answer settles. -/
def Answer.settlements : Answer → List (String × LuaValue)
  | settled _ waiters outcome => waiters.map fun firing => (firing,outcome)
  | lost _ settlements => settlements
  | ended _ settlements => settlements
  | _ => []

structure Spec where
  runId : Option String
  sessionId : LuaValue
  runName : LuaValue
  dispatcherId : LuaValue

namespace Registry

/-- `M.new`, with the limits that its options leave. -/
def new (terminalLimit tombstoneLimit : Nat) : Registry where
  terminalLimit := terminalLimit
  tombstoneLimit := tombstoneLimit
  heap := fun _ => ⟨"",.nil,.nil,"",.queued,"queued",.nil,.nil,.nil,[],.nil,.nil,.nil,.nil,false⟩
  registered := 0
  runs := ∅
  activeRuns := ∅
  completedRuns := []
  terminalOrder := []
  tombstones := ∅
  tombstoneOrder := []
  waiterRuns := ∅
  dispatcherRuns := ∅
  runDispatchers := ∅

def modify (r : Registry) (run : Nat) (f : Run → Run) : Registry :=
  { r with heap := Function.update r.heap run (f (r.heap run)) }

/-- The oldest tombstones go until the limit is kept. -/
def displace (limit : Nat) : List String → (AList fun _ : String => String) →
    List String × (AList fun _ : String => String)
  | [], tombstones => ([],tombstones)
  | displaced :: order, tombstones =>
    if limit < (displaced :: order).length then displace limit order (tombstones.erase displaced)
    else (displaced :: order,tombstones)

/-- `add_tombstone`. -/
def addTombstone (r : Registry) (runId sessionId : String) : Registry :=
  let order := if (r.tombstones.lookup runId).isNone then r.tombstoneOrder ++ [runId] else r.tombstoneOrder
  let (order,tombstones) := displace r.tombstoneLimit order (r.tombstones.insert runId sessionId)
  { r with tombstones := tombstones, tombstoneOrder := order }

/-- The part of `expire` that takes the run from its dispatcher: the two tables after it. -/
def unlink (r : Registry) (runId : String) :
    (AList fun _ : String => Finset String) × (AList fun _ : String => String) :=
  match r.runDispatchers.lookup runId with
  | none => (r.dispatcherRuns,r.runDispatchers)
  | some dispatcher =>
    let dispatcherRuns := match r.dispatcherRuns.lookup dispatcher with
      | none => r.dispatcherRuns
      | some owned =>
        if owned.erase runId = ∅ then r.dispatcherRuns.erase dispatcher
        else r.dispatcherRuns.insert dispatcher (owned.erase runId)
    (dispatcherRuns,r.runDispatchers.erase runId)

/-- `expire`. -/
def expire (r : Registry) (run : Nat) : Registry :=
  let runId := (r.heap run).runId
  { r with
    runs := r.runs.erase runId
    activeRuns := r.activeRuns.erase runId
    dispatcherRuns := (r.unlink runId).1
    runDispatchers := (r.unlink runId).2
    terminalOrder := removeValue r.terminalOrder runId
    completedRuns := removeValue r.completedRuns run : Registry }.addTombstone runId (r.heap run).sessionId

/-- The terminal runs of the session, the oldest first. -/
def terminalRuns (r : Registry) (sessionId : String) : List Nat :=
  r.terminalOrder.filterMap fun runId => (r.runs.lookup runId).filter fun run =>
    (r.heap run).phase = .terminal ∧ (r.heap run).sessionId = sessionId

/-- `enforce_terminal_limit`. -/
def enforceTerminalLimit (r : Registry) (sessionId : String) : Registry :=
  let owned := r.terminalRuns sessionId
  (owned.take (owned.length - r.terminalLimit)).foldl expire r

/-- The lines that `reject`, `settle` and `lose_authority` share: the run becomes terminal, and its
waiters are let go. -/
def close (r : Registry) (runId : String) (run : Nat) (f : Run → Run) : Registry :=
  { r.modify run (fun run => { f run with phase := .terminal, waiters := [] }) with
    waiterRuns := (sorted (r.heap run).waiters).foldl (fun waiterRuns firing => waiterRuns.erase firing) r.waiterRuns
    activeRuns := r.activeRuns.erase runId
    completedRuns := r.completedRuns ++ [run]
    terminalOrder := r.terminalOrder ++ [runId] }

def finish (r : Registry) (runId : String) (run : Nat) (f : Run → Run) : Registry :=
  (r.close runId run f).enforceTerminalLimit (r.heap run).sessionId

/-- `M:register`; `minted` is what `mint_id` answers. A wrong dispatcher is noticed when the run is
in the tables. -/
def register (r : Registry) (spec : Spec) (minted : String) : Registry × Answer :=
  match spec.sessionId with
  | .str sessionId =>
    let runId := spec.runId.getD minted
    if sessionId = "" then (r,.raised "run-registry: session_id is required")
    else if !validHandle runId then
      (r,.raised (if spec.runId.isSome then "run-registry: invalid run_id"
        else "run-registry: mint_id returned an invalid handle"))
    else if (r.runs.lookup runId).isSome || (r.tombstones.lookup runId).isSome then
      (r,.raised (if spec.runId.isSome then "run-registry: duplicate run_id"
        else "run-registry: mint_id returned a duplicate handle"))
    else
      let run := r.registered
      let r := { r with
        heap := Function.update r.heap run
          { runId := runId, runName := spec.runName, sessionId := sessionId, dispatcherId := spec.dispatcherId }
        registered := run + 1
        runs := r.runs.insert runId run
        activeRuns := r.activeRuns.insert runId run }
      match spec.dispatcherId with
      | .nil => (r,.registered run)
      | .str dispatcher =>
        if dispatcher = "" then (r,.raised "run-registry: dispatcher_id must be a non-empty string")
        else
          ({ r with
            dispatcherRuns := r.dispatcherRuns.insert dispatcher
              (insert runId ((r.dispatcherRuns.lookup dispatcher).getD ∅))
            runDispatchers := r.runDispatchers.insert runId dispatcher },.registered run)
      | _ => (r,.raised "run-registry: dispatcher_id must be a non-empty string")
  | _ => (r,.raised "run-registry: session_id is required")

/-- `M:lookup`. -/
def lookup (r : Registry) (runId : String) (sessionId : LuaValue) : Except LuaValue Nat :=
  let wrongSession := typedError "await_run_wrong_session" "the run belongs to a different session" runId .nil []
  if !validHandle runId then
    .error (typedError "await_run_malformed" "run_id must be a non-empty opaque MAG run handle" runId .nil [])
  else match r.runs.lookup runId, r.tombstones.lookup runId with
    | some run, _ => if sessionId.rawEq (.str (r.heap run).sessionId) then .ok run else .error wrongSession
    | none, some session =>
      if sessionId.rawEq (.str session) then
        .error (typedError "await_run_expired" "the retained terminal outcome has expired; dispatch a new run"
          runId (.str "expired") [])
      else .error wrongSession
    | none, none =>
      .error (typedError "await_run_unknown" "no lead-dispatched run is known for this handle" runId .nil [])

/-- `M:authorize`. -/
def authorize (r : Registry) (runId : String) (sessionId dispatcherId : LuaValue) : Except LuaValue Nat := do
  let run ← r.lookup runId sessionId
  let owner := (r.runDispatchers.lookup runId).elim .nil LuaValue.str
  if !dispatcherId.isNil && !owner.rawEq dispatcherId then
    throw (authorityError "run_control_unauthorized"
      "non-root agents may control only detached runs they directly dispatched" runId)
  return run

def markRunning (r : Registry) (runId : String) : Registry × Answer :=
  match r.activeRuns.lookup runId with
  | none => (r,.flag false)
  | some run =>
    if (r.heap run).phase ≠ .queued then (r,.flag false)
    else (r.modify run fun run => { run with phase := .running, status := "running" },.flag true)

def markTerminating (r : Registry) (runId : String) (reason : LuaValue) : Registry × Answer :=
  match r.activeRuns.lookup runId with
  | none => (r,.marked none)
  | some run =>
    if (r.heap run).phase = .terminating then (r,.marked (some run))
    else (r.modify run fun run =>
      { run with phase := .terminating, status := "terminating", terminateReason := reason },.marked (some run))

/-- `M:await`. -/
def await (r : Registry) (runId : String) (sessionId : LuaValue) (firingId : String) (dispatcherId : LuaValue) :
    Registry × Answer :=
  match r.authorize runId sessionId dispatcherId with
  | .error err => (r,.immediate err)
  | .ok run =>
    if (r.heap run).phase = .terminal then (r,.immediate (r.heap run).canonical)
    else
      ({ r.modify run (fun run => { run with waiters := run.waiters.insert firingId }) with
        waiterRuns := r.waiterRuns.insert firingId runId },.waiting run)

def detachWaiter (r : Registry) (firingId : String) : Registry × Answer :=
  match r.waiterRuns.lookup firingId with
  | none => (r,.flag false)
  | some runId =>
    let r := { r with waiterRuns := r.waiterRuns.erase firingId }
    match r.runs.lookup runId with
    | none => (r,.flag true)
    | some run => (r.modify run fun run => { run with waiters := run.waiters.erase firingId },.flag true)

/-- `M:reject`. -/
def reject (r : Registry) (runId message : String) : Registry × Answer :=
  match r.activeRuns.lookup runId with
  | none => (r,.unsettled)
  | some run =>
    if (r.heap run).phase ≠ .queued then (r,.unsettled)
    else
      let outcome := typedError "await_run_rejected" message runId (.str "rejected") (r.heap run).labels
      (r.finish runId run fun run => { run with
        status := "rejected", terminalStatus := .str "rejected", canonical := outcome, error := .str message },
        .settled run (sorted (r.heap run).waiters) outcome)

def terminalStatuses : List String := ["completed","failed","killed"]

/-- `M:settle`. -/
def settle (tostring : LuaValue → String) (r : Registry) (runId : String) (body : LuaValue) : Registry × Answer :=
  match r.activeRuns.lookup runId, body.get "status" with
  | some run, .str status =>
    if status ∉ terminalStatuses then (r,.unsettled)
    else
      let outcome := canonicalOutcome tostring body (r.heap run)
      (r.finish runId run fun run => { run with
        status := if status = "completed" then "completed" else "failed"
        terminalStatus := .str status
        canonicalBody := body
        canonical := outcome
        error := .nil
        durationMs := body.get "duration_ms" },.settled run (sorted (r.heap run).waiters) outcome)
  | _, _ => (r,.unsettled)

def claimDelivery (r : Registry) (runId : String) : Registry × Answer :=
  match r.runs.lookup runId with
  | none => (r,.flag false)
  | some run =>
    if (r.heap run).phase ≠ .terminal ∨ (r.heap run).relayDelivered then (r,.flag false)
    else (r.modify run fun run => { run with relayDelivered := true },.flag true)

/-- One round of `M:lose_authority`; the run is active then. -/
def loseRun (tostring : LuaValue → String) (reason : LuaValue)
    (s : Registry × List Nat × List (String × LuaValue)) (runId : String) :
    Registry × List Nat × List (String × LuaValue) :=
  let (r,lost,settlements) := s
  match r.activeRuns.lookup runId with
  | none => s
  | some run =>
    let message := tostring (reason.orElse (.str "MAG execution authority was lost"))
    let outcome := typedError "await_run_authority_lost" message runId (.str "unknown") (r.heap run).labels
    (r.finish runId run fun run => { run with
      status := "unknown"
      terminalStatus := .str "authority_lost"
      canonical := outcome
      canonicalBody := .nil
      error := .str message },
      lost ++ [run],settlements ++ (sorted (r.heap run).waiters).map fun firing => (firing,outcome))

/-- `M:lose_authority`. -/
def loseAuthority (tostring : LuaValue → String) (r : Registry) (reason : LuaValue) : Registry × Answer :=
  let (r,lost,settlements) := (sorted r.activeRuns.keys).foldl (loseRun tostring reason) (r,[],[])
  (r,.lost lost settlements)

/-- One round of `M:end_session`; the run is retained then. -/
def endRun (s : Registry × List String × List (String × LuaValue)) (runId : String) :
    Registry × List String × List (String × LuaValue) :=
  let (r,active,settlements) := s
  match r.runs.lookup runId with
  | none => s
  | some run =>
    if (r.heap run).phase = .terminal then (r.expire run,active,settlements)
    else
      let waiters := sorted (r.heap run).waiters
      ({ r with waiterRuns := waiters.foldl (fun waiterRuns firing => waiterRuns.erase firing) r.waiterRuns }.expire run,
        active ++ [runId],settlements ++ waiters.map fun firing => (firing,sessionEnded runId))

/-- `M:end_session`. -/
def endSession (r : Registry) (sessionId : LuaValue) : Registry × Answer :=
  let runIds := r.runs.keys.filter fun runId =>
    match r.runs.lookup runId with
    | none => false
    | some run => LuaValue.rawEq (.str (r.heap run).sessionId) sessionId
  let (r,active,settlements) := (sorted runIds).foldl endRun (r,[],[])
  (r,.ended active settlements)

end Registry

inductive Op
  | register (spec : Spec) (minted : String)
  | markRunning (runId : String)
  | markTerminating (runId : String) (reason : LuaValue)
  | await (runId : String) (sessionId : LuaValue) (firingId : String) (dispatcherId : LuaValue)
  | detachWaiter (firingId : String)
  | reject (runId message : String)
  | settle (runId : String) (body : LuaValue)
  | claimDelivery (runId : String)
  | loseAuthority (reason : LuaValue)
  | endSession (sessionId : LuaValue)

def Op.run (tostring : LuaValue → String) (r : Registry) : Op → Registry × Answer
  | register spec minted => r.register spec minted
  | markRunning runId => r.markRunning runId
  | markTerminating runId reason => r.markTerminating runId reason
  | await runId sessionId firingId dispatcherId => r.await runId sessionId firingId dispatcherId
  | detachWaiter firingId => r.detachWaiter firingId
  | reject runId message => r.reject runId message
  | settle runId body => r.settle tostring runId body
  | claimDelivery runId => r.claimDelivery runId
  | loseAuthority reason => r.loseAuthority tostring reason
  | endSession sessionId => r.endSession sessionId

/-- The registry after the calls. -/
def runAll (tostring : LuaValue → String) (r : Registry) (ops : List Op) : Registry :=
  ops.foldl (fun r op => (op.run tostring r).1) r

end Nefor.LeadWorkflow
