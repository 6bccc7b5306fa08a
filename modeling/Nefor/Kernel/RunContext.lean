import Nefor.Kernel.OutputPersistence

/-! The terminal settlement of one run: outputs and their files, the accepted result, its
completion, and the reply of the host (`init.lua`, `routing.lua` and `runtime.rs`). -/
namespace Nefor.Kernel
open Nefor.Lua

/-- The condition of an operation on outputs. -/
structure Operation where
  id : String
  endpoint : String
  wire : String
  type : LuaValue
  deriving Repr

/-- A run's identity and what does not change during the run. -/
structure RunMeta where
  runId : String
  sessionId : Option String
  /-- The library that writes outputs could be loaded. -/
  persistence : Bool
  operations : List Operation
  /-- `semantic_type.accepts` of the host. -/
  accepts : LuaValue → LuaValue → Bool

structure Completion where
  outputPath : Option String
  persisted : Bool
  result : LuaValue

structure Settlement where
  fromNode : String
  result : LuaValue
  persistedResult : LuaValue
  completion : Option Completion

/-- What is written for an accepted result. -/
def Settlement.output (settlement : Settlement) : LuaValue := settlement.persistedResult.orElse settlement.result

structure RunFailure where
  error : String
  failure : String
  fromNode : String

inductive RunEvent
  | runComplete (fromNode : String) (result : LuaValue) (outputPath : Option String) (persisted : Bool)
  | settlementIgnored (fromNode acceptedFrom reason : String)
  | runFailed (failure : RunFailure)
  | other (kind : String)

structure OperationTrigger where
  operation : Operation
  emissionSeq : Nat
  endpoint : String
  wire : String
  value : LuaValue

/-- The terminal reply of the host. -/
structure Reply where
  status : String
  error : Option String
  failure : Option String
  persisted : Option Bool
  outputPath : Option String
  result : Option LuaValue

/-- One write that a run made, and the file that holds its output. -/
structure Write where
  node : String
  output : LuaValue
  ofResult : Bool
  landed : Option String

/-- The context of a run, with the events and replies that have left it. The writes are what
happened to the files; nothing reads them. -/
structure RunContext where
  lastOutputPath : Option String
  runComplete : Option Completion
  runCompleteTaken : Bool
  terminalSettlement : Option Settlement
  runFailed : Option RunFailure
  operationQueue : List OperationTrigger
  operationDraining : Bool
  pendingCompletion : Option Settlement
  emissionSeq : Nat
  operationError : Option String
  operationFailed : Bool
  outputFailed : Bool
  emitted : List RunEvent
  active : Bool
  replies : List Reply
  writes : List Write

namespace RunContext

def new : RunContext := {
  lastOutputPath := none
  runComplete := none
  runCompleteTaken := false
  terminalSettlement := none
  runFailed := none
  operationQueue := []
  operationDraining := false
  pendingCompletion := none
  emissionSeq := 0
  operationError := none
  operationFailed := false
  outputFailed := false
  emitted := []
  active := true
  replies := []
  writes := []
}

def emitEvent (event : RunEvent) (ctx : RunContext) : RunContext :=
  match event with
  | .runComplete fromNode result _ _ =>
    { ctx with emitted := ctx.emitted ++ [.runComplete fromNode result ctx.lastOutputPath ctx.lastOutputPath.isSome] }
  | .runFailed failure => { ctx with runFailed := some failure, emitted := ctx.emitted ++ [.runFailed failure] }
  | event => { ctx with emitted := ctx.emitted ++ [event] }

section
variable (run : RunMeta) (host : Host)

def persistBody (node : String) : PersistBody := {
  runId := run.runId
  runName := run.runId
  sessionId := run.sessionId
  nodeId := node
}

/-- `persist_output`, with what it returns. -/
def persistOutput (ofResult : Bool) (node : String) (output : LuaValue) (ctx : RunContext) : RunContext × LuaValue :=
  if run.persistence then
    let body := persistBody run node
    let persisted := persist host body output
    let writes := ctx.writes ++ [⟨node,output,ofResult,landedPath host body output⟩]
    match pathOf persisted with
    | some path => ({ ctx with lastOutputPath := some path, writes := writes },persisted)
    | none => ({ ctx with writes := writes },.nil)
  else ({ ctx with writes := ctx.writes ++ [⟨node,output,ofResult,none⟩] },.nil)

def publishCompletion (settlement : Settlement) (ctx : RunContext) : RunContext :=
  let ctx := (persistOutput run host true settlement.fromNode settlement.output ctx).1
  let completion : Completion := {
    outputPath := ctx.lastOutputPath
    persisted := ctx.lastOutputPath.isSome
    result := settlement.result
  }
  emitEvent (.runComplete settlement.fromNode completion.result none completion.persisted)
    { ctx with
      terminalSettlement := some { settlement with completion := some completion }
      runComplete := some completion }

def settleResult (node : String) (result persistedResult : LuaValue) (ctx : RunContext) : RunContext :=
  if ctx.operationError.isSome || ctx.operationFailed then ctx
  else match ctx.terminalSettlement.or ctx.pendingCompletion with
    | some accepted => emitEvent (.settlementIgnored node accepted.fromNode "already_settled") ctx
    | none =>
      let settlement : Settlement := ⟨node,result,persistedResult,none⟩
      if !run.operations.isEmpty || ctx.operationDraining || !ctx.operationQueue.isEmpty then
        { ctx with pendingCompletion := some settlement }
      else publishCompletion run host settlement ctx

def settleQuiescent (ctx : RunContext) : RunContext :=
  if ctx.operationFailed then { ctx with pendingCompletion := none, runComplete := none }
  else match ctx.pendingCompletion with
    | some settlement =>
      if !ctx.operationDraining && ctx.operationQueue.isEmpty then
        publishCompletion run host settlement { ctx with pendingCompletion := none }
      else ctx
    | none => ctx

/-- An output as it is observed. -/
structure Arrival where
  type : LuaValue
  typeId : LuaValue
  constructorId : LuaValue
  arrivalId : LuaValue
  payload : Fields

def Arrival.observed (source : Arrival) : LuaValue :=
  .table false ((((source.payload.set "semantic_type" source.type).set "semantic_type_id" source.typeId).set
    "constructor_id" source.constructorId).set "arrival_id" source.arrivalId)

def triggers (endpoint wire : String) (output : LuaValue) (emissionSeq : Nat) : List OperationTrigger :=
  (run.operations.filter fun operation =>
    operation.endpoint == endpoint && operation.wire == wire && run.accepts operation.type (output.get "semantic_type")).map
    fun operation => ⟨operation,emissionSeq,endpoint,wire,
      if (output.get "semantic_value").isNil then output.get "value" else output.get "semantic_value"⟩

/-- `observe_typed_output`, when it does not refuse the output. -/
def observeTypedOutput (endpoint wire : String) (output : LuaValue) (ctx : RunContext) : Option RunContext :=
  if ctx.operationFailed || ctx.runFailed.isSome then none
  else some { ctx with
    emissionSeq := ctx.emissionSeq + 1
    operationQueue := ctx.operationQueue ++ triggers run endpoint wire output (ctx.emissionSeq + 1) }

/-- `route_output`, with the values that leaves of the result boundary make of the output. -/
def routeOutput (node wire : String) (source : Arrival) (results : List LuaValue) (ctx : RunContext) : RunContext :=
  match observeTypedOutput run node wire source.observed ctx with
  | none => ctx
  | some ctx =>
    if results.isEmpty then (persistOutput run host false node source.observed ctx).1
    else results.foldl (fun ctx result => settleResult run host node result result ctx) ctx

end

/-! The host. -/

def runResultOk (rc : Completion) : Reply := {
  status := "completed"
  error := none
  failure := none
  persisted := some rc.persisted
  outputPath := rc.outputPath
  result := if rc.result.isNil then none else some rc.result
}

def runResultFailed (error : String) : Reply := {
  status := "failed"
  error := some error
  failure := none
  persisted := none
  outputPath := none
  result := none
}

def deliveryFailureReply (rc : Completion) : Reply :=
  { runResultFailed "output admission failed; earlier or external effects may have occurred" with
    failure := some "output_delivery"
    persisted := some rc.persisted
    outputPath := rc.outputPath }

def takeRunComplete (ctx : RunContext) : Option Completion := if ctx.runCompleteTaken then none else ctx.runComplete

def outputEvidence (ctx : RunContext) : Completion := ⟨ctx.lastOutputPath,ctx.lastOutputPath.isSome,.nil⟩

def send (reply : Reply) (ctx : RunContext) : RunContext :=
  { ctx with active := false, replies := ctx.replies ++ [reply] }

def settleRun (ctx : RunContext) : RunContext :=
  if ctx.active then
    match ctx.takeRunComplete with
    | some rc => send (if ctx.outputFailed then deliveryFailureReply rc else runResultOk rc)
        { ctx with runCompleteTaken := true }
    | none =>
      if ctx.outputFailed then send (deliveryFailureReply ctx.outputEvidence) ctx
      else match ctx.runFailed with
        | some failure => send (runResultFailed failure.error) { ctx with runFailed := none }
        | none => ctx
  else ctx

/-! Runs. -/

/-- What happens in a run, in any order that the code can follow. A drain of the operations is
entered, takes one trigger after another, each of which may fail after more outputs, and ends. -/
inductive Act
  | output (host : Host) (node wire : String) (source : Arrival) (results : List LuaValue)
  | write (host : Host) (node : String) (output : LuaValue)
  | settle (host : Host) (node : String) (result persistedResult : LuaValue)
  | event (kind : String)
  | fail (failure : RunFailure)
  | drain
  | trigger
  | triggerFailed (error : String)
  | drained (host : Host)
  | failOutput
  | settleRun

def triggerFailed (error : String) (ctx : RunContext) : RunContext :=
  { ctx with
    operationError := some error
    operationFailed := true
    operationQueue := []
    pendingCompletion := none
    runComplete := none
    runFailed := some ⟨error,"operation","mag.operation"⟩ }

inductive Next (run : RunMeta) : RunContext → Act → RunContext → Prop
  | output {ctx : RunContext} {host : Host} {node wire : String} {source : Arrival} {results : List LuaValue} :
    Next run ctx (.output host node wire source results) (routeOutput run host node wire source results ctx)
  | write {ctx : RunContext} {host : Host} {node : String} {output : LuaValue} :
    Next run ctx (.write host node output) (persistOutput run host false node output ctx).1
  | settle {ctx : RunContext} {host : Host} {node : String} {result persistedResult : LuaValue} :
    Next run ctx (.settle host node result persistedResult) (settleResult run host node result persistedResult ctx)
  | event {ctx : RunContext} {kind : String} : Next run ctx (.event kind) (emitEvent (.other kind) ctx)
  | fail {ctx : RunContext} {failure : RunFailure} : Next run ctx (.fail failure) (emitEvent (.runFailed failure) ctx)
  | drain {ctx : RunContext} : ctx.operationDraining = false → ctx.operationFailed = false →
    Next run ctx .drain { ctx with operationDraining := true }
  | trigger {ctx : RunContext} : ctx.operationDraining = true → ctx.operationFailed = false → ctx.operationQueue ≠ [] →
    Next run ctx .trigger { ctx with operationQueue := ctx.operationQueue.tail }
  | triggerFailed {ctx : RunContext} {error : String} : ctx.operationDraining = true → ctx.operationFailed = false →
    Next run ctx (.triggerFailed error) (triggerFailed error ctx)
  | drained {ctx : RunContext} {host : Host} : ctx.operationDraining = true →
    (ctx.operationFailed = true ∨ ctx.operationQueue = []) →
    Next run ctx (.drained host) (settleQuiescent run host { ctx with operationDraining := false })
  | failOutput {ctx : RunContext} : Next run ctx .failOutput { ctx with outputFailed := true }
  | settleRun {ctx : RunContext} : Next run ctx .settleRun ctx.settleRun

end RunContext
end Nefor.Kernel
