import Mathlib.Data.List.AList
import Nefor.ConversationManager.Domain
import Nefor.Lua.Table

/-! The commands that the actors of a run have open at the conversation manager and at providers
(`compaction-broker.lua`): reads, notices, compactions, and barriers over the facts that the run wrote. -/
namespace Nefor.Kernel
open Nefor.Lua Nefor.ConversationManager

/-- The operations of a facet. -/
inductive CommandOp
  | prepare
  | read
  | appendNotice
  | bindNotice
  | acknowledgeNotice
  | requestCompaction
  | cancelCompaction
  | barrier
  deriving DecidableEq, Repr

structure Command where
  op : CommandOp
  args : LuaValue
  owner : String
  /-- The writes that a barrier waits for. -/
  captured : List String := []

inductive WriteStatus
  | pending
  | accepted
  | rejected (error : LuaValue)

structure CanonicalWrite where
  conversationId : String
  status : WriteStatus

/-- A settled command in the queue, and whether its continuation is still there. -/
structure QueuedAnswer where
  id : String
  owner : String
  done : Bool
  outcome : LuaValue

inductive BrokerEvent
  | written (eventId conversationId : String)
  | recorded (eventId conversationId : String) (sequence : LuaNum)
  | rejected (eventId conversationId : String)
  | asked (id owner : String) (op : CommandOp) (args : LuaValue)
  | withdrawn (id : String)
  | cancelled (id : String) (conversationId reason : LuaValue)
  | answered (id owner : String) (outcome : LuaValue)
  deriving Repr

structure CompactionBroker where
  scope : String
  serial : Nat
  pending : AList fun _ : String => Command
  writes : AList fun _ : String => CanonicalWrite
  queue : List QueuedAnswer
  watermarks : AList fun _ : String => LuaNum
  cancellations : AList fun _ : String => String

/-- A string that a table is indexed with. -/
def keyText : LuaValue → Option String
  | .str s => some s
  | _ => none

/-- `math.max`. -/
def maxSequence (a b : LuaNum) : LuaNum := if a.lt b then b else a

/-- `event.sequence or 0`, for a number. -/
def sequenceOf : LuaValue → LuaNum
  | .num n => n
  | _ => .int 0

def okOutcome (value : LuaValue) : LuaValue := .record [("kind",.str "Ok"),("value",value)]

def failureOutcome (code context : LuaValue) : LuaValue :=
  .record [("kind",.str "Error"),("error",.record [("code",code),("context",context)])]

def watermarkOutcome (n : LuaNum) : LuaValue := okOutcome (.record [("watermark",.num n)])

def CommandOp.notice : CommandOp → Bool
  | appendNotice | bindNotice | acknowledgeNotice => true
  | _ => false

/-- `operations`. -/
def CommandOp.operation : CommandOp → String
  | appendNotice => "context_notice_appended"
  | bindNotice => "context_notice_included"
  | acknowledgeNotice => "context_notice_delivered"
  | _ => ""

/-- `commands`. A barrier is not sent. -/
def CommandOp.wire : CommandOp → Option String
  | prepare => some "conversation.compaction.prepare.request"
  | read => some "conversation.context.request"
  | appendNotice => some "conversation.context.notice.append"
  | bindNotice => some "conversation.context.notice.bind"
  | acknowledgeNotice => some "conversation.context.notice.acknowledge"
  | requestCompaction => some "conversation.context.compact.request"
  | cancelCompaction => some "conversation.context.compact.cancel"
  | barrier => none

/-- What is sent for a command. The pending command keeps the same table. -/
def CommandOp.input (op : CommandOp) (id : String) (args : LuaValue) : LuaValue :=
  match op.wire with
  | none => args
  | some kind =>
    let fields := args.fields.set "kind" (.str kind)
    .table false (if op.notice then fields.set "command_id" (.str id)
      else if op = .cancelCompaction then fields else fields.set "request_id" (.str id))

def Command.requestId (p : Command) : Option String := keyText (p.args.get "request_id")

def Command.conversationId (p : Command) : Option String := keyText (p.args.get "conversation_id")

namespace CompactionBroker

def new (scope : String) : CompactionBroker := ⟨scope,0,∅,∅,[],∅,∅⟩

/-- The cancellation of a request is no longer the open one. -/
def uncancel (b : CompactionBroker) (id : String) (p : Command) : AList fun _ : String => String :=
  match p.op, p.requestId with
  | .cancelCompaction, some request => if b.cancellations.lookup request = some id then b.cancellations.erase request else b.cancellations
  | _, _ => b.cancellations

def settle (b : CompactionBroker) (id : String) (outcome : LuaValue) : CompactionBroker :=
  match b.pending.lookup id with
  | none => b
  | some p => { b with
      pending := b.pending.erase id
      cancellations := b.uncancel id p
      queue := b.queue ++ [⟨id,p.owner,true,outcome⟩] }

/-- A pending command is given up. -/
def abandon (b : CompactionBroker) (id : String) (p : Command) : CompactionBroker :=
  { b with pending := b.pending.erase id, cancellations := b.uncancel id p }

def silence (queue : List QueuedAnswer) (gone : QueuedAnswer → Bool) : List QueuedAnswer :=
  queue.map fun entry => if gone entry then { entry with done := false } else entry

/-- What a barrier is settled with, once none of its writes is pending. -/
def verdict (b : CompactionBroker) (order : List String → List String) (p : Command) : Option LuaValue :=
  let status := fun eventId => (b.writes.lookup eventId).map CanonicalWrite.status
  if p.captured.any fun eventId => match status eventId with
    | some .pending => true
    | _ => false
  then none
  else match (order p.captured).reverse.filterMap fun eventId => match status eventId with
    | some (.rejected error) => some error
    | _ => none with
  | error :: _ => some (failureOutcome (error.get "code") (error.get "context"))
  | [] => some (watermarkOutcome ((p.conversationId.bind b.watermarks.lookup).getD (.int 0)))

def ready (b : CompactionBroker) (order : List String → List String) : List (String × LuaValue) :=
  (order b.pending.keys).filterMap fun id => match b.pending.lookup id with
    | some p => if p.op = .barrier then (b.verdict order p).map fun outcome => (id,outcome) else none
    | none => none

def needed (b : CompactionBroker) (eventId : String) : Bool :=
  b.pending.entries.any fun e => decide (eventId ∈ e.2.captured)

/-- The accepted writes that no barrier needs are forgotten. -/
def sweep (b : CompactionBroker) : CompactionBroker :=
  { b with writes := (b.writes.keys.filter fun eventId => match b.writes.lookup eventId with
      | some w => (match w.status with
        | .accepted => true
        | _ => false) && !b.needed eventId
      | none => false).foldl (fun writes eventId => writes.erase eventId) b.writes }

/-- `check_barriers`. -/
def checkBarriers (b : CompactionBroker) (order : List String → List String) : CompactionBroker :=
  ((b.ready order).foldl (fun b answer => b.settle answer.1 answer.2) b).sweep

/-- `broker.emit`. -/
def emit (b : CompactionBroker) (eventId conversationId : String) : CompactionBroker × List BrokerEvent :=
  ({ b with writes := match b.writes.lookup eventId with
      | some _ => b.writes
      | none => b.writes.insert eventId ⟨conversationId,.pending⟩ },[.written eventId conversationId])

def commandId (scope : String) (n : Nat) : String := scope ++ "/command-" ++ toString n

/-- Cancelling a compaction takes the request's own continuation away, and an earlier cancellation fails. -/
def supersede (b : CompactionBroker) (id request : String) : CompactionBroker × List BrokerEvent :=
  let b' := { b with
    pending := b.pending.erase request
    queue := silence b.queue fun entry => entry.id == request }
  let b' := match b'.cancellations.lookup request with
    | some previous => b'.settle previous (failureOutcome (.str "compaction_cancel_superseded") .nil)
    | none => b'
  ({ b' with cancellations := b'.cancellations.insert request id },[.withdrawn request])

/-- `register`. -/
def register (b : CompactionBroker) (order : List String → List String) (owner : String) (op : CommandOp)
    (args : LuaValue) : CompactionBroker × List BrokerEvent :=
  let serial := b.serial + 1
  let id := commandId b.scope serial
  let (b,events) := match op, keyText (args.get "request_id") with
    | .cancelCompaction, some request => b.supersede id request
    | _, _ => (b,[])
  let captured := if op = .barrier then b.writes.keys.filter fun eventId => match b.writes.lookup eventId with
      | some w => (LuaValue.str w.conversationId).rawEq (args.get "conversation_id")
      | none => false
    else []
  let input := op.input id args
  let b := { b with serial := serial, pending := b.pending.insert id ⟨op,input,owner,captured⟩ }
  (if op = .barrier then b.checkBarriers order else b,events ++ [.asked id owner op input])

/-- `facet.detach`. -/
def detach (b : CompactionBroker) (id : String) : CompactionBroker × List BrokerEvent :=
  let b' := match b.pending.lookup id with
    | some p => b.abandon id p
    | none => b
  ({ b' with queue := silence b'.queue fun entry => entry.id == id },[.withdrawn id])

def isRequest (p : Command) (id : String) (reason : LuaValue) : List BrokerEvent :=
  if p.op = .requestCompaction then [.cancelled id (p.args.get "conversation_id") reason] else []

def detachOwned (owner : String) (r : CompactionBroker × List BrokerEvent) (id : String) :
    CompactionBroker × List BrokerEvent :=
  match r.1.pending.lookup id with
  | some p =>
    if p.owner = owner then (r.1.abandon id p,r.2 ++ (isRequest p id (.str "Consumer detached") ++ [.withdrawn id])) else r
  | none => r

/-- `broker.detach_owner`. -/
def detachOwner (b : CompactionBroker) (order : List String → List String) (owner : String) :
    CompactionBroker × List BrokerEvent :=
  let (b,events) := (order b.pending.keys).foldl (detachOwned owner) (b,[])
  ({ b with queue := silence b.queue fun entry => entry.owner == owner },
    events ++ ((b.queue.filter fun entry => entry.owner == owner).map QueuedAnswer.id).map .withdrawn)

def interruptOne (reason : LuaValue) (r : CompactionBroker × List BrokerEvent) (id : String) :
    CompactionBroker × List BrokerEvent :=
  match r.1.pending.lookup id with
  | some p => (r.1.settle id (failureOutcome (.str "compaction_interrupted") (.record [("reason",reason)])),
      r.2 ++ isRequest p id reason)
  | none => r

/-- `broker.interrupt`. -/
def interrupt (b : CompactionBroker) (order : List String → List String) (reason : LuaValue) :
    CompactionBroker × List BrokerEvent :=
  let outcome := failureOutcome (.str "compaction_interrupted") (.record [("reason",reason)])
  let b := { b with queue := b.queue.map fun entry => { entry with outcome := outcome } }
  (order b.pending.keys).foldl (interruptOne reason) (b,[])

/-- One turn of `broker.pump`, up to the continuation. -/
def take (b : CompactionBroker) (live : Bool) : CompactionBroker × List BrokerEvent :=
  match b.queue with
  | [] => (b,[])
  | entry :: rest =>
    ({ b with queue := rest },
      if entry.done && live then [.answered entry.id entry.owner entry.outcome] else [.withdrawn entry.id])

/-- An accepted or a rejected write is settled, the first time it is heard of. -/
def receipt (b : CompactionBroker) (order : List String → List String) (body : LuaValue) (recorded : Bool) :
    CompactionBroker × List BrokerEvent :=
  let event := body.get "event"
  match keyText ((event.get "event_id").orElse (body.get "event_id")) with
  | none => (b,[])
  | some eventId => match b.writes.lookup eventId with
    | none => (b,[])
    | some w => match w.status with
      | .pending =>
        if (LuaValue.str w.conversationId).rawEq ((event.get "conversation_id").orElse (body.get "conversation_id")) then
          if recorded then
            let sequence := sequenceOf (event.get "sequence")
            let watermark := (b.watermarks.lookup w.conversationId).getD (.int 0)
            (({ b with
              writes := b.writes.insert eventId { w with status := .accepted }
              watermarks := b.watermarks.insert w.conversationId (maxSequence watermark sequence) }).checkBarriers order,
              [.recorded eventId w.conversationId sequence])
          else
            (({ b with writes := b.writes.insert eventId { w with status := .rejected body } }).checkBarriers order,
              [.rejected eventId w.conversationId])
        else (b,[])
      | _ => (b,[])

/-- The scope that an operation was asked for. -/
def matchesEvent (p : Command) (event : LuaValue) : Bool :=
  ["conversation_id","epoch_id","history_id","provider","model"].all fun field =>
    (p.args.get field).isNil || (p.args.get field).equal (event.get field)

/-- What a finished compaction says of the request that started it. -/
def finished (b : CompactionBroker) (event : LuaValue) : CompactionBroker :=
  let kind := event.get "kind"
  match keyText (event.get "request_id") with
  | none => b
  | some id => match b.pending.lookup id with
    | none => b
    | some p =>
      if p.op ≠ .requestCompaction || !matchesEvent p event then b
      else if kind.rawEq (.str "context_compaction_completed") then
        b.settle id (okOutcome (.record [("status",.str "compacted"),("request_id",.str id),("epoch_id",.str id),
          ("sequence",event.get "sequence")]))
      else if kind.rawEq (.str "context_compaction_failed") then
        b.settle id (.record [("kind",.str "Error"),
          ("error",(event.get "error").orElse (.record [("code",.str "compaction_failed")]))])
      else b

/-- The answer is about the command that it names. -/
def concerns (p : Command) (kind : String) (body : LuaValue) : Bool :=
  let conversation := (body.get "conversation_id").rawEq (p.args.get "conversation_id")
  (!(body.get "conversation_id").truthy || conversation) &&
  (!((body.get "command_id").truthy && (p.args.get "request_id").truthy) || (body.get "request_id").rawEq (p.args.get "request_id")) &&
  (kind ≠ "conversation.context.snapshot" || conversation) &&
  (kind ≠ "conversation.context.notice.accepted" || conversation && (body.get "receipt").isTable &&
    ["notice_id","epoch_id"].all fun field =>
      (p.args.get field).isNil || (p.args.get field).rawEq ((body.get "receipt").get field))

/-- The outcome of an answer to one command, if it settles it. -/
def outcomeOf (p : Command) (source kind : String) (body : LuaValue) : Option LuaValue :=
  if kind = "conversation.compaction.prepared" then
    let outcome := body.get "outcome"
    if p.op ≠ .prepare || !(LuaValue.str source).rawEq (p.args.get "provider") ||
        !(body.get "provider").rawEq (p.args.get "provider") || !outcome.isTable then none
    else if (outcome.get "kind").rawEq (.str "Ready") then some (okOutcome outcome)
    else if (outcome.get "kind").rawEq (.str "Error") then some outcome
    else none
  else if source ≠ "conversation-manager" then none
  else if kind = "conversation.query.rejected" then some (failureOutcome (body.get "code") (body.get "context"))
  else if kind = "conversation.context.snapshot" && p.op = .read then
    let context := body.get "context"
    if !(body.get "found").truthy || !context.isTable then some (failureOutcome (.str "conversation_not_found") .nil)
    else if numLt ((context.get "watermark").orElse (.num (.int 0))) ((p.args.get "min_watermark").orElse (.num (.int 0))) then
      some (failureOutcome (.str "conversation_watermark_stale") .nil)
    else some (okOutcome (.table false (context.fields.set "context" context)))
  else if kind = "conversation.context.notice.accepted" && p.op.notice then
    if (body.get "operation").rawEq (.str p.op.operation) then some (okOutcome (body.get "receipt")) else none
  else if kind = "conversation.context.notice.rejected" && p.op.notice then some (failureOutcome (body.get "code") .nil)
  else if kind = "conversation.context.compact.rejected" && (p.op = .requestCompaction || p.op = .cancelCompaction) then
    some (failureOutcome (body.get "code") (body.get "context"))
  else if kind = "conversation.context.compact.cancelled" && p.op = .cancelCompaction then some (okOutcome body)
  else none

/-- The command that an answer names; the receipt of a cancellation goes to the open cancellation. -/
def addressee (b : CompactionBroker) (kind : String) (body : LuaValue) : Option String :=
  let id := keyText ((body.get "command_id").orElse (body.get "request_id"))
  if kind = "conversation.context.compact.cancelled" || kind = "conversation.context.compact.rejected" then
    ((keyText (body.get "request_id")).bind b.cancellations.lookup).or id
  else id

def answer (b : CompactionBroker) (source kind : String) (body : LuaValue) : CompactionBroker :=
  match b.addressee kind body with
  | none => b
  | some id => match b.pending.lookup id with
    | none => b
    | some p =>
      if concerns p kind body then match outcomeOf p source kind body with
        | some outcome => b.settle id outcome
        | none => b
      else b

/-- `broker.event`. What it returns to the kernel is not needed here. -/
def event (b : CompactionBroker) (order : List String → List String) (source : String) (body : LuaValue) :
    CompactionBroker × List BrokerEvent :=
  match body.get "kind" with
  | .str kind =>
    if (body.get "replay").truthy then (b,[])
    else if source ≠ "conversation-manager" && kind ≠ "conversation.compaction.prepared" then (b,[])
    else if kind = "conversation.fact.recorded" then
      let (b,events) := b.receipt order body true
      (b.finished (body.get "event"),events)
    else if kind = "conversation.fact.rejected" then b.receipt order body false
    else (b.answer source kind body,[])
  | _ => (b,[])

/-- What may happen to a broker. A continuation that runs calls it again. -/
inductive Act
  | emit (eventId conversationId : String)
  | register (owner : String) (op : CommandOp) (args : LuaValue)
  | detach (id : String)
  | detachOwner (owner : String)
  | interrupt (reason : LuaValue)
  | take (live : Bool)
  | event (source : String) (body : LuaValue)

/-- `pairs` visits a table in some order. -/
def perform (b : CompactionBroker) (order : List String → List String) : Act → CompactionBroker × List BrokerEvent
  | .emit eventId conversationId => b.emit eventId conversationId
  | .register owner op args => b.register order owner op args
  | .detach id => b.detach id
  | .detachOwner owner => b.detachOwner order owner
  | .interrupt reason => b.interrupt order reason
  | .take live => b.take live
  | .event source body => b.event order source body

/-- A broker and all that it has said and heard. -/
structure Session where
  broker : CompactionBroker
  log : List BrokerEvent

inductive Next : Session → Act → Session → Prop
  | perform {s : Session} {act : Act} {order : List String → List String} : (∀ ids, (order ids).Perm ids) →
    Next s act ⟨(s.broker.perform order act).1,s.log ++ (s.broker.perform order act).2⟩

end CompactionBroker
end Nefor.Kernel
