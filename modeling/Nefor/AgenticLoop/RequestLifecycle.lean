import Mathlib.Data.Finset.Basic
import Mathlib.Data.List.AList
import Nefor.Lua.Value

/-! The accounting of accepted chat requests (`request-lifecycle.lua`). Every call carries the answers that
`blocked` gives while it runs. -/
namespace Nefor.AgenticLoop
open Nefor.Lua

structure Terminal where
  status : String
  answer : LuaValue
  error : LuaValue

structure Outcome where
  status : String
  error : LuaValue

structure Request where
  requestId : String
  sessionId : LuaValue
  obligations : Finset String
  terminal : Option Terminal
  outcome : Option Outcome
  forced : Option Terminal
  completed : Bool

/-- `agentic_loop.request_completed`. -/
structure RequestCompleted where
  requestId : String
  sessionId : LuaValue
  status : String
  answer : LuaValue
  error : LuaValue

/-- The registry, and what it has emitted. -/
structure Lifecycle where
  requests : AList fun _ : String => Request
  emitted : List RequestCompleted

/-- Every named request once, in the order of the first mentions. -/
def copyIds (ids : List String) : List String := (ids.filter fun id => id ≠ "").reverse.dedup.reverse

namespace Request

def new (requestId : String) (sessionId : LuaValue) : Request where
  requestId := requestId
  sessionId := sessionId
  obligations := ∅
  terminal := none
  outcome := none
  forced := none
  completed := false

def completion (request : Request) (terminal : Terminal) : RequestCompleted where
  requestId := request.requestId
  sessionId := request.sessionId
  status := terminal.status
  answer := terminal.answer.orElse (.str "")
  error := terminal.error

def acquire (obligation : String) (request : Request) : Request :=
  if request.completed then request else { request with obligations := insert obligation request.obligations }

def setTerminal (status : String) (answer error : LuaValue) (request : Request) : Request :=
  if request.completed then request
  else match request.forced, request.outcome with
    | some forced, _ => { request with terminal := some forced }
    | none, some outcome => { request with terminal := some ⟨outcome.status,answer,outcome.error⟩ }
    | none, none => { request with terminal := some ⟨status,answer,error⟩ }

def recordOutcome (status : String) (error : LuaValue) (request : Request) : Request :=
  if request.completed ∨ request.forced.isSome then request
  else if request.outcome.isNone ∨ status = "interrupted" then
    { request with
      outcome := some ⟨status,error⟩
      terminal := request.terminal.map fun terminal => ⟨status,terminal.answer,error⟩ }
  else request

def force (status : String) (error : LuaValue) (request : Request) : Request :=
  if request.completed then request
  else { request with forced := some ⟨status,.str "",error⟩, terminal := some ⟨status,.str "",error⟩ }

def recheck (blocked : Bool) (request : Request) : Request × List RequestCompleted :=
  match request.terminal with
  | none => (request,[])
  | some terminal =>
    if request.completed ∨ request.obligations.Nonempty ∨ blocked then (request,[])
    else ({ request with completed := true },[request.completion terminal])

def release (obligation : String) (blocked : Bool) (request : Request) : Request × List RequestCompleted :=
  if request.completed ∨ obligation ∉ request.obligations then (request,[])
  else recheck blocked { request with obligations := request.obligations.erase obligation }

def authorityLost (error : LuaValue) (request : Request) : Request × List RequestCompleted :=
  if request.completed then (request,[])
  else
    let forced : Terminal := ⟨"error",.str "",error⟩
    ({ request with forced := some forced, terminal := some forced, obligations := ∅, completed := true },
      [request.completion forced])

end Request

namespace Lifecycle

def new : Lifecycle := ⟨∅,[]⟩

/-- What a call does to one request, if it is there. -/
def onRequest (lifecycle : Lifecycle) (id : String) (f : Request → Request × List RequestCompleted) : Lifecycle :=
  match lifecycle.requests.lookup id with
  | none => lifecycle
  | some request => ⟨lifecycle.requests.insert id (f request).1,lifecycle.emitted ++ (f request).2⟩

/-- A request has to be named; its session is that of the call that accepts it. -/
def accept (lifecycle : Lifecycle) (id : String) (sessionId : LuaValue) : Lifecycle :=
  if id = "" ∨ (lifecycle.requests.lookup id).isSome then lifecycle
  else { lifecycle with requests := lifecycle.requests.insert id (Request.new id sessionId) }

def acquire (lifecycle : Lifecycle) (id obligation : String) (sessionId : LuaValue) : Lifecycle :=
  (lifecycle.accept id sessionId).onRequest id fun request => (request.acquire obligation,[])

def acquireAll (lifecycle : Lifecycle) (ids : List String) (obligation : String) (sessionId : LuaValue) : Lifecycle :=
  (copyIds ids).foldl (fun lifecycle id => lifecycle.acquire id obligation sessionId) lifecycle

def setTerminal (lifecycle : Lifecycle) (ids : List String) (status : String) (answer error : LuaValue) : Lifecycle :=
  (copyIds ids).foldl (fun lifecycle id => lifecycle.onRequest id fun request => (request.setTerminal status answer error,[])) lifecycle

def recordOutcome (lifecycle : Lifecycle) (ids : List String) (status : String) (error : LuaValue) : Lifecycle :=
  (copyIds ids).foldl (fun lifecycle id => lifecycle.onRequest id fun request => (request.recordOutcome status error,[])) lifecycle

def force (lifecycle : Lifecycle) (id status : String) (error : LuaValue) : Lifecycle :=
  lifecycle.onRequest id fun request => (request.force status error,[])

def recheck (lifecycle : Lifecycle) (id : String) (blocked : String → Bool) : Lifecycle :=
  lifecycle.onRequest id (Request.recheck (blocked id))

def release (lifecycle : Lifecycle) (id obligation : String) (blocked : String → Bool) : Lifecycle :=
  lifecycle.onRequest id (Request.release obligation (blocked id))

def releaseAll (lifecycle : Lifecycle) (ids : List String) (obligation : String) (blocked : String → Bool) : Lifecycle :=
  (copyIds ids).foldl (fun lifecycle id => lifecycle.release id obligation blocked) lifecycle

/-- `pairs` visits every request once, in an order that Lua leaves open. -/
def recheckAll (lifecycle : Lifecycle) (blocked : String → Bool) : Lifecycle :=
  lifecycle.requests.keys.foldl (fun lifecycle id => lifecycle.recheck id blocked) lifecycle

def authorityLost (lifecycle : Lifecycle) (error : LuaValue) : Lifecycle :=
  lifecycle.requests.keys.foldl (fun lifecycle id => lifecycle.onRequest id (Request.authorityLost error)) lifecycle

end Lifecycle

inductive Call
  | accept (id : String) (sessionId : LuaValue)
  | acquire (id obligation : String) (sessionId : LuaValue)
  | acquireAll (ids : List String) (obligation : String) (sessionId : LuaValue)
  | setTerminal (ids : List String) (status : String) (answer error : LuaValue)
  | recordOutcome (ids : List String) (status : String) (error : LuaValue)
  | force (id status : String) (error : LuaValue)
  | release (id obligation : String) (blocked : String → Bool)
  | releaseAll (ids : List String) (obligation : String) (blocked : String → Bool)
  | recheck (id : String) (blocked : String → Bool)
  | recheckAll (blocked : String → Bool)
  | authorityLost (error : LuaValue)

def Call.run (lifecycle : Lifecycle) : Call → Lifecycle
  | accept id sessionId => lifecycle.accept id sessionId
  | acquire id obligation sessionId => lifecycle.acquire id obligation sessionId
  | acquireAll ids obligation sessionId => lifecycle.acquireAll ids obligation sessionId
  | setTerminal ids status answer error => lifecycle.setTerminal ids status answer error
  | recordOutcome ids status error => lifecycle.recordOutcome ids status error
  | force id status error => lifecycle.force id status error
  | release id obligation blocked => lifecycle.release id obligation blocked
  | releaseAll ids obligation blocked => lifecycle.releaseAll ids obligation blocked
  | recheck id blocked => lifecycle.recheck id blocked
  | recheckAll blocked => lifecycle.recheckAll blocked
  | authorityLost error => lifecycle.authorityLost error

def Lifecycle.runs (calls : List Call) : Lifecycle := calls.foldl Call.run Lifecycle.new

end Nefor.AgenticLoop
