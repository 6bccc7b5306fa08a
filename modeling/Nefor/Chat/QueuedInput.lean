import Mathlib.Data.List.Basic

/-! The rows of the chat transcript that show input before the conversation has it
(`chat/queued_input.lua`, and the user rows of `chat/entry.lua`). A submission is shown at once.
While a turn runs, submissions are gathered in one queued row; a row that has been sent waits, as
the pending row, for the message that echoes it. -/
namespace Nefor.Chat

inductive Role
  | user
  | system
  | assistant
  | tool
  | graph
  deriving DecidableEq, Repr

/-- A row of the transcript, as far as the functions of this module read it. -/
structure Entry where
  role : Option Role
  text : String := ""
  localId : Option String := none
  submissionIds : Option (List String) := none
  messageId : Option String := none
  turnId : Option String := none
  deriving DecidableEq, Repr

namespace Entry

/-- The submissions of a row; a row that has none carries no list. -/
def ids (entry : Entry) : List String := entry.submissionIds.getD []

/-- `next_local_id`, at the given count. -/
def nextLocalId (count : Nat) : String := "chat-local-entry-" ++ toString count

/-- `Entry.user`. -/
def user (count : Nat) (text : String) (submissionId : Option String) : Entry :=
  { role := some .user
    text := text
    localId := some (nextLocalId count)
    submissionIds := some [submissionId.getD (nextLocalId count)] }

/-- `Entry.set_text`. -/
def setText (entry : Entry) (text : String) : Entry := { entry with text := text }

/-- `Entry.bind_canonical`. -/
def bindCanonical (entry : Entry) (messageId turnId : Option String) : Entry :=
  { entry with messageId := messageId, turnId := turnId }

end Entry

namespace QueuedInput

/-- The part of the state of the chat surface that the functions read and write. Positions count
from 0. `localIdentity` is the counter of `entry.lua`. -/
structure State where
  entries : List Entry := []
  inputValue : Option String := none
  inFlight : Option Nat := none
  queuedEntryId : Option String := none
  pendingSubmissionIds : Option (List String) := none
  pendingUserEchoId : Option String := none
  localIdentity : Nat := 0
  deriving DecidableEq, Repr

/-- `owned_index`, with the row that stands there. -/
def owned (state : State) (ownerId : Option String) : Option (Nat × Entry) :=
  match ownerId with
  | none => none
  | some id =>
    match state.entries.findIdx? (fun entry => entry.localId == some id) with
    | none => none
    | some idx => state.entries[idx]?.map fun entry => (idx,entry)

/-- `push_entry` of a row of the user, which takes the next local id. -/
def pushUser (state : State) (text : String) (submissionId : Option String) : Entry × State :=
  let entry := Entry.user (state.localIdentity + 1) text submissionId
  (entry,{ state with entries := state.entries ++ [entry], localIdentity := state.localIdentity + 1 })

/-- `join_with_one_space`. -/
def joinWithOneSpace (left right : String) : String :=
  if left = "" then right else if right = "" then left ++ " " else left ++ " " ++ right

/-- The row that waits for its echo. -/
def setPending (state : State) (entry : Entry) : State :=
  { state with pendingSubmissionIds := entry.submissionIds, pendingUserEchoId := entry.localId }

/-- `M.submit`. -/
def submit (state : State) (text : String) (busy : Bool) (submissionId : Option String) : State :=
  if busy then
    match owned state state.queuedEntryId with
    | some (idx,old) =>
      let entry := { old.setText (old.text ++ "\n" ++ text) with
        submissionIds := some (old.ids ++ submissionId.toList) }
      { state with entries := state.entries.set idx entry }
    | none =>
      let (entry,state) := pushUser state text submissionId
      { state with queuedEntryId := entry.localId }
  else
    let (entry,state) := pushUser state text submissionId
    setPending state entry

/-- The end of `M.accept_steered`: `row` goes to the end of the transcript and waits for its echo.
What is left of the queued row, which stood at `idx`, stays where it was. -/
def promote (state : State) (idx : Nat) (remainder : Option Entry) (row : Entry) : State :=
  let entries := match remainder with
    | some entry => state.entries.set idx entry
    | none => state.entries.eraseIdx idx
  setPending
    { state with
      entries := entries ++ [row]
      queuedEntryId := remainder.bind (·.localId)
      inFlight := match state.inFlight with
        | none => none
        | some i =>
          if idx < i ∧ remainder.isNone then some (i - 1) else if i = idx then none else some i }
    row

/-- `M.accept_steered`. -/
def acceptSteered (state : State) (submissionIds : Option (List String)) (text : Option String) :
    State × Bool :=
  match owned state state.queuedEntryId with
  | none => (state,false)
  | some (idx,queued) =>
    match submissionIds with
    | none => (promote state idx none queued,true)
    | some ids =>
      if ids = [] ∨ queued.ids.length < ids.length then (state,false)
      else if !ids.isPrefixOf queued.ids then (state,false)
      else if ids.length < queued.ids.length then
        match text with
        | none => (state,false)
        | some text =>
          if !(text ++ "\n").toList.isPrefixOf queued.text.toList then (state,false)
          else
            let remainder :=
              { queued.setText (String.ofList (queued.text.toList.drop (text ++ "\n").toList.length)) with
                submissionIds := some (queued.ids.drop ids.length) }
            let row := { Entry.user (state.localIdentity + 1) text ids.head? with
              submissionIds := some ids }
            let state := { state with localIdentity := state.localIdentity + 1 }
            (promote state idx (some remainder) row,true)
      else (promote state idx none queued,true)

/-- `M.observe_external_submit`. -/
def observeExternalSubmit (state : State) (text : String) (submissionId : Option String) :
    State × Bool :=
  match submissionId with
  | none => (state,false)
  | some id =>
    if id ∈ state.pendingSubmissionIds.getD [] then (state,true)
    else
      let (entry,state) := pushUser state text (some id)
      (setPending state entry,true)

/-- The position of the row in flight after the row at `idx` has gone. -/
def shiftInFlight (inFlight : Option Nat) (idx : Nat) : Option Nat :=
  inFlight.map fun i => if idx < i then i - 1 else i

/-- The second half of `M.reconcile_echo`: the pending row, if all its submissions are echoed,
is bound to the message and goes to the end of the transcript. -/
def acknowledge (state : State) (submissionIds : List String) (messageId turnId : Option String) :
    State × Bool :=
  let pending := state.pendingSubmissionIds.getD []
  if pending = [] ∨ ¬ pending ⊆ submissionIds then (state,false)
  else
    let cleared := { state with pendingSubmissionIds := none, pendingUserEchoId := none }
    match owned state state.pendingUserEchoId with
    | none => (cleared,false)
    | some (idx,row) =>
      if row.role = some .user then
        ({ cleared with
          entries := state.entries.eraseIdx idx ++ [row.bindCanonical messageId turnId]
          inFlight := shiftInFlight state.inFlight idx },true)
      else (cleared,false)

/-- `M.reconcile_echo`. The message can come before the receipt that promotes the queue; then it
promotes the part of the queue that it names. -/
def reconcileEcho (state : State) (submissionIds : Option (List String))
    (messageId turnId text : Option String) : State × Bool :=
  match submissionIds with
  | none => (state,false)
  | some ids =>
    let state := match owned state state.queuedEntryId with
      | none => state
      | some (_,queued) =>
        if ids.head? = queued.ids.head? then (acceptSteered state (some ids) text).1 else state
    acknowledge state ids messageId turnId

/-- `M.restore`. -/
def restore (state : State) : State × Bool :=
  match owned state state.queuedEntryId with
  | none => (state,false)
  | some (idx,queued) =>
    ({ state with
      entries := state.entries.eraseIdx idx
      queuedEntryId := none
      pendingSubmissionIds := none
      pendingUserEchoId := none
      inFlight := shiftInFlight state.inFlight idx
      inputValue := some (joinWithOneSpace queued.text (state.inputValue.getD "")) },true)

/-- A call of one of the functions; a submission comes with its id, a message with its own. -/
inductive Op
  | submit (text : String) (busy : Bool) (submissionId : String)
  | observeExternalSubmit (text submissionId : String)
  | acceptSteered (submissionIds : Option (List String)) (text : Option String)
  | restore
  | reconcileEcho (submissionIds : Option (List String)) (messageId : String)
      (turnId text : Option String)
  deriving DecidableEq, Repr

def Op.run (state : State) : Op → State
  | .submit text busy id => QueuedInput.submit state text busy (some id)
  | .observeExternalSubmit text id => (QueuedInput.observeExternalSubmit state text (some id)).1
  | .acceptSteered ids text => (QueuedInput.acceptSteered state ids text).1
  | .restore => (QueuedInput.restore state).1
  | .reconcileEcho ids messageId turnId text =>
    (QueuedInput.reconcileEcho state ids (some messageId) turnId text).1

def runAll (state : State) (ops : List Op) : State := ops.foldl Op.run state

end QueuedInput
end Nefor.Chat
