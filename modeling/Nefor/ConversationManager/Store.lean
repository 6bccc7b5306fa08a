import Nefor.ConversationManager.Domain

/-! The conversation store of `init.lua`: appending facts, applying recorded events and
replaying a log. `tostring` is Lua's own, which fingerprints use for numbers and handles. -/
namespace Nefor.ConversationManager
open Nefor.Lua Nefor.Action

/-- `canonical` of a table key. -/
def canonicalKey (tostring : LuaValue → String) : LuaKey → String
  | .str s => "s:" ++ toString s.utf8ByteSize ++ ":" ++ s
  | .int i => "n:" ++ tostring (.num (.int i))

mutual
/-- The text of a value that does not depend on the order of its table entries. -/
def canonical (tostring : LuaValue → String) : LuaValue → String
  | .nil => "nil"
  | .bool b => if b then "b:1" else "b:0"
  | .num n => "n:" ++ tostring (.num n)
  | .str s => "s:" ++ toString s.utf8ByteSize ++ ":" ++ s
  | .userdata id => "userdata:" ++ tostring (.userdata id)
  | .table _ entries =>
    let parts := (canonicalEntries tostring entries).mergeSort fun a b => decide (a.1 ≤ b.1)
    "t:\x7b" ++ String.join (parts.map fun p => p.1 ++ "=" ++ p.2 ++ ";") ++ "\x7d"
def canonicalEntries (tostring : LuaValue → String) :
    List (LuaKey × LuaValue) → List (String × String)
  | [] => []
  | (k,v) :: rest => (canonicalKey tostring k,canonical tostring v) ::
      canonicalEntries tostring rest
end

/-- `fingerprint`: the length of the canonical text and two rolling hashes of its bytes. -/
def fingerprint (tostring : LuaValue → String) (value : LuaValue) : String :=
  let encoded := (canonical tostring value).toUTF8.toList
  let hashes := encoded.foldl (fun (h : Nat × Nat) byte =>
    ((h.1 * 131 + byte.toNat) % 2147483647,(h.2 * 257 + byte.toNat) % 2147483629))
    (2166136261,16777619)
  toString encoded.length ++ ":" ++ toString hashes.1 ++ ":" ++ toString hashes.2

structure IndexEntry where
  conversationId : String
  sequence : LuaValue
  factFingerprint : String
  eventFingerprint : String
  deriving Repr

structure Store where
  conversations : List (String × Conversation) := []
  eventIndex : List (String × IndexEntry) := []
  foldCount : Nat := 0
  deriving Repr

/-- What an accepted call returns. -/
structure Accepted where
  conversation : Option Conversation
  duplicate : Bool
  event : Fields
  deriving Repr

/-- The sequence number that continues a conversation. -/
def nextSequence : Option Conversation → LuaNum
  | some c => c.lastSequence.succ
  | none => .int 1

/-- Fold one event into its conversation. The conversation table is shared, so what the
handler wrote stays even when the fold ends with an error. -/
def foldStore (conversationId : String) (event : Fields) : Action Store Fault Fields := fun s =>
  let r := fold (s.conversations.lookup conversationId) event
  (r.1,{ s with
    foldCount := s.foldCount + 1
    conversations := match r.2 with
      | some c => assign s.conversations conversationId c
      | none => s.conversations })

def indexEvent (eventId : String) (entry : IndexEntry) (s : Store) : Store :=
  { s with eventIndex := assign s.eventIndex eventId entry }

/-- The fact that a recorded event stands for. -/
def factOf (event : Fields) : Fields :=
  let fact := event.unset "sequence"
  if (event.get "kind").rawEq (.str "message_started") then fact.unset "history_id" else fact

section Store
variable (tostring : LuaValue → String)

/-- The event id and the conversation id that every fact and event must carry. -/
def requireIdentity (event : LuaValue) : Action Store Fault (String × String) := do
  require event.isTable (.rejected "invalid_event" [("value_type",.str event.typeName)])
  let eventId ← need (asId (event.get "event_id"))
    (.rejected "invalid_event_id" [("kind",event.get "kind")])
  let conversationId ← need (asId (event.get "conversation_id"))
    (.rejected "invalid_conversation_id" [("kind",event.get "kind")])
  pure (eventId,conversationId)

def idConflict (eventId conversationId : String) (prior : IndexEntry) : Fault :=
  .rejected "event_id_conflict" [("event_id",.str eventId),
    ("existing_conversation_id",.str prior.conversationId),
    ("conversation_id",.str conversationId)]

/-- `append_to`. -/
def appendTo (fact : LuaValue) : Action Store Fault Accepted := do
  let (eventId,conversationId) ← requireIdentity fact
  require (fact.get "sequence").isNil (.rejected "sequence_manager_owned"
    [("conversation_id",.str conversationId),("event_id",.str eventId),
      ("sequence",fact.get "sequence")])
  let s ← read
  match s.eventIndex.lookup eventId with
  | some prior =>
    require (decide (prior.factFingerprint = fingerprint tostring fact))
      (idConflict eventId conversationId prior)
    pure ⟨s.conversations.lookup prior.conversationId,true,
      fact.fields.set "sequence" prior.sequence⟩
  | none =>
    let sequence := .num (nextSequence (s.conversations.lookup conversationId))
    let event ← foldStore conversationId (fact.fields.set "sequence" sequence)
    update (indexEvent eventId {
      conversationId := conversationId
      sequence := sequence
      factFingerprint := fingerprint tostring fact
      eventFingerprint := fingerprint tostring (.table false event) })
    let s ← read
    pure ⟨s.conversations.lookup conversationId,false,event⟩

/-- `apply_recorded_to`. -/
def applyRecordedTo (event : LuaValue) : Action Store Fault Accepted := do
  let (eventId,conversationId) ← requireIdentity event
  let s ← read
  match s.eventIndex.lookup eventId with
  | some prior =>
    require (decide (prior.eventFingerprint = fingerprint tostring event))
      (idConflict eventId conversationId prior)
    pure ⟨s.conversations.lookup prior.conversationId,true,event.fields⟩
  | none =>
    let expected := nextSequence (s.conversations.lookup conversationId)
    require ((event.get "sequence").rawEq (.num expected)) (.rejected "noncontiguous_sequence"
      [("conversation_id",.str conversationId),("expected",.num expected),
        ("actual",event.get "sequence")])
    let event ← foldStore conversationId event.fields
    update (indexEvent eventId {
      conversationId := conversationId
      sequence := event.get "sequence"
      factFingerprint := fingerprint tostring (.table false (factOf event))
      eventFingerprint := fingerprint tostring (.table false event) })
    let s ← read
    pure ⟨s.conversations.lookup conversationId,false,event⟩

/-- `e.context.replay_index = index`. -/
def withReplayIndex (index : Nat) : Fault → Fault
  | .rejected code context =>
    .rejected code (context ++ [("replay_index",.num (.int index))])
  | .raised message => .raised message

/-- The loop of `store:replay` over the events that `ipairs` visits, from position `index`. -/
def replayFrom (index : Nat) : List LuaValue → Action Store Fault Unit
  | [] => pure ()
  | event :: rest => fun s => match applyRecordedTo tostring event s with
    | (.error e,s') => (.error (withReplayIndex index e),s')
    | (.ok _,s') => replayFrom (index+1) rest s'

/-- `store:replay`. -/
def replay (events : List LuaValue) : Action Store Fault Unit := replayFrom tostring 1 events

end Store
end Nefor.ConversationManager
