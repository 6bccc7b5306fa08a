import Nefor.Action
import Nefor.ConversationManager.HistoryPath

/-! The conversation table that the fold mutates. Lists hold the records; the lookup maps
hold positions in them, as the maps of the source hold references to the same tables.
A field that the source fills from the event without checking it stays a Lua value. -/
namespace Nefor.ConversationManager
open Nefor.Lua

/-- What a fold can end with besides a conversation: the error value that `err` builds,
or a Lua error raised in the middle of a handler. -/
inductive Fault
  | rejected (code : String) (context : List (String × LuaValue))
  | raised (message : String)
  deriving Repr

/-- The call returned its error as a value. -/
def Fault.IsRejection : Fault → Prop
  | .rejected _ _ => True
  | .raised _ => False

inductive Role
  | system | user | assistant | tool
  deriving DecidableEq, Repr

def Role.ofLua : LuaValue → Option Role
  | .str "system" => some .system
  | .str "user" => some .user
  | .str "assistant" => some .assistant
  | .str "tool" => some .tool
  | _ => none

/-- Whether a message is ordinary conversation, model context only, or kept for audit. -/
inductive Visibility
  | transcript | diagnostic | discarded
  deriving DecidableEq, Repr

def Visibility.ofLua : LuaValue → Option Visibility
  | .str "transcript" => some .transcript
  | .str "diagnostic" => some .diagnostic
  | .str "discarded" => some .discarded
  | _ => none

inductive MessageStatus
  | opened | completed | interrupted
  deriving DecidableEq, Repr

def MessageStatus.toLua : MessageStatus → LuaValue
  | .opened => .str "open"
  | .completed => .str "completed"
  | .interrupted => .str "interrupted"

structure Retry where
  id : String
  messageId : LuaValue
  reason : LuaValue
  provenance : LuaValue
  deriving Repr

structure Message where
  id : String
  historyId : HistoryPath
  role : Role
  status : MessageStatus
  visibility : Visibility
  turnId : LuaValue := .nil
  toolCallId : LuaValue := .nil
  submissionIds : LuaValue := .nil
  inputCause : LuaValue := .nil
  deliveryId : LuaValue := .nil
  authoredPrompt : LuaValue := .nil
  toolName : LuaValue := .nil
  chunks : List LuaValue := []
  attempts : List Retry := []
  exchangeIds : List String := []
  completedSequence : LuaValue := .nil
  completion : LuaValue := .nil
  providerContext : LuaValue := .nil
  terminal : LuaValue := .nil
  deriving Repr

inductive ExchangeStatus
  | callOpen | callCompleted | result | error
  deriving DecidableEq, Repr

def ExchangeStatus.toLua : ExchangeStatus → LuaValue
  | .callOpen => .str "call_open"
  | .callCompleted => .str "call_completed"
  | .result => .str "result"
  | .error => .str "error"

structure Exchange where
  id : String
  messageId : String
  toolCallId : LuaValue
  toolName : LuaValue
  status : ExchangeStatus
  callChunks : List LuaValue := []
  arguments : LuaValue := .nil
  result : LuaValue := .nil
  error : LuaValue := .nil
  completionDelivery : LuaValue := .nil
  deriving Repr

inductive TurnStatus
  | opened | completed | failed | interrupted
  deriving DecidableEq, Repr

def TurnStatus.toLua : TurnStatus → LuaValue
  | .opened => .str "open"
  | .completed => .str "completed"
  | .failed => .str "failed"
  | .interrupted => .str "interrupted"

structure Turn where
  id : String
  runId : String
  actorId : LuaValue
  status : TurnStatus
  provenance : LuaValue
  messageStart : Nat
  sequenceStart : LuaValue
  openMessages : Int
  messageEnd : Option Nat := none
  sequenceEnd : LuaValue := .nil
  terminal : LuaValue := .nil
  deriving Repr

inductive CompactionStatus
  | pending | completed | failed
  deriving DecidableEq, Repr

structure Compaction where
  requestId : String
  conversationId : String
  status : CompactionStatus
  historyCutoff : LuaValue
  historyId : HistoryPath
  epochId : String
  contextWatermark : LuaValue
  trigger : LuaValue
  toolCallId : LuaValue
  requestedSequence : LuaValue
  provider : String
  model : String
  providerOptions : LuaValue
  checkpoint : LuaValue := .nil
  compatibility : LuaValue := .nil
  optionalUsage : LuaValue := .nil
  error : LuaValue := .nil
  terminalSequence : LuaValue := .nil
  deriving Repr

structure ResponseUsage where
  historyId : HistoryPath
  sequence : LuaValue
  provider : String
  model : LuaValue
  requestId : String
  latestResponseUsage : LuaValue
  deriving Repr

structure PendingEdit where
  sourceHistoryId : HistoryPath
  text : String
  deriving Repr

inductive ConversationStatus
  | active | completed | interrupted | failed
  deriving DecidableEq, Repr

def ConversationStatus.toLua : ConversationStatus → LuaValue
  | .active => .str "active"
  | .completed => .str "completed"
  | .interrupted => .str "interrupted"
  | .failed => .str "failed"

structure Conversation where
  id : String
  status : ConversationStatus := .active
  provenance : Fields
  messages : List Message := []
  messageById : List (String × Nat) := []
  historyByKey : List (String × Nat) := []
  historyChildMax : HistoryPath.ChildMax := []
  head : HistoryPath := []
  pendingEdit : Option PendingEdit := none
  exchanges : List Exchange := []
  exchangeById : List (String × Nat) := []
  exchangeByToolCallId : List (String × Nat) := []
  retries : List Retry := []
  retryById : List (String × Nat) := []
  turns : List Turn := []
  turnById : List (String × Nat) := []
  compactions : List Compaction := []
  compactionById : List (String × Nat) := []
  responseUsages : List ResponseUsage := []
  noticeFacts : List Fields := []
  noticeById : List (String × Fields) := []
  initialEpochId : String
  openMessages : Int := 0
  openExchanges : Int := 0
  terminal : LuaValue := .nil
  lastSequence : LuaNum := .int 0
  deriving Repr

/-- `map[key] = value` on a lookup map. -/
def assign {α : Type} (map : List (String × α)) (key : String) (value : α) : List (String × α) :=
  match map with
  | [] => [(key,value)]
  | (k,v) :: rest => if k = key then (key,value) :: rest else (k,v) :: assign rest key value

theorem lookup_assign {α : Type} (map : List (String × α)) (key other : String) (value : α) :
    (assign map key value).lookup other =
      if other = key then some value else map.lookup other := by
  induction map with
  | nil =>
    by_cases h : other = key
    · simp [assign,h]
    · simp [assign,List.lookup_cons,beq_eq_false_iff_ne.mpr h,h]
  | cons e rest ih =>
    obtain ⟨k,v⟩ := e
    by_cases ho : other = k
    · subst ho
      by_cases hk : other = key <;> simp [assign,hk]
    · have hb : (other == k) = false := beq_eq_false_iff_ne.mpr ho
      by_cases hk : k = key
      · subst hk; simp only [assign,if_true,List.lookup_cons,hb,if_neg ho]
      · simp only [assign,if_neg hk,List.lookup_cons,hb,ih]

/-- Writing back what a key already holds changes nothing. -/
theorem assign_lookup {α : Type} {map : List (String × α)} {key : String} {value : α}
    (h : map.lookup key = some value) : assign map key value = map := by
  induction map with
  | nil => cases h
  | cons e rest ih =>
    obtain ⟨k,v⟩ := e
    by_cases hk : k = key
    · subst hk
      simp at h
      simp [assign,h]
    · have hb : (key == k) = false := by simpa using fun h => hk h.symm
      rw [List.lookup_cons,hb] at h
      simp [assign,hk,ih h]

/-- `map[value]` for any Lua value; only strings are ever keys. -/
def at? {α : Type} (map : List (String × α)) : LuaValue → Option α
  | .str s => map.lookup s
  | _ => none

namespace Conversation

/-- `find_message`, with the position that stands for the reference. -/
def findMessage (c : Conversation) (id : LuaValue) : Option (Nat × Message) := do
  let i ← at? c.messageById id
  let m ← c.messages[i]?
  pure (i,m)

def findExchange (c : Conversation) (id : LuaValue) : Option (Nat × Exchange) := do
  let i ← at? c.exchangeById id
  let x ← c.exchanges[i]?
  pure (i,x)

/-- `exchange_by_tool_call_id[id]`. -/
def findToolCall (c : Conversation) (id : LuaValue) : Option (Nat × Exchange) := do
  let i ← at? c.exchangeByToolCallId id
  let x ← c.exchanges[i]?
  pure (i,x)

def findTurn (c : Conversation) (id : LuaValue) : Option (Nat × Turn) := do
  let i ← at? c.turnById id
  let t ← c.turns[i]?
  pure (i,t)

def findCompaction (c : Conversation) (id : LuaValue) : Option (Nat × Compaction) := do
  let i ← at? c.compactionById id
  let op ← c.compactions[i]?
  pure (i,op)

/-- `history_by_key[history_path.key(path)]`. -/
def findHistory (c : Conversation) (path : LuaValue) : Option (Nat × Message) := do
  let key ← HistoryPath.key path
  let i ← c.historyByKey.lookup key
  let m ← c.messages[i]?
  pure (i,m)

def modifyMessage (c : Conversation) (i : Nat) (f : Message → Message) : Conversation :=
  { c with messages := c.messages.modify i f }

def modifyExchange (c : Conversation) (i : Nat) (f : Exchange → Exchange) : Conversation :=
  { c with exchanges := c.exchanges.modify i f }

def modifyTurn (c : Conversation) (i : Nat) (f : Turn → Turn) : Conversation :=
  { c with turns := c.turns.modify i f }

def modifyCompaction (c : Conversation) (i : Nat) (f : Compaction → Compaction) : Conversation :=
  { c with compactions := c.compactions.modify i f }

/-- Append a message to the list and to both lookup maps, and move the head to it. -/
def pushMessage (c : Conversation) (m : Message) : Conversation :=
  { c with
    messages := c.messages ++ [m]
    messageById := assign c.messageById m.id c.messages.length
    historyByKey := assign c.historyByKey m.historyId.keyOf c.messages.length
    head := m.historyId }

/-- `history_path.is_prefix(path, c.head)` for an allocated path. -/
def onHead (c : Conversation) (path : HistoryPath) : Bool :=
  HistoryPath.isPrefix path.toLua c.head.toLua

end Conversation
end Nefor.ConversationManager
