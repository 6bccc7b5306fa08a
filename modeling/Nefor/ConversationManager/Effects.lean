import Nefor.Trace
import Nefor.ConversationManager.Atomicity

/-! What an accepted event does. Every handler is read once: for each kind of event, the checks
that it passed and the conversation it leaves. Invariants of the store go by these cases. -/
namespace Nefor.ConversationManager
open Nefor.Lua Nefor.Action

/-- The turn that a new message joins, which has to be open. -/
def JoinsTurn (event : Fields) (c : Conversation) : Option Nat → Prop
  | none => (event.get "turn_id").truthy = false
  | some i => ∃ t, c.findTurn (event.get "turn_id") = some (i,t) ∧ t.status = .opened

/-- The checks of `message_started`. -/
structure Startable (event : Fields) (c : Conversation) (s : Start) : Prop where
  live : c.status = .active
  id : asId (event.get "message_id") = some s.id
  fresh : c.messageById.lookup s.id = none
  role : Role.ofLua (event.get "role") = some s.role
  turn : JoinsTurn event c s.turn
  allocated : HistoryPath.allocate c.head c.historyChildMax = .ok s.allocated

/-- A message as its terminal event leaves it. -/
structure Closed (m m' : Message) (visibility : Visibility) : Prop where
  status : m'.status ≠ .opened
  visibility : m'.visibility = visibility
  id : m'.id = m.id
  historyId : m'.historyId = m.historyId
  role : m'.role = m.role
  turnId : m'.turnId = m.turnId
  exchangeIds : m'.exchangeIds = m.exchangeIds
  chunks : m'.chunks = m.chunks
  inputCause : m'.inputCause = m.inputCause
  authoredPrompt : m'.authoredPrompt = m.authoredPrompt

/-- The checks of `rewind_committed`, which name the message the head moves before. -/
structure Rewindable (event : Fields) (c : Conversation) (i : Nat) (m : Message)
    (prompt : String) : Prop where
  live : c.status = .active
  noPending : ∀ op ∈ c.compactions, op.status ≠ .pending
  noOpenMessage : c.openMessages = 0
  noOpenExchange : c.openExchanges = 0
  noOpenTurn : ∀ t ∈ c.turns, t.status ≠ .opened
  found : c.findHistory (event.get "target_history_id") = some (i,m)
  role : m.role = .user
  visibility : m.visibility = .transcript
  status : m.status = .completed
  onHead : c.onHead m.historyId
  prompt : promptText m = some prompt

/-- The checks of `context_notice_appended` that do not depend on its message. -/
structure Noticeable (event : Fields) (c : Conversation) (id messageId : String) : Prop where
  live : c.status = .active
  noticeId : asId (event.get "notice_id") = some id
  messageId : asId (event.get "message_id") = some messageId
  provider : ∃ s, asId (event.get "provider") = some s
  model : ∃ s, asId (event.get "model") = some s
  fresh : c.noticeById.lookup id = none
  noOpenMessage : c.openMessages = 0
  noOpenExchange : c.openExchanges = 0
  epoch : event.get "epoch_id" = .str (currentEpoch c)
  pair : pairMatches c (event.get "provider") (event.get "model")
  head : (event.get "history_id").equal c.head.toLua
  milestone : finite (event.get "milestone_percent")
  nonePending : ∀ n ∈ c.noticeById, noticePending c event n.2 = false

/-- The checks of `context_compaction_requested`, and the operation it lists. -/
structure Requestable (event : Fields) (c : Conversation) (op : Compaction) (cutoff : Nat) :
    Prop where
  live : c.status = .active
  requestId : asId (event.get "request_id") = some op.requestId
  fresh : c.compactionById.lookup op.requestId = none
  noPending : ∀ op ∈ c.compactions, op.status ≠ .pending
  status : op.status = .pending
  epochId : op.epochId = currentEpoch c
  historyId : op.historyId = c.head
  historyCutoff : op.historyCutoff = event.get "history_cutoff"
  contextWatermark : op.contextWatermark = event.get "context_watermark"
  provider : asId (event.get "provider") = some op.provider
  model : asId (event.get "model") = some op.model
  cutoff : cutoffCount op.historyCutoff (prefixMessages c).length = some cutoff

/-- An operation as its outcome leaves it. -/
structure Settled (op op' : Compaction) (status : CompactionStatus) (sequence : LuaValue) :
    Prop where
  status : op'.status = status
  requestId : op'.requestId = op.requestId
  historyId : op'.historyId = op.historyId
  historyCutoff : op'.historyCutoff = op.historyCutoff
  epochId : op'.epochId = op.epochId
  provider : op'.provider = op.provider
  model : op'.model = op.model
  terminalSequence : op'.terminalSequence = sequence

/-- The fact that an inclusion or a delivery of a notice is logged as. -/
def evidenceFact (event notice : Fields) : Fields :=
  ((event.set "milestone_percent" (notice.get "milestone_percent")).set
    "message_id" (notice.get "message_id")).set "request_ids" (notice.get "request_ids")

/-- The checks that inclusion and delivery share, and the notice that they find. -/
structure Evident (delivered : Bool) (event : Fields) (c : Conversation) (id : String)
    (notice : Fields) (requestId : String) : Prop where
  noticeId : asId (event.get "notice_id") = some id
  found : c.noticeById.lookup id = some notice
  requestId : asId (event.get "request_id") = some requestId
  epoch : event.get "epoch_id" = .str (currentEpoch c)
  binding : ∀ key ∈ ["epoch_id","provider","model"], (notice.get key).rawEq (event.get key)
  pair : pairMatches c (event.get "provider") (event.get "model")
  onHead : HistoryPath.isPrefix (notice.get "history_id") c.head.toLua
  branch : HistoryPath.isPrefix (event.get "history_id") c.head.toLua
  atHead : delivered = false → (event.get "history_id").equal c.head.toLua
  whole : finite (event.get "context_watermark") ∧ integral (event.get "context_watermark")
  after : numLt (event.get "context_watermark") (notice.get "sequence") = false
  upTo : numLt (.num c.lastSequence) (event.get "context_watermark") = false

/-- The conversation that an accepted event leaves, before its sequence is stamped. -/
inductive Effect (event : Fields) (c : Conversation) : Dispatch → Conversation → Prop
  | messageStarted {s : Start} : Startable event c s →
      Effect event c .messageStarted (startMessage event s (takeChild s.allocated c))
  | responseUsageRecorded {usage : ResponseUsage} : c.status = .active → usage.historyId = c.head →
      Effect event c (.other .responseUsageRecorded)
        { c with responseUsages := c.responseUsages ++ [usage] }
  | provenanceUpdated {provenance : Fields} : c.status = .active →
      Effect event c (.other .provenanceUpdated) { c with provenance := provenance }
  | contentChunkAppended {i : Nat} {m : Message} {chunk : LuaValue} : OpenMessage event c i m →
      Effect event c (.other .contentChunkAppended)
        (c.modifyMessage i fun m => { m with chunks := m.chunks ++ [chunk] })
  | toolExchangeStarted {i : Nat} {m : Message} {x : Exchange} : OpenMessage event c i m →
      c.exchangeById.lookup x.id = none → event.get "message_id" = .str x.messageId →
      x.status = .callOpen →
      Effect event c (.other .toolExchangeStarted) ({ c with
        exchanges := c.exchanges ++ [x]
        exchangeById := assign c.exchangeById x.id c.exchanges.length
        openExchanges := c.openExchanges + 1 }.modifyMessage i
          fun m => { m with exchangeIds := m.exchangeIds ++ [x.id] })
  | toolCallFragmentAppended {i : Nat} {x : Exchange} {f : List LuaValue → List LuaValue} :
      c.status = .active → c.exchanges[i]? = some x → x.status = .callOpen →
      Effect event c (.other .toolCallFragmentAppended)
        (c.modifyExchange i fun x => { x with callChunks := f x.callChunks })
  | toolCallCompleted {i : Nat} {x : Exchange} {id : String} {name arguments : LuaValue} :
      c.status = .active → c.exchanges[i]? = some x → x.status = .callOpen →
      Effect event c (.other .toolCallCompleted) { c.modifyExchange i fun x => { x with
          status := .callCompleted
          toolCallId := .str id
          toolName := name
          arguments := arguments } with
        exchangeByToolCallId := assign c.exchangeByToolCallId id i }
  | exchangeFinished {kind : Kind} {i : Nat} {x x' : Exchange} : c.status = .active →
      kind = .toolResultRecorded ∨ kind = .toolErrorRecorded →
      c.exchanges[i]? = some x → x.status = .callCompleted →
      x'.status = .result ∨ x'.status = .error → x'.id = x.id → x'.toolCallId = x.toolCallId →
      x'.messageId = x.messageId →
      Effect event c (.other kind)
        { c.modifyExchange i fun _ => x' with openExchanges := c.openExchanges - 1 }
  | messageCompleted {i : Nat} {m m' : Message} {visibility : Visibility} :
      OpenMessage event c i m → Settles m event visibility → Closed m m' visibility →
      m'.status = .completed →
      Effect event c (.other .messageCompleted) (closeMessage m (c.modifyMessage i fun _ => m'))
  | messageInterrupted {i : Nat} {m m' : Message} {visibility : Visibility} :
      OpenMessage event c i m → Settles m event visibility → Closed m m' visibility →
      m'.status = .interrupted →
      Effect event c (.other .messageInterrupted) (closeMessage m (c.modifyMessage i fun _ => m'))
  | retryStarted {retry : Retry} {message : Option Nat} : c.status = .active →
      c.retryById.lookup retry.id = none →
      (∀ i, message = some i → ∃ m, OpenMessage event c i m) →
      Effect event c (.other .retryStarted)
        (let c := { c with
          retries := c.retries ++ [retry]
          retryById := assign c.retryById retry.id c.retries.length }
        match message with
        | some i => c.modifyMessage i fun m => { m with attempts := m.attempts ++ [retry] }
        | none => c)
  | turnStarted {t : Turn} : c.status = .active → c.turnById.lookup t.id = none →
      event.get "turn_id" = .str t.id → t.status = .opened → t.openMessages = 0 →
      Effect event c (.other .turnStarted) { c with
        turns := c.turns ++ [t]
        turnById := assign c.turnById t.id c.turns.length }
  | turnFinished {kind : Kind} {i : Nat} {t t' : Turn} : c.status = .active →
      kind = .turnCompleted ∨ kind = .turnFailed ∨ kind = .turnInterrupted →
      c.findTurn (event.get "turn_id") = some (i,t) → t.status = .opened → t.openMessages = 0 →
      t'.status ≠ .opened → t'.id = t.id → t'.openMessages = 0 →
      Effect event c (.other kind) (c.modifyTurn i fun _ => t')
  | rewindCommitted {i : Nat} {m : Message} {prompt : String} : Rewindable event c i m prompt →
      Effect event c (.other .rewindCommitted)
        { c with head := m.historyId.parent, pendingEdit := some ⟨m.historyId,prompt⟩ }
  | noticeRecorded {id messageId : String} {i : Nat} {m : Message} :
      Noticeable event c id messageId → c.findMessage (.str messageId) = some (i,m) →
      m.role = .system → m.status = .completed → c.onHead m.historyId →
      Effect event c (.other .contextNoticeAppended) (recordNotice event id m.historyId c)
  | noticeAppended {id messageId : String} {allocated : HistoryPath} :
      Noticeable event c id messageId → c.findMessage (.str messageId) = none →
      HistoryPath.allocate c.head c.historyChildMax = .ok allocated →
      Effect event c (.other .contextNoticeAppended) (recordNotice event id allocated
        ((takeChild allocated c).pushMessage (noticeMessage event messageId allocated)))
  | noticeEvidence {kind : Kind} {delivered : Bool} {id requestId : String}
      {notice notice' : Fields} :
      kind = (if delivered then .contextNoticeDelivered else .contextNoticeIncluded) →
      Evident delivered event c id notice requestId →
      updateNotice delivered notice requestId event c.lastSequence = .ok notice' →
      Effect event c (.other kind)
        { c with
          noticeById := assign c.noticeById id notice'
          noticeFacts := c.noticeFacts ++ [evidenceFact event notice'] }
  | compactionRequested {op : Compaction} {cutoff : Nat} : Requestable event c op cutoff →
      Effect event c (.other .contextCompactionRequested) { c with
        compactions := c.compactions ++ [op]
        compactionById := assign c.compactionById op.requestId c.compactions.length }
  | compactionSettled {kind : Kind} {completed : Bool} {i : Nat} {op op' : Compaction} :
      kind = (if completed then .contextCompactionCompleted else .contextCompactionFailed) →
      c.findCompaction (event.get "request_id") = some (i,op) → op.status = .pending →
      currentEpoch c = op.epochId → c.onHead op.historyId →
      Settled op op' (if completed then .completed else .failed) (event.get "sequence") →
      Effect event c (.other kind) (c.modifyCompaction i fun _ => op')
  | terminated {kind : Kind} {status : ConversationStatus} {terminal : LuaValue} :
      c.status = .active →
      kind = .conversationCompleted ∨ kind = .conversationInterrupted ∨
        kind = .conversationFailed →
      status ≠ .active →
      Effect event c (.other kind) { c with status := status, terminal := terminal }
  | activeSelected : Effect event c (.other .activeSelected) c

/-- What a refused event leaves when its handler wrote before its last check. -/
inductive Torn (event : Fields) (c : Conversation) : Conversation → Prop
  | started {s : Start} : Startable event c s → Torn event c (takeChild s.allocated c)
  | narrowed {i : Nat} {m : Message} {visibility : Visibility} : OpenMessage event c i m →
      Settles m event visibility →
      Torn event c (c.modifyMessage i fun _ => { m with visibility := visibility })
  | closed {i : Nat} {m m' : Message} {visibility : Visibility} : OpenMessage event c i m →
      Settles m event visibility → Closed m m' visibility →
      Torn event c (closeMessage m (c.modifyMessage i fun _ => m'))

/-- A refused event mostly leaves the conversation alone. -/
def Refused (event : Fields) (c c' : Conversation) : Prop := c' = c ∨ Torn event c c'

@[simp] theorem refused_self (event : Fields) (c : Conversation) : Refused event c c := .inl rfl

section Modify
variable {c : Conversation} {i : Nat}

theorem modify_at {α : Type} {l : List α} {x : α} (h : l[i]? = some x) (f : α → α) :
    l.modify i f = l.modify i fun _ => f x := by
  apply List.ext_getElem?
  intro j
  rw [List.getElem?_modify,List.getElem?_modify]
  by_cases hj : i = j
  · subst hj; simp [h]
  · simp [hj]

theorem modifyMessage_at {m : Message} (h : c.messages[i]? = some m) (f : Message → Message) :
    c.modifyMessage i f = c.modifyMessage i fun _ => f m := by
  rw [Conversation.modifyMessage,modify_at h,Conversation.modifyMessage]

theorem modifyExchange_at {x : Exchange} (h : c.exchanges[i]? = some x) (f : Exchange → Exchange) :
    c.modifyExchange i f = c.modifyExchange i fun _ => f x := by
  rw [Conversation.modifyExchange,modify_at h,Conversation.modifyExchange]

theorem modifyTurn_at {t : Turn} (h : c.turns[i]? = some t) (f : Turn → Turn) :
    c.modifyTurn i f = c.modifyTurn i fun _ => f t := by
  rw [Conversation.modifyTurn,modify_at h,Conversation.modifyTurn]

theorem modifyCompaction_at {op : Compaction} (h : c.compactions[i]? = some op)
    (f : Compaction → Compaction) :
    c.modifyCompaction i f = c.modifyCompaction i fun _ => f op := by
  rw [Conversation.modifyCompaction,modify_at h,Conversation.modifyCompaction]

theorem modifyMessage_modifyMessage (f g : Message → Message) :
    (c.modifyMessage i f).modifyMessage i g = c.modifyMessage i (g ∘ f) := by
  simp only [Conversation.modifyMessage,List.modify_modify_eq]

theorem closeMessage_modifyMessage (m : Message) (f : Message → Message) :
    (closeMessage m c).modifyMessage i f = closeMessage m (c.modifyMessage i f) := by
  unfold closeMessage
  have hfind : (c.modifyMessage i f).findTurn m.turnId = c.findTurn m.turnId := rfl
  simp only [Conversation.findTurn,Conversation.modifyMessage] at hfind ⊢
  split
  · split <;> rfl
  · rfl

theorem Conversation.findTurn_eq_some {v : LuaValue} {r : Nat × Turn}
    (h : c.findTurn v = some r) :
    ∃ id, v = .str id ∧ c.turnById.lookup id = some r.1 ∧ c.turns[r.1]? = some r.2 := by
  cases v with
  | str id =>
    simp only [findTurn,at?,Option.bind_eq_bind,Option.bind_eq_some_iff] at h
    obtain ⟨i,hi,t,ht,h⟩ := h
    cases h
    exact ⟨id,rfl,hi,ht⟩
  | _ => simp [findTurn,at?] at h

theorem Conversation.findCompaction_eq_some {v : LuaValue} {r : Nat × Compaction}
    (h : c.findCompaction v = some r) :
    ∃ id, v = .str id ∧ c.compactionById.lookup id = some r.1 ∧ c.compactions[r.1]? = some r.2 := by
  cases v with
  | str id =>
    simp only [findCompaction,at?,Option.bind_eq_bind,Option.bind_eq_some_iff] at h
    obtain ⟨i,hi,op,hop,h⟩ := h
    cases h
    exact ⟨id,rfl,hi,hop⟩
  | _ => simp [findCompaction,at?] at h

end Modify

section Kinds

/-- The name under which the fold finds the handler. -/
def Kind.name : Kind → String
  | .responseUsageRecorded => "response_usage_recorded"
  | .provenanceUpdated => "provenance_updated"
  | .contentChunkAppended => "content_chunk_appended"
  | .toolExchangeStarted => "tool_exchange_started"
  | .toolCallFragmentAppended => "tool_call_fragment_appended"
  | .toolCallCompleted => "tool_call_completed"
  | .toolResultRecorded => "tool_result_recorded"
  | .toolErrorRecorded => "tool_error_recorded"
  | .messageCompleted => "message_completed"
  | .messageInterrupted => "message_interrupted"
  | .retryStarted => "retry_started"
  | .turnStarted => "turn_started"
  | .turnCompleted => "turn_completed"
  | .turnFailed => "turn_failed"
  | .turnInterrupted => "turn_interrupted"
  | .rewindCommitted => "rewind_committed"
  | .contextNoticeAppended => "context_notice_appended"
  | .contextNoticeIncluded => "context_notice_included"
  | .contextNoticeDelivered => "context_notice_delivered"
  | .contextCompactionRequested => "context_compaction_requested"
  | .contextCompactionCompleted => "context_compaction_completed"
  | .contextCompactionFailed => "context_compaction_failed"
  | .conversationCompleted => "conversation_completed"
  | .conversationInterrupted => "conversation_interrupted"
  | .conversationFailed => "conversation_failed"
  | .activeSelected => "active_selected"

theorem Kind.ofName_eq_some {name : String} {kind : Kind} (h : Kind.ofName name = some kind) :
    name = kind.name := by
  unfold Kind.ofName at h
  split at h <;> cases h <;> rfl

theorem dispatch_other {v : LuaValue} {kind : Kind} (h : dispatch v = some (.other kind)) :
    v = .str kind.name := by
  unfold dispatch at h
  split at h
  · cases h
  · cases h
  · obtain ⟨k,hk,he⟩ := Option.map_eq_some_iff.mp h
    cases he
    rw [Kind.ofName_eq_some hk]
  · cases h

theorem eventChecks_dispatch {event : Fields} {d : Dispatch} (h : eventChecks event = .ok d) :
    dispatch (event.get "kind") = some d := by
  simp only [eventChecks,bind,Except.bind] at h
  repeat' split at h
  all_goals first | (cases h; assumption) | cases h

theorem eventChecks_kind {event : Fields} {kind : Kind}
    (h : eventChecks event = .ok (.other kind)) : event.get "kind" = .str kind.name :=
  dispatch_other (eventChecks_dispatch h)

end Kinds

section Handlers
variable {c : Conversation} (event : Fields)
attribute [local simp] requireLive requireId requireOpenMessage requireOpenCall requirePendingOp

/-- The handler refuses its event, or has the effect of its kind. -/
def HasEffect (event : Fields) (c : Conversation) (kind : Kind) : Prop :=
  Ends (kind.handler event) (fun _ c' => Effect event c (.other kind) c')
    (fun _ c' => Refused event c c') c

theorem responseUsageRecorded_effect : HasEffect event c .responseUsageRecorded := by
  simp [HasEffect,Kind.handler,responseUsageRecorded]
  intro hl provider _ requestId _ _
  exact .responseUsageRecorded hl rfl

theorem provenanceUpdated_effect : HasEffect event c .provenanceUpdated := by
  simp [HasEffect,Kind.handler,provenanceUpdated]
  intro hl _
  exact .provenanceUpdated hl

theorem contentChunkAppended_effect : HasEffect event c .contentChunkAppended := by
  simp [HasEffect,Kind.handler,contentChunkAppended]
  intro hl i m hm ho _ _
  exact .contentChunkAppended ⟨hl,hm,ho⟩

theorem toolExchangeStarted_effect : HasEffect event c .toolExchangeStarted := by
  simp [HasEffect,Kind.handler,toolExchangeStarted,-List.lookup_eq_none_iff]
  intro hl id hid hf i m hm ho _
  obtain ⟨mid,hmid,_⟩ := Conversation.findMessage_eq_some hm
  refine .toolExchangeStarted (x := {
    id := id
    messageId := (asId (event.get "message_id")).getD ""
    toolCallId := event.get "tool_call_id"
    toolName := event.get "tool_name"
    status := .callOpen }) ⟨hl,hm,ho⟩ hf ?_ rfl
  rw [hmid,asId_str_getD]

theorem toolCallFragmentAppended_effect : HasEffect event c .toolCallFragmentAppended := by
  simp [HasEffect,Kind.handler,toolCallFragmentAppended]
  intro hl i x hx ho m _ _ _
  exact .toolCallFragmentAppended (f := fun chunks =>
    if (event.get "fragment").isNil then chunks else chunks ++ [event.get "fragment"])
    hl (Conversation.findExchange_eq_some hx) ho

theorem toolCallCompleted_effect : HasEffect event c .toolCallCompleted := by
  simp [HasEffect,Kind.handler,toolCallCompleted]
  intro hl i x hx ho _ id hid name hn _ _
  exact .toolCallCompleted hl (Conversation.findExchange_eq_some hx) ho

theorem finishExchange_effect {kind : Kind} (hk : kind = .toolResultRecorded ∨
    kind = .toolErrorRecorded) {settle : Exchange → Exchange}
    (hs : ∀ x, ((settle x).status = .result ∨ (settle x).status = .error) ∧
      (settle x).id = x.id ∧ (settle x).toolCallId = x.toolCallId ∧
      (settle x).messageId = x.messageId) :
    Ends (finishExchange settle event) (fun _ c' => Effect event c (.other kind) c')
      (fun _ c' => Refused event c c') c := by
  simp [finishExchange]
  intro hl i x hx ho _
  have hx := Conversation.findExchange_eq_some hx
  obtain ⟨hst,hid,hc,hm⟩ := hs x
  rw [modifyExchange_at hx]
  exact .exchangeFinished hl hk hx ho hst hid hc hm

theorem retryStarted_effect : HasEffect event c .retryStarted := by
  simp [HasEffect,Kind.handler,retryStarted,-List.lookup_eq_none_iff]
  intro hl id _ hf
  constructor
  · intro _
    exact @Effect.retryStarted event c _ none hl hf fun i h => absurd h (by simp)
  · intro _ i m hm ho
    refine @Effect.retryStarted event c _ (some i) hl hf fun j hj => ?_
    cases hj
    exact ⟨m,hl,hm,ho⟩

theorem asId_eq_some {v : LuaValue} {s : String} (h : asId v = some s) : v = .str s ∧ s ≠ "" := by
  cases v with
  | str t =>
    by_cases ht : t = "" <;> simp [asId,ht] at h
    subst h
    exact ⟨rfl,ht⟩
  | _ => cases h

theorem turnStarted_effect : HasEffect event c .turnStarted := by
  simp [HasEffect,Kind.handler,turnStarted,-List.lookup_eq_none_iff]
  intro hl id hid runId _ hf
  exact .turnStarted hl hf (asId_eq_some hid).1 rfl rfl

theorem finishTurn_effect {kind : Kind} {status : TurnStatus} (hk : kind = .turnCompleted ∨
    kind = .turnFailed ∨ kind = .turnInterrupted) (hs : status ≠ .opened) :
    Ends (finishTurn status event) (fun _ c' => Effect event c (.other kind) c')
      (fun _ c' => Refused event c c') c := by
  simp [finishTurn]
  intro hl i t ht ho _ hz
  obtain ⟨_,_,_,hi⟩ := Conversation.findTurn_eq_some ht
  rw [modifyTurn_at hi]
  exact .turnFinished hl hk ht ho hz hs rfl hz

theorem requireNoPending_ends (c' : Conversation) : Ends (requireNoPending c')
    (fun _ s => s = c ∧ ∀ op ∈ c'.compactions, op.status ≠ .pending)
    (fun _ s => Refused event c s) c := by
  unfold requireNoPending
  split
  · simp
  · rename_i hn
    simpa using hn

theorem rewindCommitted_effect : HasEffect event c .rewindCommitted := by
  simp [HasEffect,Kind.handler,rewindCommitted]
  intro hl
  refine (requireNoPending_ends event c).mono ?_ fun _ _ h => h
  rintro _ _ ⟨rfl,hp⟩
  simp only [refused_self,implies_true,and_true]
  intro hm hx ht _ _ _ i m hf hr hv hs ho prompt hprompt
  exact .rewindCommitted ⟨hl,hp,hm,hx,ht,hf,hr,hv,hs,ho,hprompt⟩

theorem requireIds_ends (fields : List String) : Ends (requireIds event fields)
    (fun _ s => s = c ∧ ∀ field ∈ fields, ∃ id, asId (event.get field) = some id)
    (fun _ c' => Refused event c c') c := by
  induction fields with
  | nil => simp [requireIds]
  | cons field rest ih =>
    simp only [requireIds,requireId,ends_bind,ends_need,refused_self,implies_true,and_true]
    intro id hid
    refine ih.mono ?_ fun _ _ h => h
    rintro _ _ ⟨rfl,hrest⟩
    exact ⟨rfl,List.forall_mem_cons.mpr ⟨⟨id,hid⟩,hrest⟩⟩

theorem rawEq_str {v : LuaValue} {s : String} (h : v.rawEq (.str s)) : v = .str s := by
  cases v <;> simp_all [LuaValue.rawEq]

theorem contextNoticeAppended_effect : HasEffect event c .contextNoticeAppended := by
  simp only [HasEffect,Kind.handler,contextNoticeAppended,ends_bind]
  simp [-List.lookup_eq_none_iff]
  intro hl
  refine (requireIds_ends event _).mono ?_ fun _ _ h => h
  rintro _ c ⟨rfl,hids⟩
  obtain ⟨id,hid⟩ := hids "notice_id" (by simp)
  obtain ⟨messageId,hmid⟩ := hids "message_id" (by simp)
  simp only [hid,hmid,Option.getD_some,refused_self,implies_true,and_true]
  intro hf ho hx he hpair hh _ hmile _ _ _ _ _ hnone
  have hn : Noticeable event c id messageId := {
    live := hl
    noticeId := hid
    messageId := hmid
    provider := hids "provider" (by simp)
    model := hids "model" (by simp)
    fresh := hf
    noOpenMessage := ho
    noOpenExchange := hx
    epoch := rawEq_str he
    pair := hpair
    head := hh
    milestone := hmile
    nonePending := fun n hn => hnone n.1 n.2 hn }
  split
  · rename_i m hm
    simp only [ends_bind,ends_require,ends_update,Bool.and_eq_true,decide_eq_true_eq,
      refused_self,implies_true,and_true]
    rintro ⟨⟨hr,hs⟩,hon⟩
    exact .noticeRecorded hn hm hr hs hon
  · rename_i hm
    simp only [ends_bind,ends_require,refused_self,implies_true,and_true]
    intro _
    split
    · simp
    · rename_i allocated ha
      exact .noticeAppended hn hm ha

theorem contextCompactionRequested_effect : HasEffect event c .contextCompactionRequested := by
  simp only [HasEffect,Kind.handler,contextCompactionRequested,requestChecks,ends_bind,ends_read,
    requireLive,ends_require]
  simp [-List.lookup_eq_none_iff]
  intro hl
  refine (requireIds_ends event _).mono ?_ fun _ _ h => h
  rintro _ c ⟨rfl,hids⟩
  obtain ⟨requestId,hid⟩ := hids "request_id" (by simp)
  obtain ⟨provider,hp⟩ := hids "provider" (by simp)
  obtain ⟨model,hm⟩ := hids "model" (by simp)
  simp only [refused_self,implies_true,and_true]
  intro hf
  refine (requireNoPending_ends event _).mono ?_ fun _ _ h => h
  rintro _ c ⟨rfl,hno⟩
  simp only [refused_self,implies_true,and_true]
  intro he hh hpair hw _ _ _ cutoff hcut
  split
  · simp
  · simp only [ends_bind,ends_require,ends_update,refused_self,implies_true,and_true]
    intro _
    rw [(asId_eq_some hid).1] at hf
    refine @Effect.compactionRequested event c _ cutoff ⟨hl,?_,?_,hno,rfl,?_,rfl,rfl,rfl,?_,?_,hcut⟩
    · rw [hid,Option.getD_some]
    · rw [hid,Option.getD_some]; exact hf
    · rw [rawEq_str he,asId_str_getD]
    · rw [hp,Option.getD_some]
    · rw [hm,Option.getD_some]

theorem contextCompactionCompleted_effect : HasEffect event c .contextCompactionCompleted := by
  simp [HasEffect,Kind.handler,contextCompactionCompleted]
  intro i op hop hp he hh _ _ hcur hon
  intros
  obtain ⟨_,_,_,hi⟩ := Conversation.findCompaction_eq_some hop
  rw [modifyCompaction_at hi]
  exact @Effect.compactionSettled event c _ true i op _ rfl hop hp hcur hon
    ⟨rfl,rfl,rfl,rfl,rfl,rfl,rfl,rfl⟩

theorem contextCompactionFailed_effect : HasEffect event c .contextCompactionFailed := by
  simp [HasEffect,Kind.handler,contextCompactionFailed]
  intro i op hop hp he hh _ _ hcur hon
  intros
  obtain ⟨_,_,_,hi⟩ := Conversation.findCompaction_eq_some hop
  rw [modifyCompaction_at hi]
  exact @Effect.compactionSettled event c _ false i op _ rfl hop hp hcur hon
    ⟨rfl,rfl,rfl,rfl,rfl,rfl,rfl,rfl⟩

theorem terminate_effect {kind : Kind} {status : ConversationStatus}
    (hk : kind = .conversationCompleted ∨ kind = .conversationInterrupted ∨
      kind = .conversationFailed) (hs : status ≠ .active) :
    Ends (terminate status event) (fun _ c' => Effect event c (.other kind) c')
      (fun _ c' => Refused event c c') c := by
  simp [terminate]
  intro hl _ _
  exact .terminated hl hk hs

/-- The allocation with which the first checks of `message_started` end. -/
theorem allocation_ends {id : String} {role : Role} (hl : c.status = .active)
    (hid : asId (event.get "message_id") = some id) (hf : c.messageById.lookup id = none)
    (hr : Role.ofLua (event.get "role") = some role) (toolName : LuaValue) (turn : Option Nat)
    (visibility : Visibility) (ht : JoinsTurn event c turn) :
    Ends (match HistoryPath.allocate c.head c.historyChildMax with
      | .ok allocated => pure (Start.mk id role toolName turn visibility allocated)
      | .error e => fail (Fault.rejected e.code [("message_id",.str id)]))
      (fun s c' => c' = c ∧ Startable event c s) (fun _ c' => Refused event c c') c := by
  split
  · rename_i ha
    exact ⟨rfl,hl,hid,hf,hr,ht,ha⟩
  · exact refused_self event c

theorem startAllocated_ends : Ends (startAllocated event)
    (fun s c' => c' = c ∧ Startable event c s) (fun _ c' => Refused event c c') c := by
  simp [startAllocated,-List.lookup_eq_none_iff]
  intro hl id hid hf role hr
  have hend := allocation_ends event hl hid hf hr
  refine ⟨fun _ _ _ _ _ _ => ⟨fun _ i t ht ho => ?_,fun hn => ?_⟩,
    fun _ => ⟨fun _ i t ht ho => ?_,fun hn => ?_⟩⟩
  · exact ⟨fun _ => hend _ _ _ ⟨t,ht,ho⟩,fun _ _ _ => hend _ _ _ ⟨t,ht,ho⟩⟩
  · exact ⟨fun _ => hend _ _ _ hn,fun _ _ _ => hend _ _ _ hn⟩
  · exact ⟨fun _ => hend _ _ _ ⟨t,ht,ho⟩,fun _ _ _ => hend _ _ _ ⟨t,ht,ho⟩⟩
  · exact ⟨fun _ => hend _ _ _ hn,fun _ _ _ => hend _ _ _ hn⟩

theorem messageStarted_effect : Ends (messageStarted event)
    (fun _ c' => Effect event c .messageStarted c') (fun _ c' => Refused event c c') c := by
  simp only [messageStarted,startChecks,ends_bind]
  refine (startAllocated_ends event).mono ?_ fun _ _ h => h
  rintro s c ⟨rfl,hs⟩
  have htorn : Refused event c (takeChild s.allocated c) := .inr (.started hs)
  simp [startLateChecks,htorn]
  intros
  exact .messageStarted hs

/-- A new message shows in the transcript unless the event says otherwise. -/
def StartsVisible (event : Fields) (s : Start) : Prop :=
  event.get "visibility" = .nil ∨ event.get "visibility" = .str "transcript" →
    s.visibility = .transcript

theorem startAllocated_visible : Ends (startAllocated event) (fun s _ => StartsVisible event s)
    (fun _ _ => True) c := by
  have hallocate : ∀ id role toolName turn visibility,
      (event.get "visibility" = .nil ∨ event.get "visibility" = .str "transcript" →
        visibility = .transcript) →
      Ends (match HistoryPath.allocate c.head c.historyChildMax with
        | .ok allocated => pure (Start.mk id role toolName turn visibility allocated)
        | .error e => fail (Fault.rejected e.code [("message_id",.str id)]))
        (fun s _ => StartsVisible event s) (fun _ _ => True) c := by
    intro id role toolName turn visibility hv
    split
    · exact hv
    · trivial
  have hends : ∀ id role toolName turn, _ ∧ _ := fun id role toolName turn =>
    And.intro (fun _ : (event.get "visibility").isNil = true =>
      hallocate id role toolName turn .transcript fun _ => rfl)
    fun (hn : (event.get "visibility").isNil = false) visibility
        (hv : Visibility.ofLua (event.get "visibility") = some visibility) =>
      hallocate id role toolName turn visibility fun h => by
        cases h with
        | inl h => rw [h] at hn; cases hn
        | inr h => rw [h] at hv; cases hv; rfl
  simp [startAllocated,-List.lookup_eq_none_iff]
  intro _ id _ _ role _
  refine ⟨fun _ _ _ _ b _ => ⟨fun _ i _ _ _ => ?_,fun _ => ?_⟩,
    fun _ => ⟨fun _ i _ _ _ => ?_,fun _ => ?_⟩⟩
  · exact hends id role b.toolName (some i)
  · exact hends id role b.toolName none
  · exact hends id role .nil (some i)
  · exact hends id role .nil none

theorem messageStarted_ends : Ends (messageStarted event) (fun _ c' => ∃ s, Startable event c s ∧
    StartsVisible event s ∧ c' = startMessage event s (takeChild s.allocated c))
    (fun _ _ => True) c := by
  simp only [messageStarted,startChecks,ends_bind]
  refine ((startAllocated_ends event).and (startAllocated_visible event)).mono ?_
    fun _ _ _ => trivial
  intro s c₁ h
  obtain ⟨⟨rfl,hs⟩,hv⟩ := h
  simp only [startLateChecks,ends_bind,ends_require,ends_update,ends_pure,implies_true,and_true]
  intro _ _ _ _
  exact ⟨s,hs,hv,rfl⟩

/-- Both ways to close a message end with its record replaced. -/
theorem closed_effect {i : Nat} {m : Message} (hm : c.messages[i]? = some m) (v : Visibility)
    (f : Message → Message) : closeMessage m ((settled i v c).modifyMessage i f) =
      closeMessage m (c.modifyMessage i fun _ => f { m with visibility := v }) := by
  rw [settled,modifyMessage_modifyMessage,modifyMessage_at hm]
  rfl

theorem messageCompleted_effect : HasEffect event c .messageCompleted := by
  show Ends (messageCompleted event) _ _ c
  by_cases ho : ∃ i m, OpenMessage event c i m
  · obtain ⟨i,m,ho⟩ := ho
    obtain ⟨_,_,_,hm⟩ := Conversation.findMessage_eq_some ho.2.1
    unfold Ends
    rw [messageCompleted_eq event ho]
    rcases settleVisibility_cases event hm with ⟨v,hv,hs⟩ | ⟨_,code,context,hs⟩
    · rw [hs]
      have hsame := completionChecks_same (c := settled i v c) event m
      rcases hc : completionChecks m event (settled i v c) with ⟨e | a,c'⟩
      · have he : c' = settled i v c := hsame.of_error hc
        simp only [hc,he]
        rw [settled,modifyMessage_at hm]
        exact .inr (.narrowed ho hv)
      · have he : c' = settled i v c := hsame.of_ok hc
        subst he
        cases ht : completionTerminal event ((event.get "completion").orElse (.table false [])) with
        | error e =>
          simp only [hc]
          rw [completed,closed_effect hm]
          exact .inr (.closed ho hv ⟨by simp,rfl,rfl,rfl,rfl,rfl,rfl,rfl,rfl,rfl⟩)
        | ok terminal =>
          simp only [hc]
          rw [completed,closeMessage_modifyMessage,modifyMessage_modifyMessage,closed_effect hm]
          exact .messageCompleted ho hv
            ⟨by simp,rfl,rfl,rfl,rfl,rfl,rfl,rfl,rfl,rfl⟩ rfl
    · rw [hs]; exact refused_self event c
  · have hn : ∀ i m, ¬OpenMessage event c i m := fun i m hm => ho ⟨i,m,hm⟩
    obtain ⟨code,context,he⟩ := messageCompleted_closed event hn
    unfold Ends
    rw [he]; exact refused_self event c

theorem messageInterrupted_effect : HasEffect event c .messageInterrupted := by
  simp [HasEffect,Kind.handler,messageInterrupted]
  intro hl i m hf ho
  obtain ⟨_,_,_,hm⟩ := Conversation.findMessage_eq_some hf
  unfold Ends
  rcases settleVisibility_cases event hm with ⟨v,hv,hs⟩ | ⟨_,code,context,hs⟩
  · rw [hs]
    simp only
    rw [closed_effect hm]
    exact .messageInterrupted ⟨hl,hf,ho⟩ hv ⟨by simp,rfl,rfl,rfl,rfl,rfl,rfl,rfl,rfl,rfl⟩ rfl
  · rw [hs]; exact refused_self event c

theorem evidenceChecks_ok {delivered : Bool} {id requestId : String} {notice : Fields} :
    evidenceChecks delivered event c = (.ok (id,notice,requestId),c) ↔
      Evident delivered event c id notice requestId := by
  constructor
  · intro h
    have hends : Ends (evidenceChecks delivered event)
        (fun r _ => Evident delivered event c r.1 r.2.1 r.2.2) (fun _ _ => True) c := by
      simp [evidenceChecks]
      intro id hid notice hn he h1 h2 h3 hp ho hb hh requestId hr hf hi ha hu
      exact ⟨hid,hn,hr,rawEq_str he,by simp [h1,h2,h3],hp,ho,hb,
        fun hd => by simpa [hd] using hh,⟨hf,hi⟩,ha,hu⟩
    exact hends.of_ok h
  · intro h
    have hepoch : (event.get "epoch_id").rawEq (.str (currentEpoch c)) := by
      rw [h.epoch]; simp [LuaValue.rawEq]
    have hbound : (["epoch_id","provider","model"].all fun key =>
        (notice.get key).rawEq (event.get key)) = true := List.all_eq_true.mpr h.binding
    have hhead : (delivered || (event.get "history_id").equal c.head.toLua) = true := by
      cases hd : delivered with
      | true => rfl
      | false => exact h.atHead hd
    simp only [evidenceChecks,bind_apply,read_apply,h.noticeId,h.found,h.requestId,need_some,hepoch,
      hbound,h.pair,h.onHead,h.branch,hhead,h.whole.1,h.whole.2,h.after,h.upTo,Bool.and_true,
      Bool.not_false,require_true,pure_apply]

theorem noticeEvidence_effect (delivered : Bool) : Ends (noticeEvidence delivered event)
    (fun _ c' => Effect event c
      (.other (if delivered then .contextNoticeDelivered else .contextNoticeIncluded)) c')
    (fun _ c' => Refused event c c') c := by
  simp only [noticeEvidence,ends_bind,ends_read]
  have hi := evidenceChecks_inspects (c := c) event delivered
  unfold Ends
  rcases he : evidenceChecks delivered event c with ⟨e | ⟨id,notice,requestId⟩,c'⟩
  · exact .inl (hi.of_error he).1
  · have hc : c' = c := hi.of_ok he
    subst hc
    simp only
    cases hu : updateNotice delivered notice requestId event c'.lastSequence with
    | error e => exact refused_self event c'
    | ok notice' => exact .noticeEvidence rfl ((evidenceChecks_ok event).mp he) hu

/-- What every handler does when it accepts its event. -/
theorem handler_effect (kind : Kind) : HasEffect event c kind := by
  cases kind with
  | responseUsageRecorded => exact responseUsageRecorded_effect event
  | provenanceUpdated => exact provenanceUpdated_effect event
  | contentChunkAppended => exact contentChunkAppended_effect event
  | toolExchangeStarted => exact toolExchangeStarted_effect event
  | toolCallFragmentAppended => exact toolCallFragmentAppended_effect event
  | toolCallCompleted => exact toolCallCompleted_effect event
  | toolResultRecorded => exact finishExchange_effect event (.inl rfl) fun _ => ⟨.inl rfl,rfl,rfl,rfl⟩
  | toolErrorRecorded => exact finishExchange_effect event (.inr rfl) fun _ => ⟨.inr rfl,rfl,rfl,rfl⟩
  | messageCompleted => exact messageCompleted_effect event
  | messageInterrupted => exact messageInterrupted_effect event
  | retryStarted => exact retryStarted_effect event
  | turnStarted => exact turnStarted_effect event
  | turnCompleted => exact finishTurn_effect event (.inl rfl) nofun
  | turnFailed => exact finishTurn_effect event (.inr (.inl rfl)) nofun
  | turnInterrupted => exact finishTurn_effect event (.inr (.inr rfl)) nofun
  | rewindCommitted => exact rewindCommitted_effect event
  | contextNoticeAppended => exact contextNoticeAppended_effect event
  | contextNoticeIncluded => exact noticeEvidence_effect event false
  | contextNoticeDelivered => exact noticeEvidence_effect event true
  | contextCompactionRequested => exact contextCompactionRequested_effect event
  | contextCompactionCompleted => exact contextCompactionCompleted_effect event
  | contextCompactionFailed => exact contextCompactionFailed_effect event
  | conversationCompleted => exact terminate_effect event (.inl rfl) nofun
  | conversationInterrupted => exact terminate_effect event (.inr (.inl rfl)) nofun
  | conversationFailed => exact terminate_effect event (.inr (.inr rfl)) nofun
  | activeSelected => exact .activeSelected

end Handlers

/-- A call of the fold takes a conversation along: the event is refused, or it passed the checks
of the fold, had the effect of its kind and left its sequence behind. -/
inductive Moves (event : Fields) (c : Conversation) : Conversation → Prop
  | refused {c' : Conversation} : Refused event c c' → Moves event c c'
  | accepted {d : Dispatch} {c' : Conversation} : eventChecks event = .ok d →
      continuationChecks c event = .ok () → Effect event c d c' → Moves event c (stamp event c')

section Fold
variable {event : Fields} {c : Conversation}

theorem foldInto_ends (event : Fields) (c : Conversation) (d : Dispatch) : Ends (foldInto event d)
    (fun _ c' => continuationChecks c event = .ok () ∧ ∃ c₀, Effect event c d c₀ ∧
      c' = stamp event c₀) (fun _ c' => Refused event c c') c := by
  simp only [foldInto,ends_bind,ends_read]
  cases hc : continuationChecks c event with
  | error e => exact refused_self event c
  | ok a =>
    cases d with
    | created => exact refused_self event c
    | messageStarted =>
      simp only [ends_bind,ends_update,ends_pure]
      exact (messageStarted_effect event).mono (fun _ _ h => ⟨trivial,_,h,rfl⟩) fun _ _ h => h
    | other kind =>
      simp only [ends_bind,ends_update,ends_pure]
      exact Ends.mono (handler_effect event kind) (fun _ _ h => ⟨trivial,_,h,rfl⟩) fun _ _ h => h

/-- An accepted event passed the checks of the fold and had the effect of its kind. -/
theorem fold_effect {event' : Fields} {c' : Conversation}
    (h : fold (some c) event = (.ok event',some c')) :
    ∃ d c₀, eventChecks event = .ok d ∧ continuationChecks c event = .ok () ∧
      Effect event c d c₀ ∧ c' = stamp event c₀ := by
  unfold fold at h
  cases hd : eventChecks event with
  | error e => simp [hd] at h
  | ok d =>
    simp only [hd,Prod.mk.injEq,Option.some.injEq] at h
    obtain ⟨hok,rfl⟩ := h
    have he : foldInto event d c = (.ok event',(foldInto event d c).2) := by rw [← hok]
    obtain ⟨hc,c₀,h0,hst⟩ := (foldInto_ends event c d).of_ok he
    exact ⟨d,c₀,rfl,hc,h0,hst⟩

/-- An accepted start appends its message, moves the head to it, and ends the edit if it is a
prompt that shows. -/
theorem fold_starts {event' : Fields} {c' : Conversation}
    (h : fold (some c) event = (.ok event',some c'))
    (hk : event.get "kind" = .str "message_started") :
    ∃ s, Startable event c s ∧ StartsVisible event s ∧
      c' = stamp event (startMessage event s (takeChild s.allocated c)) := by
  unfold fold at h
  cases hd : eventChecks event with
  | error e => simp [hd] at h
  | ok d =>
    have hd' := eventChecks_dispatch hd
    rw [hk] at hd'
    cases hd'
    simp only [hd,Prod.mk.injEq,Option.some.injEq] at h
    have hends : Ends (foldInto event .messageStarted) (fun _ c' => ∃ s, Startable event c s ∧
        StartsVisible event s ∧ c' = stamp event (startMessage event s (takeChild s.allocated c)))
        (fun _ _ => True) c := by
      simp only [foldInto,ends_bind,ends_read]
      split
      · trivial
      · simp only [ends_bind,ends_update,ends_pure]
        refine (messageStarted_ends event).mono (fun _ c₁ h => ?_) fun _ _ _ => trivial
        obtain ⟨s,hs,hv,rfl⟩ := h
        exact ⟨s,hs,hv,rfl⟩
    exact hends.of_ok (Prod.ext h.1 h.2)

theorem fold_moves {c' : Conversation} (h : (fold (some c) event).2 = some c') :
    Moves event c c' := by
  unfold fold at h
  cases hd : eventChecks event with
  | error e =>
    simp only [hd,Option.some.injEq] at h
    exact h ▸ .refused (refused_self event c)
  | ok d =>
    simp only [hd,Option.some.injEq] at h
    have hends := foldInto_ends event c d
    rcases hf : foldInto event d c with ⟨e | a,c₁⟩ <;> rw [hf] at h <;> cases h
    · exact .refused (hends.of_error hf)
    · obtain ⟨hc,c₀,h0,rfl⟩ := hends.of_ok hf
      exact .accepted hd hc h0

end Fold

section Runs
variable {event : Fields} {c c' : Conversation}

/-- The event creates the conversation. -/
def Creates (event : Fields) (c : Conversation) : Prop := fold none event = (.ok event,some c)

/-- A call of the fold on the conversation, which accepts the event or refuses it. -/
def Calls (c : Conversation) (event : Fields) (c' : Conversation) : Prop :=
  (fold (some c) event).2 = some c'

/-- The fold accepts the event. -/
def Accepts (c : Conversation) (event : Fields) (c' : Conversation) : Prop :=
  ∃ event', fold (some c) event = (.ok event',some c')

/-- A conversation that was created and then went through any calls of the fold. -/
def Conversation.Reachable (c : Conversation) : Prop :=
  ∃ event c₀ events, Creates event c₀ ∧ Trace Calls c₀ events c

theorem Accepts.calls (h : Accepts c event c') : Calls c event c' := by
  obtain ⟨event',h⟩ := h
  rw [Calls,h]

theorem Accepts.effect (h : Accepts c event c') :
    ∃ d c₀, eventChecks event = .ok d ∧ continuationChecks c event = .ok () ∧
      Effect event c d c₀ ∧ c' = stamp event c₀ := by
  obtain ⟨event',h⟩ := h
  exact fold_effect h

theorem Calls.moves (h : Calls c event c') : Moves event c c' := fold_moves h

/-- A call of the fold accepts its event or refuses it. -/
theorem Calls.accepts_or_refused (h : Calls c event c') :
    Accepts c event c' ∨ Refused event c c' := by
  rcases hf : fold (some c) event with ⟨e | event',c₁⟩
  · right
    rw [Calls,hf] at h
    cases h
    unfold fold at hf
    cases hd : eventChecks event with
    | error e =>
      simp only [hd,Prod.mk.injEq,Option.some.injEq] at hf
      exact hf.2 ▸ refused_self event c
    | ok d =>
      simp only [hd,Prod.mk.injEq,Option.some.injEq] at hf
      have hends := foldInto_ends event c d
      rcases hi : foldInto event d c with ⟨e | a,c₁⟩ <;> rw [hi] at hf
      · obtain ⟨_,rfl⟩ := hf
        exact hends.of_error hi
      · cases hf.1
  · left
    rw [Calls,hf] at h
    cases h
    exact ⟨event',hf⟩

/-- The conversation that a first event creates. -/
theorem Creates.eq (h : Creates event c) : ∃ n, event.get "sequence" = .num n ∧ n.eq (.int 1) ∧
    eventChecks event = .ok .created ∧ c = {
      id := (asId (event.get "conversation_id")).getD ""
      provenance := (event.get "provenance").fields
      initialEpochId := (asId (event.get "event_id")).getD ""
      lastSequence := n } := by
  unfold Creates fold at h
  cases hd : eventChecks event with
  | error e => simp [hd] at h
  | ok d =>
    simp only [hd] at h
    split at h
    · rename_i hc
      subst hc
      cases hk : created none event with
      | error e => simp [hk] at h
      | ok c₀ =>
        simp only [hk,Prod.mk.injEq,true_and,Option.some.injEq] at h
        simp only [created] at hk
        split at hk
        · cases hk
        · rename_i hs
          split at hk <;> cases hk
          cases hn : event.get "sequence" with
          | num n =>
            rw [hn] at hs
            refine ⟨n,rfl,by simpa [LuaValue.rawEq] using hs,rfl,?_⟩
            rw [← h,stamp,hn]
          | _ => simp [hn,LuaValue.rawEq] at hs
    · simp at h

theorem Conversation.Reachable.run (h : c.Reachable) {events : List Fields}
    (hr : Trace Calls c events c') : c'.Reachable := by
  obtain ⟨event,c₀,before,hcreate,hrun⟩ := h
  exact ⟨event,c₀,before ++ events,hcreate,hrun.append hr⟩

theorem Creates.reachable (h : Creates event c) : c.Reachable := ⟨event,c,[],h,.nil c⟩

/-- What the created conversation has and every call keeps, every reachable conversation has. -/
theorem Conversation.Reachable.preserves {P : Conversation → Prop}
    (hc : ∀ event c, Creates event c → P c)
    (hm : ∀ event c c', c.Reachable → P c → Moves event c c' → P c') (h : c.Reachable) : P c := by
  obtain ⟨event,c₀,events,hcreate,hrun⟩ := h
  refine (hrun.preserves (P := fun c => c.Reachable ∧ P c) ?_ ⟨hcreate.reachable,hc _ _ hcreate⟩).2
  rintro c e c' ⟨hr,hp⟩ hs
  exact ⟨hr.run (.single hs),hm e c c' hr hp hs.moves⟩

theorem Conversation.Reachable.accepts (h : c.Reachable) (ha : Accepts c event c') :
    c'.Reachable := h.run (.single ha.calls)

/-- The conversation after a call of the fold. -/
def Conversation.next (c : Conversation) (event : Fields) : Conversation :=
  ((fold (some c) event).2).getD c

theorem calls_next (c : Conversation) (event : Fields) : Calls c event (c.next event) := by
  unfold Calls Conversation.next fold
  cases eventChecks event <;> rfl

theorem Conversation.Reachable.next (h : c.Reachable) (event : Fields) :
    (c.next event).Reachable := h.run (.single (calls_next c event))

theorem accepts_next (h : (fold (some c) event).1.isOk) : Accepts c event (c.next event) := by
  have hn := calls_next c event
  unfold Calls at hn
  rcases hf : fold (some c) event with ⟨e | event',c'⟩ <;> rw [hf] at h hn
  · cases h
  · exact ⟨event',by rw [hf,← hn]⟩

end Runs

end Nefor.ConversationManager
