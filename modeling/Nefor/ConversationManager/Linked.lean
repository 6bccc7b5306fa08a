import Nefor.ConversationManager.Store

/-! The references inside a conversation always resolve: every exchange belongs to a listed
message and every exchange id kept by a message is listed. Handlers dereference both
without a check. -/
namespace Nefor.ConversationManager
open Nefor.Lua Nefor.Action

structure Linked (c : Conversation) : Prop where
  messageIndex : ∀ id i, c.messageById.lookup id = some i → i < c.messages.length
  exchangeIndex : ∀ id i, c.exchangeById.lookup id = some i → i < c.exchanges.length
  exchangeMessage : ∀ x ∈ c.exchanges, (c.messageById.lookup x.messageId).isSome
  messageExchanges : ∀ m ∈ c.messages, ∀ id ∈ m.exchangeIds, (c.exchangeById.lookup id).isSome

namespace Linked
variable {c : Conversation}

theorem findMessage_isSome (h : Linked c) {x : Exchange} (hx : x ∈ c.exchanges) :
    c.findMessage (.str x.messageId) ≠ none := by
  obtain ⟨i,hi⟩ := Option.isSome_iff_exists.mp (h.exchangeMessage x hx)
  have hlt := h.messageIndex _ _ hi
  simp [Conversation.findMessage,at?,hi,hlt]

theorem findExchange_isSome (h : Linked c) {m : Message} (hm : m ∈ c.messages) {id : String}
    (hid : id ∈ m.exchangeIds) : c.findExchange (.str id) ≠ none := by
  obtain ⟨i,hi⟩ := Option.isSome_iff_exists.mp (h.messageExchanges m hm id hid)
  have hlt := h.exchangeIndex _ _ hi
  simp [Conversation.findExchange,at?,hi,hlt]

theorem mem_modify {α : Type} {f : α → α} {y : α} {l : List α} {i : Nat}
    (h : y ∈ l.modify i f) : y ∈ l ∨ ∃ x ∈ l, y = f x := by
  induction l generalizing i with
  | nil => simp at h
  | cons a l ih =>
    cases i with
    | zero =>
      rcases List.mem_cons.mp (by simpa using h) with rfl | h
      · exact .inr ⟨a,by simp,rfl⟩
      · exact .inl (List.mem_cons_of_mem _ h)
    | succ i =>
      rcases List.mem_cons.mp (by simpa using h) with rfl | h
      · exact .inl List.mem_cons_self
      · rcases ih h with h | ⟨x,hx,rfl⟩
        · exact .inl (List.mem_cons_of_mem _ h)
        · exact .inr ⟨x,List.mem_cons_of_mem _ hx,rfl⟩

/-- Only the two lists and their id maps matter. -/
theorem same (h : Linked c) {c' : Conversation} (hm : c'.messages = c.messages)
    (hi : c'.messageById = c.messageById) (hx : c'.exchanges = c.exchanges)
    (hj : c'.exchangeById = c.exchangeById) : Linked c' := by
  constructor
  · rw [hm,hi]; exact h.messageIndex
  · rw [hx,hj]; exact h.exchangeIndex
  · rw [hx,hi]; exact h.exchangeMessage
  · rw [hm,hj]; exact h.messageExchanges

theorem modifyMessage (h : Linked c) {i : Nat} {f : Message → Message}
    (hf : ∀ m, (f m).exchangeIds = m.exchangeIds) : Linked (c.modifyMessage i f) where
  messageIndex id j hj := by simpa [Conversation.modifyMessage] using h.messageIndex id j hj
  exchangeIndex := h.exchangeIndex
  exchangeMessage := h.exchangeMessage
  messageExchanges m hm id hid := by
    rcases mem_modify hm with hm | ⟨x,hx,rfl⟩
    · exact h.messageExchanges m hm id hid
    · exact h.messageExchanges x hx id (by rwa [hf x] at hid)

theorem modifyExchange (h : Linked c) {i : Nat} {f : Exchange → Exchange}
    (hf : ∀ x, (f x).messageId = x.messageId) : Linked (c.modifyExchange i f) where
  messageIndex := h.messageIndex
  exchangeIndex id j hj := by simpa [Conversation.modifyExchange] using h.exchangeIndex id j hj
  exchangeMessage x hx := by
    rcases mem_modify hx with hx | ⟨y,hy,rfl⟩
    · exact h.exchangeMessage x hx
    · rw [hf y]; exact h.exchangeMessage y hy
  messageExchanges := h.messageExchanges

theorem modifyTurn (h : Linked c) (i : Nat) (f : Turn → Turn) : Linked (c.modifyTurn i f) :=
  ⟨h.1,h.2,h.3,h.4⟩

theorem modifyCompaction (h : Linked c) (i : Nat) (f : Compaction → Compaction) :
    Linked (c.modifyCompaction i f) := ⟨h.1,h.2,h.3,h.4⟩

theorem lookup_assign_isSome {α : Type} {map : List (String × α)} {key other : String}
    {value : α} (h : (map.lookup other).isSome) : ((assign map key value).lookup other).isSome := by
  rw [lookup_assign]; split <;> simp [h]

theorem lookup_assign_lt {map : List (String × Nat)} {key other : String} {n i : Nat}
    (h : ∀ id j, map.lookup id = some j → j < n)
    (hi : (assign map key n).lookup other = some i) : i < n+1 := by
  rw [lookup_assign] at hi
  split at hi
  · cases hi; omega
  · have := h _ _ hi; omega

theorem pushMessage (h : Linked c) {m : Message} (hm : m.exchangeIds = []) :
    Linked (c.pushMessage m) where
  messageIndex id i hi := by
    simpa [Conversation.pushMessage] using lookup_assign_lt h.messageIndex hi
  exchangeIndex := h.exchangeIndex
  exchangeMessage x hx := lookup_assign_isSome (h.exchangeMessage x hx)
  messageExchanges m' hm' id hid := by
    rcases List.mem_append.mp hm' with hm' | hm'
    · exact h.messageExchanges m' hm' id hid
    · rw [List.mem_singleton.mp hm',hm] at hid; simp at hid

/-- A new exchange is listed together with its id, and its message keeps that id. -/
theorem pushExchange (h : Linked c) {x : Exchange} {i : Nat}
    (hx : (c.messageById.lookup x.messageId).isSome) (n : Int) :
    Linked ({ c with
      exchanges := c.exchanges ++ [x]
      exchangeById := assign c.exchangeById x.id c.exchanges.length
      openExchanges := n }.modifyMessage i
        fun m => { m with exchangeIds := m.exchangeIds ++ [x.id] }) where
  messageIndex id j hj := by simpa [Conversation.modifyMessage] using h.messageIndex id j hj
  exchangeIndex id j hj := by
    simpa [Conversation.modifyMessage] using lookup_assign_lt h.exchangeIndex hj
  exchangeMessage y hy := by
    rcases List.mem_append.mp hy with hy | hy
    · exact h.exchangeMessage y hy
    · rw [List.mem_singleton.mp hy]; exact hx
  messageExchanges m hm id hid := by
    rcases mem_modify hm with hm | ⟨y,hy,rfl⟩
    · exact lookup_assign_isSome (h.messageExchanges m hm id hid)
    · rcases List.mem_append.mp hid with hid | hid
      · exact lookup_assign_isSome (h.messageExchanges y hy id hid)
      · rw [List.mem_singleton.mp hid]
        simp [Conversation.modifyMessage,lookup_assign]

theorem closeMessage (h : Linked c) (m : Message) :
    Linked (ConversationManager.closeMessage m c) := by
  unfold ConversationManager.closeMessage
  simp only
  split
  · split
    · exact ⟨h.1,h.2,h.3,h.4⟩
    · exact ⟨h.1,h.2,h.3,h.4⟩
  · exact ⟨h.1,h.2,h.3,h.4⟩

theorem takeChild (h : Linked c) (p : HistoryPath) :
    Linked (ConversationManager.takeChild p c) := ⟨h.1,h.2,h.3,h.4⟩

theorem recordNotice (h : Linked c) (event : Fields) (id : String) (p : HistoryPath) :
    Linked (ConversationManager.recordNotice event id p c) := ⟨h.1,h.2,h.3,h.4⟩

theorem startMessage (h : Linked c) (event : Fields) (s : Start) :
    Linked (ConversationManager.startMessage event s c) := by
  unfold ConversationManager.startMessage
  have hp := pushMessage h (rfl : (newMessage event s).exchangeIds = [])
  simp only
  split <;> split <;> exact ⟨hp.1,hp.2,hp.3,hp.4⟩

theorem stamp (h : Linked c) (event : Fields) : Linked (ConversationManager.stamp event c) := by
  unfold ConversationManager.stamp
  split
  · exact ⟨h.1,h.2,h.3,h.4⟩
  · exact h

end Linked

theorem Conversation.findMessage_eq_some {c : Conversation} {v : LuaValue} {r : Nat × Message}
    (h : c.findMessage v = some r) :
    ∃ id, v = .str id ∧ c.messageById.lookup id = some r.1 ∧ c.messages[r.1]? = some r.2 := by
  cases v with
  | str id =>
    simp only [findMessage,at?,Option.bind_eq_bind,Option.bind_eq_some_iff] at h
    obtain ⟨i,hi,m,hm,h⟩ := h
    cases h
    exact ⟨id,rfl,hi,hm⟩
  | _ => simp [findMessage,at?] at h

theorem Conversation.findExchange_eq_some {c : Conversation} {v : LuaValue} {r : Nat × Exchange}
    (h : c.findExchange v = some r) : c.exchanges[r.1]? = some r.2 := by
  simp only [findExchange,Option.bind_eq_bind,Option.bind_eq_some_iff] at h
  obtain ⟨i,_,x,hx,h⟩ := h
  cases h
  exact hx

theorem asId_str_getD (s : String) : (asId (.str s)).getD "" = s := by
  by_cases hs : s = "" <;> simp [asId,hs]

section Handlers
variable {c : Conversation} (event : Fields)
attribute [local simp] Leaves Inspects requireLive requireId requireOpenMessage requireOpenCall
  requirePendingOp

theorem startChecks_spec : Ends (startChecks event)
    (fun s c' => c' = c ∧ Role.ofLua (event.get "role") = some s.role ∧
      HistoryPath.allocate c.head c.historyChildMax = .ok s.allocated)
    (fun e c' => c' = c ∧ e.IsRejection) c := by
  simp [startChecks,startAllocated,requireLive,requireId,Fault.IsRejection]
  intros
  cases HistoryPath.allocate c.head c.historyChildMax <;> simp [*]

theorem startChecks_inspects : Inspects Fault.IsRejection (startChecks event) c :=
  (startChecks_spec event).mono (fun _ _ h => h.1) fun _ _ h => h

theorem startLateChecks_inspects (id : String) (role : Role) :
    Inspects Fault.IsRejection (startLateChecks event id role) c := by
  simp [startLateChecks,Fault.IsRejection]

theorem requireNoPending_inspects (c' : Conversation) :
    Inspects Fault.IsRejection (requireNoPending c') c := by
  unfold requireNoPending
  split <;> simp [Fault.IsRejection]

theorem requireIds_inspects (fields : List String) :
    Inspects Fault.IsRejection (requireIds event fields) c := by
  induction fields with
  | nil => simp [requireIds]
  | cons field rest ih =>
    simp [requireIds,Fault.IsRejection]
    intros
    exact ih

theorem evidenceChecks_inspects (delivered : Bool) :
    Inspects Fault.IsRejection (evidenceChecks delivered event) c := by
  simp [evidenceChecks,Fault.IsRejection]

theorem requestChecks_inspects : Inspects Fault.IsRejection (requestChecks event) c := by
  simp only [requestChecks,Inspects,ends_bind]
  simp [requireLive,Fault.IsRejection]
  intro hl
  refine (requireIds_inspects event _).mono ?_ fun _ _ h => h
  rintro _ _ rfl
  simp
  intro _
  refine (requireNoPending_inspects _).mono ?_ fun _ _ h => h
  rintro _ _ rfl
  simp

/-- A dangling exchange id makes this check raise, so only the state is kept. -/
theorem completionChecks_same (m : Message) : Leaves (· = c) (completionChecks m event) c := by
  simp only [completionChecks,Leaves,ends_bind,ends_read]
  split <;> simp

end Handlers

section Handlers
variable {c : Conversation} (h : Linked c) (event : Fields)
include h
attribute [local simp] Leaves requireLive requireId requireOpenMessage requireOpenCall
  requirePendingOp

theorem settleVisibility_linked (i : Nat) (m : Message) :
    Leaves Linked (settleVisibility i m event) c := by
  unfold settleVisibility
  simp [h]
  intros
  exact h.modifyMessage fun _ => rfl

theorem messageStarted_linked : Leaves Linked (messageStarted event) c := by
  simp only [messageStarted,Leaves,ends_bind,ends_update,ends_pure]
  refine (startChecks_inspects event).mono ?_ ?_
  · rintro s _ rfl
    refine (startLateChecks_inspects event s.id s.role).mono ?_ ?_
    · rintro _ _ rfl; exact (h.takeChild _).startMessage _ _
    · rintro _ _ ⟨rfl,_⟩; exact h.takeChild _
  · rintro _ _ ⟨rfl,_⟩; exact h

theorem messageCompleted_linked : Leaves Linked (messageCompleted event) c := by
  simp only [messageCompleted,Leaves,ends_bind,requireLive,requireOpenMessage]
  simp [h]
  intro _ i m _ _
  refine (settleVisibility_linked h event i m).mono ?_ fun _ _ h => h
  intro _ c' h'
  refine (completionChecks_same event m).mono ?_ ?_
  · rintro _ c' rfl
    have hm : Linked (ConversationManager.closeMessage m (c'.modifyMessage i fun m => { m with
      status := .completed
      completedSequence := event.get "sequence"
      completion := (event.get "completion").orElse (.table false [])
      providerContext := if (event.get "provider_context").isNil then m.providerContext
        else event.get "provider_context" })) := by
      refine Linked.closeMessage (h'.modifyMessage ?_) m
      intro; rfl
    split
    · simpa using hm
    · simp
      refine hm.modifyMessage ?_
      intro; rfl
  · rintro _ _ rfl; exact h'

theorem retryStarted_linked : Leaves Linked (retryStarted event) c := by
  simp [retryStarted,h]
  intros
  constructor
  · intro; exact ⟨h.1,h.2,h.3,h.4⟩
  · intros
    refine Linked.modifyMessage ?_ ?_
    · exact ⟨h.1,h.2,h.3,h.4⟩
    · intro; rfl

theorem rewindCommitted_linked : Leaves Linked (rewindCommitted event) c := by
  simp only [rewindCommitted,Leaves,ends_bind,requireLive]
  simp [h]
  intros
  refine (requireNoPending_inspects c).mono ?_ ?_
  · rintro _ _ rfl
    simp [h]
    intros
    exact ⟨h.1,h.2,h.3,h.4⟩
  · rintro _ _ ⟨rfl,_⟩; exact h

theorem contextNoticeAppended_linked : Leaves Linked (contextNoticeAppended event) c := by
  simp only [contextNoticeAppended,Leaves,ends_bind,requireLive]
  simp [h]
  intros
  refine (requireIds_inspects event _).mono ?_ ?_
  · rintro _ _ rfl
    simp [h]
    intros
    split
    · simp [h]
      intros
      exact h.recordNotice _ _ _
    · simp [h]
      intros
      split
      · simpa using h
      · simp
        exact ((h.takeChild _).pushMessage rfl).recordNotice _ _ _
  · rintro _ _ ⟨rfl,_⟩; exact h

theorem noticeEvidence_linked (delivered : Bool) :
    Leaves Linked (noticeEvidence delivered event) c := by
  simp only [noticeEvidence,Leaves,ends_bind]
  refine (evidenceChecks_inspects event delivered).mono ?_ ?_
  · rintro ⟨id,notice,requestId⟩ _ rfl
    simp only [ends_read]
    split
    · simpa using h
    · simp
      exact ⟨h.1,h.2,h.3,h.4⟩
  · rintro _ _ ⟨rfl,_⟩; exact h

theorem contextCompactionRequested_linked :
    Leaves Linked (contextCompactionRequested event) c := by
  simp only [contextCompactionRequested,Leaves,ends_bind]
  refine (requestChecks_inspects event).mono ?_ ?_
  · rintro _ _ rfl
    simp [h]
    intros
    split
    · simpa using h
    · simp [h]
      intros
      exact ⟨h.1,h.2,h.3,h.4⟩
  · rintro _ _ ⟨rfl,_⟩; exact h

theorem finishExchange_linked {settle : Exchange → Exchange}
    (hs : ∀ x, (settle x).messageId = x.messageId) :
    Leaves Linked (finishExchange settle event) c := by
  simp [finishExchange,h]
  intros
  refine Linked.same (h.modifyExchange ?_) rfl rfl rfl rfl
  exact hs

theorem toolExchangeStarted_linked : Leaves Linked (toolExchangeStarted event) c := by
  simp [toolExchangeStarted,h]
  intro _ id _ _ i m hm _ _
  obtain ⟨mid,hmid,hi,_⟩ := Conversation.findMessage_eq_some hm
  rw [hmid]
  exact h.pushExchange (by rw [asId_str_getD,hi]; rfl) _

theorem toolCallCompleted_linked : Leaves Linked (toolCallCompleted event) c := by
  simp only [toolCallCompleted,Leaves,ends_bind,requireLive,requireOpenCall]
  simp [h]
  intros
  refine Linked.same (h.modifyExchange ?_) rfl rfl rfl rfl
  intro; rfl

theorem finishTurn_linked (status : TurnStatus) : Leaves Linked (finishTurn status event) c := by
  simp [finishTurn,h]
  intros
  exact h.modifyTurn _ _

theorem terminate_linked (status : ConversationStatus) :
    Leaves Linked (terminate status event) c := by
  simp [terminate,h]
  intros
  exact ⟨h.1,h.2,h.3,h.4⟩

/-- Every handler keeps the references resolved, also when it stops half-way. -/
theorem handler_linked (kind : Kind) : Leaves Linked (kind.handler event) c := by
  cases kind with
  | messageCompleted => exact messageCompleted_linked h event
  | retryStarted => exact retryStarted_linked h event
  | rewindCommitted => exact rewindCommitted_linked h event
  | contextNoticeAppended => exact contextNoticeAppended_linked h event
  | contextNoticeIncluded => exact noticeEvidence_linked h event false
  | contextNoticeDelivered => exact noticeEvidence_linked h event true
  | contextCompactionRequested => exact contextCompactionRequested_linked h event
  | toolExchangeStarted => exact toolExchangeStarted_linked h event
  | toolCallCompleted => exact toolCallCompleted_linked h event
  | toolResultRecorded => exact finishExchange_linked h event fun _ => rfl
  | toolErrorRecorded => exact finishExchange_linked h event fun _ => rfl
  | turnCompleted => exact finishTurn_linked h event .completed
  | turnFailed => exact finishTurn_linked h event .failed
  | turnInterrupted => exact finishTurn_linked h event .interrupted
  | conversationCompleted => exact terminate_linked h event .completed
  | conversationInterrupted => exact terminate_linked h event .interrupted
  | conversationFailed => exact terminate_linked h event .failed
  | activeSelected => simpa [Kind.handler,activeSelected] using h
  | responseUsageRecorded =>
    simp [Kind.handler,responseUsageRecorded,h]
    intros; exact ⟨h.1,h.2,h.3,h.4⟩
  | provenanceUpdated =>
    simp [Kind.handler,provenanceUpdated,h]
    intros; exact ⟨h.1,h.2,h.3,h.4⟩
  | turnStarted =>
    simp [Kind.handler,turnStarted,h]
    intros; exact ⟨h.1,h.2,h.3,h.4⟩
  | contentChunkAppended =>
    simp [Kind.handler,contentChunkAppended,h]
    intros
    refine h.modifyMessage ?_
    intro; rfl
  | toolCallFragmentAppended =>
    simp [Kind.handler,toolCallFragmentAppended,h]
    intros
    refine h.modifyExchange ?_
    intro; rfl
  | messageInterrupted =>
    simp only [Kind.handler,messageInterrupted,Leaves,ends_bind,requireLive,requireOpenMessage]
    simp [h]
    intro _ i m _ _
    refine (settleVisibility_linked h event i m).mono ?_ fun _ _ h => h
    intro _ c' h'
    refine Linked.closeMessage (h'.modifyMessage ?_) m
    intro; rfl
  | contextCompactionCompleted =>
    simp [Kind.handler,contextCompactionCompleted,h]
    intros
    exact h.modifyCompaction _ _
  | contextCompactionFailed =>
    simp [Kind.handler,contextCompactionFailed,h]
    intros
    exact h.modifyCompaction _ _

theorem foldInto_linked (d : Dispatch) : Leaves Linked (foldInto event d) c := by
  simp only [foldInto,Leaves,ends_bind,ends_read]
  split
  · simpa using h
  · cases d with
    | created => simpa using h
    | messageStarted =>
      simp only [ends_bind,ends_update,ends_pure]
      exact (messageStarted_linked h event).mono (fun _ _ h => h.stamp event) fun _ _ h => h
    | other kind =>
      simp only [ends_bind,ends_update,ends_pure]
      exact (handler_linked h event kind).mono (fun _ _ h => h.stamp event) fun _ _ h => h

end Handlers

theorem created_linked {event : Fields} {c : Conversation} (h : created none event = .ok c) :
    Linked c := by
  simp only [created] at h
  split at h
  · cases h
  · split at h <;> cases h
    constructor <;> simp

/-- Folding an event leaves linked conversations linked, whatever it returns. -/
theorem fold_linked (conversation : Option Conversation) (h : ∀ c ∈ conversation, Linked c)
    (event : Fields) : ∀ c ∈ (fold conversation event).2, Linked c := by
  unfold fold
  cases eventChecks event with
  | error e => simpa using h
  | ok d =>
    cases conversation with
    | some c =>
      intro c' hc'
      simp only [Option.mem_some_iff] at hc'
      subst hc'
      exact (leaves_iff _ _ _).mp (foldInto_linked (h c rfl) event d)
    | none =>
      intro c' hc'
      by_cases hd : d = .created
      · simp only [hd,if_true] at hc'
        cases hk : created none event with
        | error e => rw [hk] at hc'; cases hc'
        | ok c =>
          rw [hk] at hc'
          cases hc'
          exact (created_linked hk).stamp event
      · simp only [hd,if_false] at hc'; cases hc'

end Nefor.ConversationManager
