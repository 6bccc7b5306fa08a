import Nefor.Except
import Nefor.ConversationManager.History

/-! What the conversation table keeps about itself: the lookup maps beside its lists, the counts
of what is open, and which events it still takes once it has ended. -/
namespace Nefor.ConversationManager
open Nefor.Lua Nefor.Action

/-- The fact is the appended notice with this id. -/
def Appends (fact : Fields) (id : String) : Prop :=
  fact.get "kind" = .str "context_notice_appended" ∧ fact.get "notice_id" = .str id

/-- The lookup maps index exactly what is listed. -/
structure Filed (c : Conversation) : Prop where
  messages : Indexed (c.messages.map (·.id)) fun id => c.messageById.lookup id
  history : Indexed (c.messages.map fun m => HistoryPath.keyOf m.historyId) fun id => c.historyByKey.lookup id
  exchanges : Indexed (c.exchanges.map (·.id)) fun id => c.exchangeById.lookup id
  retries : Indexed (c.retries.map (·.id)) fun id => c.retryById.lookup id
  turns : Indexed (c.turns.map (·.id)) fun id => c.turnById.lookup id
  compactions : Indexed (c.compactions.map (·.requestId)) fun id => c.compactionById.lookup id
  toolCalls : ∀ id i, c.exchangeByToolCallId.lookup id = some i →
    ∃ x, c.exchanges[i]? = some x ∧ x.toolCallId = .str id ∧ x.status ≠ .callOpen
  notices : ∀ id, (c.noticeById.lookup id).isSome ↔ ∃ fact ∈ c.noticeFacts, Appends fact id
  noticeIds : ∀ id notice, c.noticeById.lookup id = some notice → Appends notice id

section Tables
variable {α : Type} {key : α → String} {items : List α} {map : List (String × Nat)}

theorem indexed_assign (key : α → String) (h : Indexed (items.map key) fun id => map.lookup id)
    {x : α} (hx : map.lookup (key x) = none) :
    Indexed ((items ++ [x]).map key) fun id => (assign map (key x) items.length).lookup id := by
  rw [List.map_append,List.map_singleton]
  refine h.push hx fun j => ?_
  rw [lookup_assign,List.length_map]

theorem indexed_modify (key : α → String) {look : String → Option Nat}
    (h : Indexed (items.map key) look) {i : Nat} {f : α → α} (hf : ∀ x, items[i]? = some x → key (f x) = key x) :
    Indexed ((items.modify i f).map key) look := by
  rw [map_modify_same hf]
  exact h

end Tables

section Notices
variable {event notice notice' : Fields} {c : Conversation}

theorem recorded_get (path : HistoryPath) {name : String}
    (hn : name ∉ ["text","history_id","request_ids"]) :
    Fields.get (((event.unset "text").set "history_id" path.toLua).set "request_ids" (.array []))
      name = event.get name := by
  simp only [List.mem_cons,List.not_mem_nil,or_false,not_or] at hn
  rw [Fields.get_set_of_ne _ _ hn.2.2,Fields.get_set_of_ne _ _ hn.2.1,
    Fields.get_unset_of_ne _ hn.1]

theorem evidenceFact_get {name : String}
    (hn : name ∉ ["milestone_percent","message_id","request_ids"]) :
    (evidenceFact event notice).get name = event.get name := by
  simp only [List.mem_cons,List.not_mem_nil,or_false,not_or] at hn
  rw [evidenceFact,Fields.get_set_of_ne _ _ hn.2.2,Fields.get_set_of_ne _ _ hn.2.1,
    Fields.get_set_of_ne _ _ hn.1]

theorem updateNotice_get {delivered : Bool} {requestId : String} {lastSequence : LuaNum}
    (h : updateNotice delivered notice requestId event lastSequence = .ok notice') {name : String}
    (hn : name ∉ ["delivered","inclusions","request_ids"]) : notice'.get name = notice.get name := by
  simp only [List.mem_cons,List.not_mem_nil,or_false,not_or] at hn
  unfold updateNotice at h
  obtain ⟨inclusion,_,h⟩ := bind_eq_ok.mp h
  cases delivered with
  | true =>
    simp only [if_true,deliverNotice,bind,Except.bind] at h
    repeat' split at h
    all_goals first | (cases h; exact Fields.get_set_of_ne _ _ hn.1) | cases h
  | false =>
    simp only [Bool.false_eq_true,if_false,includeNotice,bind,Except.bind] at h
    repeat' split at h
    all_goals first
      | (cases h; rw [Fields.get_set_of_ne _ _ hn.2.2,Fields.get_set_of_ne _ _ hn.2.1])
      | cases h

end Notices

namespace Filed
variable {event : Fields} {c c' : Conversation}

theorem modifyMessage (h : Filed c) {i : Nat} {f : Message → Message}
    (hf : ∀ m, c.messages[i]? = some m → (f m).id = m.id ∧ (f m).historyId = m.historyId) :
    Filed (c.modifyMessage i f) where
  messages := indexed_modify _ h.messages fun m hm => (hf m hm).1
  history := indexed_modify (fun m : Message => HistoryPath.keyOf m.historyId) h.history
    fun m hm => by simp only [(hf m hm).2]
  exchanges := h.exchanges
  retries := h.retries
  turns := h.turns
  compactions := h.compactions
  toolCalls := h.toolCalls
  notices := h.notices
  noticeIds := h.noticeIds

theorem modifyExchange (h : Filed c) {i : Nat} {f : Exchange → Exchange}
    (hf : ∀ x, c.exchanges[i]? = some x → (f x).id = x.id ∧ (x.status ≠ .callOpen →
      (f x).toolCallId = x.toolCallId ∧ (f x).status ≠ .callOpen)) :
    Filed (c.modifyExchange i f) := by
  refine ⟨h.messages,h.history,indexed_modify _ h.exchanges fun x hx => (hf x hx).1,h.retries,h.turns,
    h.compactions,fun id j hj => ?_,h.notices,h.noticeIds⟩
  obtain ⟨x,hx,hid,hs⟩ := h.toolCalls id j hj
  by_cases hij : i = j
  · subst hij
    obtain ⟨hc,hs'⟩ := (hf x hx).2 hs
    exact ⟨f x,by simp [Conversation.modifyExchange,hx],hc.trans hid,hs'⟩
  · exact ⟨x,by simp [Conversation.modifyExchange,hij,hx],hid,hs⟩

theorem modifyTurn (h : Filed c) {i : Nat} {f : Turn → Turn}
    (hf : ∀ t, c.turns[i]? = some t → (f t).id = t.id) : Filed (c.modifyTurn i f) :=
  ⟨h.messages,h.history,h.exchanges,h.retries,indexed_modify _ h.turns hf,h.compactions,h.toolCalls,
    h.notices,h.noticeIds⟩

theorem modifyCompaction (h : Filed c) {i : Nat} {f : Compaction → Compaction}
    (hf : ∀ op, c.compactions[i]? = some op → (f op).requestId = op.requestId) :
    Filed (c.modifyCompaction i f) :=
  ⟨h.messages,h.history,h.exchanges,h.retries,h.turns,indexed_modify _ h.compactions hf,h.toolCalls,
    h.notices,h.noticeIds⟩

theorem closeMessage (h : Filed c) (m : Message) : Filed (closeMessage m c) := by
  have hc : Filed { c with openMessages := c.openMessages - 1 } :=
    ⟨h.messages,h.history,h.exchanges,h.retries,h.turns,h.compactions,h.toolCalls,h.notices,
      h.noticeIds⟩
  unfold ConversationManager.closeMessage
  simp only
  split
  · split
    · exact hc.modifyTurn fun _ _ => rfl
    · exact hc
  · exact hc

/-- A message with a fresh id goes below the head. -/
theorem pushMessage (h : Filed c) (hg : c.tree.Grown) {p : HistoryPath} {m : Message}
    (ha : HistoryPath.allocate c.head c.historyChildMax = .ok p) (hp : m.historyId = p)
    (hm : c.messageById.lookup m.id = none) : Filed ((takeChild p c).pushMessage m) := by
  refine ⟨indexed_assign _ h.messages hm,?_,h.exchanges,h.retries,h.turns,h.compactions,h.toolCalls,
    h.notices,h.noticeIds⟩
  refine indexed_assign (fun m : Message => HistoryPath.keyOf m.historyId) h.history ?_
  rw [h.history.eq_none]
  intro hk
  obtain ⟨n,hn,hkey⟩ := List.mem_map.mp hk
  have hnp : n.historyId = c.tree.next :=
    (HistoryPath.keyOf_injective hkey).trans (hp.trans (allocate_next ha))
  exact hg.next_not_mem (hnp ▸ List.mem_map_of_mem hn)

theorem startMessage {s : Start} (h : Filed (c.pushMessage (newMessage event s))) :
    Filed (startMessage event s c) := by
  have hc : Filed (if s.role = .user ∧ s.visibility = .transcript then
      { c.pushMessage (newMessage event s) with pendingEdit := none }
      else c.pushMessage (newMessage event s)) := by
    split
    · exact ⟨h.messages,h.history,h.exchanges,h.retries,h.turns,h.compactions,h.toolCalls,h.notices,
        h.noticeIds⟩
    · exact h
  unfold ConversationManager.startMessage
  simp only
  generalize (if s.role = .user ∧ s.visibility = .transcript then
      { c.pushMessage (newMessage event s) with pendingEdit := none }
      else c.pushMessage (newMessage event s)) = c' at hc
  have hopen : Filed { c' with openMessages := c'.openMessages + 1 } :=
    ⟨hc.messages,hc.history,hc.exchanges,hc.retries,hc.turns,hc.compactions,hc.toolCalls,hc.notices,
      hc.noticeIds⟩
  split
  · exact hopen.modifyTurn fun _ _ => rfl
  · exact hopen

theorem recordNotice (h : Filed c) {id : String} {path : HistoryPath}
    (hk : event.get "kind" = .str "context_notice_appended")
    (hid : event.get "notice_id" = .str id) : Filed (recordNotice event id path c) := by
  have ha : ∀ other, Appends (((event.unset "text").set "history_id" path.toLua).set "request_ids"
      (.array [])) other ↔ other = id := by
    intro other
    rw [Appends,recorded_get path (by simp),recorded_get path (by simp),hk,hid]
    simp [eq_comm]
  refine ⟨h.messages,h.history,h.exchanges,h.retries,h.turns,h.compactions,h.toolCalls,?_,?_⟩
  · intro other
    simp only [ConversationManager.recordNotice,lookup_assign,List.mem_append,List.mem_singleton,
      or_and_right,exists_or,exists_eq_left,ha]
    by_cases ho : other = id
    · simp [ho]
    · simpa [ho] using h.notices other
  · intro other notice hn
    simp only [ConversationManager.recordNotice,lookup_assign] at hn
    by_cases ho : other = id
    · rw [if_pos ho] at hn
      cases hn
      exact (ha other).mpr ho
    · rw [if_neg ho] at hn
      exact h.noticeIds other notice hn

theorem noticeEvidence (h : Filed c) {delivered : Bool} {id requestId : String}
    {notice notice' : Fields}
    (hk : event.get "kind" ≠ .str "context_notice_appended")
    (hn : c.noticeById.lookup id = some notice)
    (hu : updateNotice delivered notice requestId event c.lastSequence = .ok notice') :
    Filed { c with
      noticeById := assign c.noticeById id notice'
      noticeFacts := c.noticeFacts ++ [evidenceFact event notice'] } := by
  have hfact : ∀ other, ¬Appends (evidenceFact event notice') other := by
    intro other ha
    rw [Appends,evidenceFact_get (by simp)] at ha
    exact hk ha.1
  refine ⟨h.messages,h.history,h.exchanges,h.retries,h.turns,h.compactions,h.toolCalls,?_,?_⟩
  · intro other
    simp only [lookup_assign,List.mem_append,List.mem_singleton,or_and_right,exists_or,
      exists_eq_left,hfact,or_false]
    rw [← h.notices other]
    by_cases ho : other = id
    · simp [ho,hn]
    · simp [ho]
  · intro other notice₁ h₁
    simp only [lookup_assign] at h₁
    by_cases ho : other = id
    · rw [if_pos ho] at h₁
      cases h₁
      have ha := h.noticeIds id notice hn
      rw [Appends,updateNotice_get hu (by simp),updateNotice_get hu (by simp),ho]
      exact ha
    · rw [if_neg ho] at h₁
      exact h.noticeIds other notice₁ h₁

theorem stamp (h : Filed c) : Filed (stamp event c) := by
  unfold ConversationManager.stamp
  split
  · exact ⟨h.messages,h.history,h.exchanges,h.retries,h.turns,h.compactions,h.toolCalls,h.notices,
      h.noticeIds⟩
  · exact h

theorem pushExchange (h : Filed c) {x : Exchange} (hx : c.exchangeById.lookup x.id = none) :
    Filed { c with
      exchanges := c.exchanges ++ [x]
      exchangeById := assign c.exchangeById x.id c.exchanges.length
      openExchanges := c.openExchanges + 1 } := by
  refine ⟨h.messages,h.history,indexed_assign _ h.exchanges hx,h.retries,h.turns,h.compactions,
    fun id i hi => ?_,h.notices,h.noticeIds⟩
  obtain ⟨y,hy,hid,hs⟩ := h.toolCalls id i hi
  exact ⟨y,by rw [List.getElem?_append_left (List.getElem?_eq_some_iff.mp hy).1,hy],hid,hs⟩

theorem completeCall (h : Filed c) {i : Nat} {x : Exchange} {id : String} {name arguments : LuaValue}
    (hx : c.exchanges[i]? = some x) (hs : x.status = .callOpen) :
    Filed { c.modifyExchange i fun x => { x with
        status := .callCompleted
        toolCallId := .str id
        toolName := name
        arguments := arguments } with
      exchangeByToolCallId := assign c.exchangeByToolCallId id i } := by
  refine ⟨h.messages,h.history,indexed_modify _ h.exchanges fun _ _ => rfl,h.retries,h.turns,
    h.compactions,fun other j hj => ?_,h.notices,h.noticeIds⟩
  simp only [lookup_assign] at hj
  by_cases ho : other = id
  · rw [if_pos ho] at hj
    cases hj
    exact ⟨_,by simp [Conversation.modifyExchange,hx]; rfl,by simp [ho],by simp⟩
  · rw [if_neg ho] at hj
    obtain ⟨y,hy,hyid,hys⟩ := h.toolCalls other j hj
    -- the map never points at a call that is still collected
    have hij : i ≠ j := by
      rintro rfl
      rw [hx] at hy
      cases hy
      exact hys hs
    exact ⟨y,by simp [Conversation.modifyExchange,hij,hy],hyid,hys⟩

/-- A message is closed in place. -/
theorem close (h : Filed c) {i : Nat} {m m' : Message} {visibility : Visibility}
    (hm : c.messages[i]? = some m) (hc : Closed m m' visibility) :
    Filed (ConversationManager.closeMessage m (c.modifyMessage i fun _ => m')) := by
  refine (h.modifyMessage fun n hn => ?_).closeMessage m
  rw [hm] at hn
  cases hn
  exact ⟨hc.id,hc.historyId⟩

/-- Exactly what is listed stays indexed. -/
theorem effect (h : Filed c) (hg : c.tree.Grown) {d : Dispatch} (hd : eventChecks event = .ok d)
    (he : Effect event c d c') : Filed c' := by
  have hf : ∀ messageId, c.findMessage (.str messageId) = none →
      c.messageById.lookup messageId = none := by
    intro messageId hf
    cases hl : c.messageById.lookup messageId with
    | none => rfl
    | some i =>
      have hi := (h.messages _ _).mp hl
      rw [List.getElem?_map,Option.map_eq_some_iff] at hi
      obtain ⟨m,hm,_⟩ := hi
      simp [Conversation.findMessage,at?,hl,hm] at hf
  cases he with
  | messageStarted hs => exact (h.pushMessage hg hs.allocated rfl hs.fresh).startMessage
  | contentChunkAppended ho => exact h.modifyMessage fun _ _ => ⟨rfl,rfl⟩
  | toolExchangeStarted ho hx => exact (h.pushExchange hx).modifyMessage fun _ _ => ⟨rfl,rfl⟩
  | toolCallFragmentAppended hl hx hs => exact h.modifyExchange fun _ _ => ⟨rfl,fun hs => ⟨rfl,hs⟩⟩
  | toolCallCompleted hl hx hs => exact h.completeCall hx hs
  | @exchangeFinished kind i x x' hl hk hx hs hs' hid hc =>
    have hf : Filed (c.modifyExchange i fun _ => x') := h.modifyExchange fun y hy => by
      rw [hx] at hy
      cases hy
      exact ⟨hid,fun _ => ⟨hc,by rcases hs' with hs' | hs' <;> simp [hs']⟩⟩
    exact ⟨hf.messages,hf.history,hf.exchanges,hf.retries,hf.turns,hf.compactions,hf.toolCalls,
      hf.notices,hf.noticeIds⟩
  | messageCompleted ho hv hm => exact h.close ho.at_index hm
  | messageInterrupted ho hv hm => exact h.close ho.at_index hm
  | @retryStarted retry message hl hr =>
    have hf : Filed { c with
        retries := c.retries ++ [retry]
        retryById := assign c.retryById retry.id c.retries.length } :=
      ⟨h.messages,h.history,h.exchanges,indexed_assign _ h.retries hr,h.turns,h.compactions,
        h.toolCalls,h.notices,h.noticeIds⟩
    cases message with
    | none => exact hf
    | some i => exact hf.modifyMessage fun _ _ => ⟨rfl,rfl⟩
  | turnStarted hl ht =>
    exact ⟨h.messages,h.history,h.exchanges,h.retries,indexed_assign _ h.turns ht,h.compactions,
      h.toolCalls,h.notices,h.noticeIds⟩
  | turnFinished hl hk ht hs hz hs' hid =>
    obtain ⟨_,_,_,hi⟩ := Conversation.findTurn_eq_some ht
    refine h.modifyTurn fun t ht => ?_
    rw [hi] at ht
    cases ht
    exact hid
  | noticeRecorded hn =>
    exact h.recordNotice (eventChecks_kind hd) (asId_eq_some hn.noticeId).1
  | noticeAppended hn hm ha =>
    exact (h.pushMessage hg ha rfl (hf _ hm)).recordNotice (eventChecks_kind hd)
      (asId_eq_some hn.noticeId).1
  | @noticeEvidence kind delivered id requestId notice notice' hk hev hu =>
    refine h.noticeEvidence (fun hn => ?_) hev.found hu
    rw [eventChecks_kind hd,hk] at hn
    cases delivered <;> simp [Kind.name] at hn
  | compactionRequested hr =>
    exact ⟨h.messages,h.history,h.exchanges,h.retries,h.turns,indexed_assign _ h.compactions hr.fresh,
      h.toolCalls,h.notices,h.noticeIds⟩
  | compactionSettled hk hop hp he hh hs =>
    obtain ⟨_,_,_,hi⟩ := Conversation.findCompaction_eq_some hop
    refine h.modifyCompaction fun op hop => ?_
    rw [hi] at hop
    cases hop
    exact hs.requestId
  | _ => exact ⟨h.messages,h.history,h.exchanges,h.retries,h.turns,h.compactions,h.toolCalls,
      h.notices,h.noticeIds⟩

theorem moves (h : Filed c) (hg : c.tree.Grown) (hm : Moves event c c') : Filed c' := by
  cases hm with
  | accepted hd hc he => exact (h.effect hg hd he).stamp
  | refused hr =>
    rcases hr with rfl | ht
    · exact h
    · cases ht with
      | started hs =>
        exact ⟨h.messages,h.history,h.exchanges,h.retries,h.turns,h.compactions,h.toolCalls,
          h.notices,h.noticeIds⟩
      | narrowed ho hv =>
        refine h.modifyMessage fun m hm => ?_
        rw [ho.at_index] at hm
        cases hm
        exact ⟨rfl,rfl⟩
      | closed ho hv hm => exact h.close ho.at_index hm

theorem creates (h : Creates event c) : Filed c := by
  obtain ⟨n,_,_,_,rfl⟩ := h.eq
  constructor
  all_goals simp [Indexed]

end Filed

/-- A message id stands for one message. -/
theorem Filed.message_inj {c : Conversation} (h : Filed c) {i j : Nat} {m n : Message}
    (hi : c.messages[i]? = some m) (hj : c.messages[j]? = some n) (hid : m.id = n.id) : i = j := by
  refine h.messages.inj (k := n.id) ?_ ?_
  · rw [List.getElem?_map,hi,Option.map_some,hid]
  · rw [List.getElem?_map,hj,Option.map_some]

/-- A listed message is found under its id. -/
theorem Filed.findMessage {c : Conversation} (h : Filed c) {i : Nat} {m : Message}
    (hi : c.messages[i]? = some m) : c.findMessage (.str m.id) = some (i,m) := by
  have hl : c.messageById.lookup m.id = some i :=
    (h.messages m.id i).mpr (by rw [List.getElem?_map,hi,Option.map_some])
  simp [Conversation.findMessage,at?,hl,hi]

theorem Conversation.Reachable.filed {c : Conversation} (h : c.Reachable) : Filed c :=
  h.preserves (fun _ _ => Filed.creates) fun _ _ _ hr hf hm => hf.moves hr.tree.1 hm

/-- The message is open. -/
def opened (m : Message) : Bool := decide (m.status = .opened)

/-- The message is open and carries the turn id. -/
def openedIn (id : String) (m : Message) : Bool := opened m && m.turnId.rawEq (.str id)

/-- The call has been started and is not answered yet. -/
def unfinished (x : Exchange) : Bool := decide (x.status = .callOpen ∨ x.status = .callCompleted)

/-- The counts of what is open. -/
structure Counted (c : Conversation) : Prop where
  openMessages : c.openMessages = c.messages.countP opened
  openExchanges : c.openExchanges = c.exchanges.countP unfinished
  turnMessages : ∀ t ∈ c.turns, t.openMessages = c.messages.countP (openedIn t.id)
  finished : ∀ t ∈ c.turns, t.status ≠ .opened → t.openMessages = 0
  turnIds : ∀ m ∈ c.messages, m.turnId.truthy →
    ∃ id, m.turnId = .str id ∧ (c.turnById.lookup id).isSome

namespace Counted
variable {event : Fields} {c c' : Conversation}

/-- Only the messages, the exchanges and the turns are counted. -/
theorem same (h : Counted c) (hm : c'.messages = c.messages) (hx : c'.exchanges = c.exchanges)
    (ht : c'.turns = c.turns) (hi : c'.turnById = c.turnById)
    (hom : c'.openMessages = c.openMessages) (hox : c'.openExchanges = c.openExchanges) :
    Counted c' := by
  obtain ⟨h1,h2,h3,h4,h5⟩ := h
  exact ⟨by rw [hom,hm,h1],by rw [hox,hx,h2],by rw [ht,hm]; exact h3,by rw [ht]; exact h4,
    by rw [hm,hi]; exact h5⟩

theorem opened_eq {m m' : Message} (hs : m'.status = m.status) : opened m' = opened m := by
  rw [opened,opened,hs]

theorem openedIn_eq {m m' : Message} (hs : m'.status = m.status) (ht : m'.turnId = m.turnId)
    (id : String) : openedIn id m' = openedIn id m := by
  rw [openedIn,openedIn,opened_eq hs,ht]

/-- A message is changed but stays as open as it was. -/
theorem modifyMessage (h : Counted c) {i : Nat} {f : Message → Message}
    (hf : ∀ m, c.messages[i]? = some m → (f m).status = m.status ∧ (f m).turnId = m.turnId) :
    Counted (c.modifyMessage i f) where
  openMessages := by
    rw [Conversation.modifyMessage,countP_modify_same fun m hm => opened_eq (hf m hm).1]
    exact h.openMessages
  openExchanges := h.openExchanges
  turnMessages := fun t ht => by
    rw [Conversation.modifyMessage,
      countP_modify_same fun m hm => openedIn_eq (hf m hm).1 (hf m hm).2 t.id]
    exact h.turnMessages t ht
  finished := h.finished
  turnIds := fun m hm => by
    rcases mem_modify_cases hm with ⟨n,hn,rfl⟩ | ⟨j,_,hj⟩
    · rw [(hf n hn).2]
      exact h.turnIds n (List.mem_of_getElem? hn)
    · exact h.turnIds m (List.mem_of_getElem? hj)

theorem modifyExchange (h : Counted c) {i : Nat} {f : Exchange → Exchange}
    (hf : ∀ x, c.exchanges[i]? = some x → unfinished (f x) = unfinished x) :
    Counted (c.modifyExchange i f) where
  openMessages := h.openMessages
  openExchanges := by
    rw [Conversation.modifyExchange,countP_modify_same hf]
    exact h.openExchanges
  turnMessages := h.turnMessages
  finished := h.finished
  turnIds := h.turnIds

/-- A turn is changed: it keeps its id, and its count unless messages change with it. -/
theorem modifyTurn (h : Counted c) {i : Nat} {f : Turn → Turn}
    (hf : ∀ t, c.turns[i]? = some t → (f t).id = t.id ∧ (f t).openMessages = t.openMessages ∧
      ((f t).status ≠ .opened → (f t).openMessages = 0)) : Counted (c.modifyTurn i f) where
  openMessages := h.openMessages
  openExchanges := h.openExchanges
  turnMessages := fun t ht => by
    rcases mem_modify_cases ht with ⟨t',ht',rfl⟩ | ⟨j,_,hj⟩
    · obtain ⟨hid,ho,_⟩ := hf t' ht'
      rw [hid,ho]
      exact h.turnMessages t' (List.mem_of_getElem? ht')
    · exact h.turnMessages t (List.mem_of_getElem? hj)
  finished := fun t ht => by
    rcases mem_modify_cases ht with ⟨t',ht',rfl⟩ | ⟨j,_,hj⟩
    · exact (hf t' ht').2.2
    · exact h.finished t (List.mem_of_getElem? hj)
  turnIds := h.turnIds

theorem rawEq_str_iff {v : LuaValue} {s : String} : v.rawEq (.str s) ↔ v = .str s :=
  ⟨rawEq_str,fun h => by rw [h]; simp [LuaValue.rawEq]⟩

/-- A turn found under its id. -/
theorem turn_at (h : Filed c) {id : String} (hid : (c.turnById.lookup id).isSome) :
    ∃ j t, c.turnById.lookup id = some j ∧ c.turns[j]? = some t ∧ t.id = id := by
  obtain ⟨j,hj⟩ := Option.isSome_iff_exists.mp hid
  have ht := (h.turns id j).mp hj
  rw [List.getElem?_map,Option.map_eq_some_iff] at ht
  obtain ⟨t,ht,hid⟩ := ht
  exact ⟨j,t,hj,ht,hid⟩

theorem turn_ne (h : Filed c) {j k : Nat} {t t' : Turn} (hj : c.turns[j]? = some t)
    (hk : c.turns[k]? = some t') (hjk : k ≠ j) : t'.id ≠ t.id := by
  intro he
  refine hjk (h.turns.inj (k := t.id) ?_ ?_)
  · rw [List.getElem?_map,hk,Option.map_some,he]
  · rw [List.getElem?_map,hj,Option.map_some]

section Recount
variable {ms : List Message} {d : Int} {v : LuaValue}

/-- Open messages come or go that belong to no turn. -/
theorem recount (h : Counted c) (hopen : (ms.countP opened : Int) = c.messages.countP opened + d)
    (hin : ∀ id, (ms.countP (openedIn id) : Int) =
      c.messages.countP (openedIn id) + if v.rawEq (.str id) then d else 0)
    (hids : ∀ m ∈ ms, m.turnId.truthy → ∃ id, m.turnId = .str id ∧ (c.turnById.lookup id).isSome)
    (hv : v.truthy = false) :
    Counted { c with messages := ms, openMessages := c.openMessages + d } := by
  refine ⟨?_,h.openExchanges,fun t ht => ?_,h.finished,hids⟩
  · rw [hopen,h.openMessages]
  · have hne : v.rawEq (.str t.id) = false := by
      rw [Bool.eq_false_iff]
      intro he
      rw [rawEq_str_iff.mp he] at hv
      cases hv
    have ht' := hin t.id
    rw [hne] at ht'
    rw [h.turnMessages t ht]
    simpa using ht'.symm

/-- Open messages come or go that belong to one open turn. -/
theorem recountTurn (h : Counted c) (hfiled : Filed c)
    (hopen : (ms.countP opened : Int) = c.messages.countP opened + d)
    (hin : ∀ id, (ms.countP (openedIn id) : Int) =
      c.messages.countP (openedIn id) + if v.rawEq (.str id) then d else 0)
    (hids : ∀ m ∈ ms, m.turnId.truthy → ∃ id, m.turnId = .str id ∧ (c.turnById.lookup id).isSome)
    {j : Nat} {t : Turn} (hj : c.turns[j]? = some t) (hv : v = .str t.id) (ht : t.status = .opened) :
    Counted ({ c with messages := ms, openMessages := c.openMessages + d }.modifyTurn j
      fun t => { t with openMessages := t.openMessages + d }) := by
  refine ⟨?_,h.openExchanges,fun t' ht' => ?_,fun t' ht' hs => ?_,hids⟩
  · exact (congrArg (· + d) h.openMessages).trans hopen.symm
  · rcases mem_modify_cases ht' with ⟨t'',ht'',rfl⟩ | ⟨k,hk,hk'⟩
    · change c.turns[j]? = some t'' at ht''
      rw [hj] at ht''
      cases ht''
      have hd := hin t.id
      rw [if_pos (rawEq_str_iff.mpr hv)] at hd
      exact (congrArg (· + d) (h.turnMessages t (List.mem_of_getElem? hj))).trans hd.symm
    · change c.turns[k]? = some t' at hk'
      have hne : v.rawEq (.str t'.id) = false := by
        rw [Bool.eq_false_iff]
        intro he
        rw [hv] at he
        exact turn_ne hfiled hj hk' hk (LuaValue.str.inj (rawEq_str_iff.mp he)).symm
      have hd := hin t'.id
      rw [hne] at hd
      simp only [Bool.false_eq_true,if_false,Int.add_zero] at hd
      exact (h.turnMessages t' (List.mem_of_getElem? hk')).trans hd.symm
  · rcases mem_modify_cases ht' with ⟨t'',ht'',rfl⟩ | ⟨k,_,hk'⟩
    · change c.turns[j]? = some t'' at ht''
      rw [hj] at ht''
      cases ht''
      exact absurd ht hs
    · exact h.finished t' (List.mem_of_getElem? hk') hs

end Recount

/-- The open message of the conversation and of its turn goes. -/
theorem close (h : Counted c) (hfiled : Filed c) {i : Nat} {m m' : Message}
    (hm : c.messages[i]? = some m) (ho : m.status = .opened) (hc : m'.status ≠ .opened)
    (ht : m'.turnId = m.turnId) : Counted (closeMessage m (c.modifyMessage i fun _ => m')) := by
  have hopen : opened m = true := by simp [opened,ho]
  have hopen' : opened m' = false := by simp [opened,hc]
  have hcount : ((c.messages.modify i fun _ => m').countP opened : Int) =
      c.messages.countP opened + -1 := by
    have hr := countP_replace (p := opened) (y := m') hm
    rw [hopen,hopen'] at hr
    simp only [if_true,Bool.false_eq_true,if_false] at hr
    omega
  have hcountIn : ∀ id, ((c.messages.modify i fun _ => m').countP (openedIn id) : Int) =
      c.messages.countP (openedIn id) + if m.turnId.rawEq (.str id) then -1 else 0 := by
    intro id
    have hr := countP_replace (p := openedIn id) (y := m') hm
    rw [openedIn,openedIn,hopen,hopen'] at hr
    simp only [Bool.true_and,Bool.false_and,Bool.false_eq_true,if_false] at hr
    split at hr <;> simp_all
    omega
  have hids : ∀ n ∈ c.messages.modify i fun _ => m', n.turnId.truthy →
      ∃ id, n.turnId = .str id ∧ (c.turnById.lookup id).isSome := by
    intro n hn
    rcases mem_modify_cases hn with ⟨_,_,rfl⟩ | ⟨j,_,hj⟩
    · rw [ht]
      exact h.turnIds m (List.mem_of_getElem? hm)
    · exact h.turnIds n (List.mem_of_getElem? hj)
  by_cases htr : m.turnId.truthy
  · obtain ⟨id,hid,hs⟩ := h.turnIds m (List.mem_of_getElem? hm) htr
    obtain ⟨j,t,hj,htj,rfl⟩ := turn_at hfiled hs
    have hst : t.status = .opened := by
      -- a finished turn has no open message
      by_contra hst
      have hz := h.finished t (List.mem_of_getElem? htj) hst
      have hin := hcountIn t.id
      rw [if_pos (rawEq_str_iff.mpr hid),← h.turnMessages t (List.mem_of_getElem? htj),hz] at hin
      omega
    have hclose : closeMessage m (c.modifyMessage i fun _ => m') =
        { c.modifyMessage i fun _ => m' with openMessages := c.openMessages - 1 }.modifyTurn j
          fun t => { t with openMessages := t.openMessages - 1 } := by
      simp [closeMessage,LuaValue.truthy,hid,Conversation.findTurn,at?,hj,htj,
        Conversation.modifyMessage]
    rw [hclose]
    exact h.recountTurn hfiled hcount hcountIn hids htj hid hst
  · have hclose : closeMessage m (c.modifyMessage i fun _ => m') =
        { c.modifyMessage i fun _ => m' with openMessages := c.openMessages - 1 } := by
      simp [closeMessage,htr,Conversation.modifyMessage]
    rw [hclose]
    exact h.recount hcount hcountIn hids (by simpa using htr)

/-- An open message is appended, and counted in the turn it joins. -/
theorem start (h : Counted c) (hfiled : Filed c) {s : Start} (hs : Startable event c s) :
    Counted (startMessage event s (takeChild s.allocated c)) := by
  have hopen : opened (newMessage event s) = true := rfl
  have hcount : ((c.messages ++ [newMessage event s]).countP opened : Int) =
      c.messages.countP opened + 1 := by
    simp [hopen]
  have hcountIn : ∀ id, ((c.messages ++ [newMessage event s]).countP (openedIn id) : Int) =
      c.messages.countP (openedIn id) +
        if (newMessage event s).turnId.rawEq (.str id) then 1 else 0 := by
    intro id
    have hnew : openedIn id (newMessage event s) = (newMessage event s).turnId.rawEq (.str id) := by
      simp [openedIn,hopen]
    rw [List.countP_append,List.countP_singleton,hnew,Int.natCast_add]
    cases (newMessage event s).turnId.rawEq (.str id) <;> rfl
  have hids : ∀ m ∈ c.messages ++ [newMessage event s], m.turnId.truthy →
      ∃ id, m.turnId = .str id ∧ (c.turnById.lookup id).isSome := by
    intro m hm htr
    rcases List.mem_append.mp hm with hm | hm
    · exact h.turnIds m hm htr
    · cases List.mem_singleton.mp hm
      have hj := hs.turn
      cases ht : s.turn with
      | none =>
        rw [ht] at hj
        exact absurd htr (by simpa [JoinsTurn,newMessage] using hj)
      | some j =>
        rw [ht] at hj
        obtain ⟨t,hf,_⟩ := hj
        obtain ⟨id,hid,hl,_⟩ := Conversation.findTurn_eq_some hf
        exact ⟨id,hid,by rw [hl]; rfl⟩
  have hj := hs.turn
  cases ht : s.turn with
  | none =>
    rw [ht] at hj
    refine (h.recount hcount hcountIn hids hj).same ?_ ?_ ?_ ?_ ?_ ?_
    all_goals
      unfold startMessage
      simp only [ht]
      split <;> rfl
  | some j =>
    rw [ht] at hj
    obtain ⟨t,hf,hst⟩ := hj
    obtain ⟨id,hid,hl,htj⟩ := Conversation.findTurn_eq_some hf
    have htid : t.id = id := by
      have hi := (hfiled.turns id j).mp hl
      rw [List.getElem?_map,htj] at hi
      simpa using hi
    subst htid
    refine (h.recountTurn hfiled hcount hcountIn hids htj hid hst).same ?_ ?_ ?_ ?_ ?_ ?_
    all_goals
      unfold startMessage
      simp only [ht]
      split <;> rfl

theorem pushExchange (h : Counted c) {x : Exchange} (hx : x.status = .callOpen) :
    Counted { c with
      exchanges := c.exchanges ++ [x]
      exchangeById := assign c.exchangeById x.id c.exchanges.length
      openExchanges := c.openExchanges + 1 } := by
  refine ⟨h.openMessages,?_,h.turnMessages,h.finished,h.turnIds⟩
  simp [h.openExchanges,unfinished,hx]

theorem finishExchange (h : Counted c) {i : Nat} {x x' : Exchange} (hx : c.exchanges[i]? = some x)
    (hs : x.status = .callCompleted) (hs' : x'.status = .result ∨ x'.status = .error) :
    Counted { c.modifyExchange i fun _ => x' with openExchanges := c.openExchanges - 1 } := by
  refine ⟨h.openMessages,?_,h.turnMessages,h.finished,h.turnIds⟩
  have hr := countP_replace (p := unfinished) (y := x') hx
  have hu : unfinished x = true := by simp [unfinished,hs]
  have hu' : unfinished x' = false := by rcases hs' with hs' | hs' <;> simp [unfinished,hs']
  rw [hu,hu'] at hr
  simp only [if_true,Bool.false_eq_true,if_false] at hr
  change c.openExchanges - 1 = ((c.exchanges.modify i fun _ => x').countP unfinished : Nat)
  rw [h.openExchanges]
  omega

/-- A new turn has no message yet: its id is fresh, and messages only carry known ids. -/
theorem pushTurn (h : Counted c) {t : Turn} (ht : c.turnById.lookup t.id = none)
    (hz : t.openMessages = 0) : Counted { c with
      turns := c.turns ++ [t]
      turnById := assign c.turnById t.id c.turns.length } := by
  refine ⟨h.openMessages,h.openExchanges,fun t' ht' => ?_,fun t' ht' hst => ?_,fun m hm htr => ?_⟩
  · rcases List.mem_append.mp ht' with ht' | ht'
    · exact h.turnMessages t' ht'
    · cases List.mem_singleton.mp ht'
      have hnone : c.messages.countP (openedIn t.id) = 0 := by
        rw [List.countP_eq_zero]
        intro m hm hin
        have hid := rawEq_str_iff.mp (Bool.and_eq_true_iff.mp hin).2
        obtain ⟨id,hid',hl⟩ := h.turnIds m hm (by rw [hid]; rfl)
        rw [hid] at hid'
        cases hid'
        rw [ht] at hl
        cases hl
      rw [hz]
      exact (congrArg Nat.cast hnone).symm
  · rcases List.mem_append.mp ht' with ht' | ht'
    · exact h.finished t' ht' hst
    · cases List.mem_singleton.mp ht'
      exact hz
  · obtain ⟨id,hid,hl⟩ := h.turnIds m hm htr
    refine ⟨id,hid,?_⟩
    simp only [lookup_assign]
    split
    · rfl
    · exact hl

/-- A message that is closed from the start counts nowhere. -/
theorem pushClosed (h : Counted c) {m : Message} (hm : m.status ≠ .opened) (ht : m.turnId = .nil) :
    Counted (c.pushMessage m) := by
  have ho : opened m = false := by simp [opened,hm]
  refine ⟨?_,h.openExchanges,fun t ht => ?_,h.finished,fun n hn htr => ?_⟩
  · simpa [Conversation.pushMessage,ho] using h.openMessages
  · simpa [Conversation.pushMessage,openedIn,ho] using h.turnMessages t ht
  · rcases List.mem_append.mp hn with hn | hn
    · exact h.turnIds n hn htr
    · rw [List.mem_singleton.mp hn,ht] at htr
      cases htr

theorem effect (h : Counted c) (hf : Filed c) {d : Dispatch} (he : Effect event c d c') :
    Counted c' := by
  cases he with
  | messageStarted hs => exact h.start hf hs
  | contentChunkAppended ho => exact h.modifyMessage fun _ _ => ⟨rfl,rfl⟩
  | toolExchangeStarted ho hx hid hs => exact (h.pushExchange hs).modifyMessage fun _ _ => ⟨rfl,rfl⟩
  | toolCallFragmentAppended hl hx => exact h.modifyExchange fun _ _ => rfl
  | @toolCallCompleted i x id name arguments hl hx hs =>
    refine (h.modifyExchange (i := i) fun y hy => ?_).same rfl rfl rfl rfl rfl rfl
    rw [hx] at hy
    cases hy
    simp [unfinished,hs]
  | exchangeFinished hl hk hx hs hs' hid hc => exact h.finishExchange hx hs hs'
  | messageCompleted ho hv hm => exact h.close hf ho.at_index ho.2.2 hm.status hm.turnId
  | messageInterrupted ho hv hm => exact h.close hf ho.at_index ho.2.2 hm.status hm.turnId
  | @retryStarted retry message hl hr =>
    have hsame : Counted { c with
        retries := c.retries ++ [retry]
        retryById := assign c.retryById retry.id c.retries.length } := h.same rfl rfl rfl rfl rfl rfl
    cases message with
    | none => exact hsame
    | some i => exact hsame.modifyMessage fun _ _ => ⟨rfl,rfl⟩
  | turnStarted hl ht hid hs hz => exact h.pushTurn ht hz
  | turnFinished hl hk ht hs hz hs' hid hz' =>
    obtain ⟨_,_,_,hi⟩ := Conversation.findTurn_eq_some ht
    refine h.modifyTurn fun t ht => ?_
    rw [hi] at ht
    cases ht
    exact ⟨hid,hz'.trans hz.symm,fun _ => hz'⟩
  | @noticeAppended id messageId allocated hn hm ha =>
    have hpush := h.pushClosed (m := noticeMessage event messageId allocated) (by simp [noticeMessage])
      rfl
    exact hpush.same rfl rfl rfl rfl rfl rfl
  | _ => exact h.same rfl rfl rfl rfl rfl rfl

theorem moves (h : Counted c) (hf : Filed c) (hm : Moves event c c') : Counted c' := by
  cases hm with
  | accepted hd hc he =>
    have h' := h.effect hf he
    unfold stamp
    split
    · exact h'.same rfl rfl rfl rfl rfl rfl
    · exact h'
  | refused hr =>
    rcases hr with rfl | ht
    · exact h
    · cases ht with
      | started hs => exact h.same rfl rfl rfl rfl rfl rfl
      | narrowed ho hv =>
        refine h.modifyMessage fun m hm => ?_
        rw [ho.at_index] at hm
        cases hm
        exact ⟨rfl,rfl⟩
      | closed ho hv hm => exact h.close hf ho.at_index ho.2.2 hm.status hm.turnId

theorem creates (h : Creates event c) : Counted c := by
  obtain ⟨n,_,_,_,rfl⟩ := h.eq
  constructor
  all_goals simp

end Counted

theorem Conversation.Reachable.counted {c : Conversation} (h : c.Reachable) : Counted c :=
  h.preserves (fun _ _ => Counted.creates) fun _ _ _ hr hc hm => hc.moves hr.filed hm

section Named
variable {event : Fields} {c c' : Conversation}

/-- The calls that were completed are named. -/
def Named (c : Conversation) : Prop :=
  ∀ x ∈ c.exchanges, x.status ≠ .callOpen → x.toolCallId.isNil = false

theorem Named.same (h : Named c) (hx : c'.exchanges = c.exchanges) : Named c' := by
  unfold Named
  rw [hx]
  exact h

theorem Named.modify (h : Named c) {i : Nat} {f : Exchange → Exchange}
    (hf : ∀ x, c.exchanges[i]? = some x → (f x).status ≠ .callOpen → (f x).toolCallId.isNil = false) :
    ∀ x ∈ c.exchanges.modify i f, x.status ≠ .callOpen → x.toolCallId.isNil = false := by
  intro y hy
  rcases mem_modify_cases hy with ⟨x,hx,rfl⟩ | ⟨j,_,hj⟩
  · exact hf x hx
  · exact h y (List.mem_of_getElem? hj)

theorem exchanges_closeMessage (m : Message) : (closeMessage m c).exchanges = c.exchanges := by
  unfold closeMessage
  simp only
  split
  · split <;> rfl
  · rfl

theorem Named.effect (h : Named c) {d : Dispatch} (he : Effect event c d c') : Named c' := by
  cases he with
  | messageStarted hs =>
    refine h.same ?_
    unfold startMessage
    simp only
    split <;> split <;> rfl
  | toolExchangeStarted ho hx hid hs =>
    intro x hx hne
    rcases List.mem_append.mp hx with hx | hx
    · exact h x hx hne
    · cases List.mem_singleton.mp hx
      exact absurd hs hne
  | toolCallFragmentAppended hl hx hs =>
    refine h.modify fun y hy hne => ?_
    rw [hx] at hy
    cases hy
    exact absurd hs hne
  | toolCallCompleted => exact h.modify fun _ _ _ => rfl
  | exchangeFinished hl hk hx hs hs' hid hc =>
    refine h.modify fun y hy _ => ?_
    rw [hc]
    exact h _ (List.mem_of_getElem? hx) (by simp [hs])
  | messageCompleted | messageInterrupted => exact h.same (exchanges_closeMessage _)
  | @retryStarted retry message => cases message <;> exact h
  | _ => exact h

theorem Conversation.Reachable.named (h : c.Reachable) : Named c := by
  refine h.preserves (fun event c hc => ?_) fun event c c' _ hn hm => ?_
  · obtain ⟨n,_,_,_,rfl⟩ := hc.eq
    intro x hx
    cases hx
  · cases hm with
    | accepted hd hc he =>
      refine (hn.effect he).same ?_
      unfold stamp
      split <;> rfl
    | refused hr =>
      rcases hr with rfl | ht
      · exact hn
      · cases ht with
        | started | narrowed => exact hn
        | closed => exact hn.same (exchanges_closeMessage _)

end Named

section Pending
variable {event : Fields} {c c' : Conversation}

/-- The operation waits for its outcome. -/
def waiting (op : Compaction) : Bool := decide (op.status = .pending)

theorem waiting_effect {d : Dispatch} (h : c.compactions.countP waiting ≤ 1)
    (he : Effect event c d c') : c'.compactions.countP waiting ≤ 1 := by
  cases he with
  | messageStarted hs =>
    unfold startMessage
    simp only
    split <;> split <;> exact h
  | messageCompleted ho hv hm =>
    unfold closeMessage
    simp only
    split
    · split <;> exact h
    · exact h
  | messageInterrupted ho hv hm =>
    unfold closeMessage
    simp only
    split
    · split <;> exact h
    · exact h
  | @retryStarted retry message hl hr => cases message <;> exact h
  | compactionRequested hr =>
    have hz : c.compactions.countP waiting = 0 := by
      rw [List.countP_eq_zero]
      intro op hop hw
      exact hr.noPending op hop (of_decide_eq_true hw)
    change (c.compactions ++ [_]).countP waiting ≤ 1
    rw [List.countP_append,hz,Nat.zero_add]
    exact List.countP_le_length
  | @compactionSettled kind completed i op op' hk hop hp he hh hs =>
    obtain ⟨_,_,_,hi⟩ := Conversation.findCompaction_eq_some hop
    have hr := countP_replace (p := waiting) (y := op') hi
    have hw : waiting op' = false := by
      rw [waiting,hs.status]
      cases completed <;> rfl
    rw [hw] at hr
    change (c.compactions.modify i fun _ => op').countP waiting ≤ 1
    simp only [Bool.false_eq_true,if_false] at hr
    omega
  | _ => exact h

theorem waiting_moves (h : c.compactions.countP waiting ≤ 1) (hm : Moves event c c') :
    c'.compactions.countP waiting ≤ 1 := by
  cases hm with
  | accepted hd hc he =>
    have h' := waiting_effect h he
    unfold stamp
    split <;> exact h'
  | refused hr =>
    rcases hr with rfl | ht
    · exact h
    · cases ht with
      | started hs => exact h
      | narrowed ho hv => exact h
      | closed ho hv hm =>
        unfold closeMessage
        simp only
        split
        · split <;> exact h
        · exact h

theorem Conversation.Reachable.waiting (h : c.Reachable) : c.compactions.countP waiting ≤ 1 := by
  refine h.preserves (P := fun c => c.compactions.countP ConversationManager.waiting ≤ 1) ?_ ?_
  · intro event c hc
    obtain ⟨n,_,_,_,rfl⟩ := hc.eq
    exact Nat.zero_le 1
  · exact fun _ _ _ _ h hm => waiting_moves h hm

end Pending

/-- The outcomes that may come late, and the selection that concerns no conversation. -/
def outcomeKinds : List String :=
  ["active_selected","context_compaction_completed","context_compaction_failed"]

def evidenceKinds : List String := ["context_notice_included","context_notice_delivered"]

section Ended
variable {event : Fields} {c c' : Conversation}

/-- Every other handler asks for a live conversation first. -/
theorem Effect.ended {d : Dispatch} (h : Effect event c d c') (hc : c.status ≠ .active) :
    ∃ kind : Kind, d = .other kind ∧ kind.name ∈ outcomeKinds ++ evidenceKinds := by
  cases h with
  | messageStarted hs => exact absurd hs.live hc
  | contentChunkAppended ho => exact absurd ho.1 hc
  | toolExchangeStarted ho => exact absurd ho.1 hc
  | messageCompleted ho => exact absurd ho.1 hc
  | messageInterrupted ho => exact absurd ho.1 hc
  | rewindCommitted hr => exact absurd hr.live hc
  | noticeRecorded hn => exact absurd hn.live hc
  | noticeAppended hn => exact absurd hn.live hc
  | compactionRequested hr => exact absurd hr.live hc
  | @noticeEvidence kind delivered _ _ _ _ hk => exact ⟨_,rfl,by cases delivered <;> rw [hk] <;> decide⟩
  | @compactionSettled kind completed _ _ _ hk => exact ⟨_,rfl,by cases completed <;> rw [hk] <;> decide⟩
  | activeSelected => exact ⟨_,rfl,by decide⟩
  | responseUsageRecorded hl => exact absurd hl hc
  | provenanceUpdated hl => exact absurd hl hc
  | toolCallFragmentAppended hl => exact absurd hl hc
  | toolCallCompleted hl => exact absurd hl hc
  | exchangeFinished hl => exact absurd hl hc
  | retryStarted hl => exact absurd hl hc
  | turnStarted hl => exact absurd hl hc
  | turnFinished hl => exact absurd hl hc
  | terminated hl => exact absurd hl hc

theorem Accepts.ended (h : Accepts c event c') (hc : c.status ≠ .active) :
    ∃ kind ∈ outcomeKinds ++ evidenceKinds, event.get "kind" = .str kind := by
  obtain ⟨d,c₀,hd,_,he,_⟩ := h.effect
  obtain ⟨kind,rfl,hk⟩ := he.ended hc
  exact ⟨kind.name,hk,eventChecks_kind hd⟩

end Ended

/-- The created conversation with which the runs of examples begin. -/
def createdEvent : Fields := (LuaValue.record [("event_id",.str "e1"),("conversation_id",.str "c"),
  ("kind",.str "created"),("sequence",.num (.int 1))]).fields

def createdConversation : Conversation where
  id := "c"
  provenance := []
  initialEpochId := "e1"
  lastSequence := .int 1

theorem creates_createdConversation : Creates createdEvent createdConversation := rfl

def noticeEvent : Fields := (LuaValue.record [("event_id",.str "e2"),("conversation_id",.str "c"),
  ("kind",.str "context_notice_appended"),("sequence",.num (.int 2)),("notice_id",.str "n"),
  ("message_id",.str "m"),("epoch_id",.str "e1"),("provider",.str "p"),("model",.str "q"),
  ("history_id",.table false []),("expected_watermark",.num (.int 1)),
  ("milestone_percent",.num (.int 50)),("measured_percent",.num (.int 55)),
  ("total_tokens",.num (.int 55)),("regular_window",.num (.int 100)),
  ("text",.str "notice")]).fields

end Nefor.ConversationManager
