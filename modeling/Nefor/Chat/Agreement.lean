import Nefor.Chat.Deltas
import Nefor.ConversationManager.Compaction
import Nefor.ConversationManager.Replay

/-! Deltas against snapshots. The surface that follows every change stands where a snapshot would
put it, as long as a message is closed at the head and no notice brings a message of its own. -/
namespace Nefor.Chat
open Nefor.Lua Nefor.ConversationManager

section Conversation
variable {event : Fields} {c c' : Conversation}

/-- What the focus takes from a message. -/
def shown (m : Message) : HistoryPath × Option LuaValue := (m.historyId,promptEntry m)

theorem promptEntry_open {m : Message} (h : m.status = .opened) : promptEntry m = none := by
  simp [promptEntry,h]

theorem focus_same (hid : c'.id = c.id) (hh : c'.head = c.head) (he : c'.pendingEdit = c.pendingEdit)
    (hm : c'.messages.map shown = c.messages.map shown) :
    conversationFocus c' = conversationFocus c := by
  have hprompts : ∀ c : Conversation, (activeMessages c).filterMap promptEntry =
      ((c.messages.map shown).filter fun e => c.onHead e.1).filterMap (·.2) := by
    intro c
    rw [activeMessages,List.filter_map,List.filterMap_map]
    rfl
  have hon : c'.onHead = c.onHead := by
    funext path
    rw [Conversation.onHead,hh,Conversation.onHead]
  rw [conversationFocus,conversationFocus,hprompts,hprompts,hm,hon,hid,hh,he]

theorem focus_stamp : conversationFocus (stamp event c) = conversationFocus c := by
  unfold stamp
  split <;> rfl

theorem map_shown_modify {i : Nat} {m : Message} {f : Message → Message} (ho : OpenMessage event c i m)
    (hf : (f m).historyId = m.historyId ∧ (f m).status = m.status) :
    (c.messages.modify i f).map shown = c.messages.map shown := by
  refine map_modify_same fun x hx => ?_
  rw [ho.at_index] at hx
  cases hx
  rw [shown,shown,promptEntry_open ho.2.2,promptEntry_open (hf.2.trans ho.2.2),hf.1]

/-- Only messages and rewinds concern the focus. -/
theorem effect_focus {kind : Kind} (he : Effect event c (.other kind) c')
    (hc : kind ≠ .messageCompleted) (hi : kind ≠ .messageInterrupted) (hr : kind ≠ .rewindCommitted)
    (hn : kind = .contextNoticeAppended → (c.findMessage (event.get "message_id")).isSome) :
    conversationFocus c' = conversationFocus c := by
  cases he with
  | messageCompleted => exact absurd rfl hc
  | messageInterrupted => exact absurd rfl hi
  | rewindCommitted => exact absurd rfl hr
  | contentChunkAppended ho => exact focus_same rfl rfl rfl (map_shown_modify ho ⟨rfl,rfl⟩)
  | toolExchangeStarted ho => exact focus_same rfl rfl rfl (map_shown_modify ho ⟨rfl,rfl⟩)
  | @retryStarted retry message hl hf hm =>
    cases message with
    | none => exact focus_same rfl rfl rfl rfl
    | some i =>
      obtain ⟨m,ho⟩ := hm i rfl
      exact focus_same rfl rfl rfl (map_shown_modify ho ⟨rfl,rfl⟩)
  | noticeAppended hn' hf =>
    have hsome := hn rfl
    rw [(asId_eq_some hn'.messageId).1,hf] at hsome
    cases hsome
  | _ => exact focus_same rfl rfl rfl rfl

/-- With every call answered, all calls are named. -/
theorem callsNamed (h : c.Reachable) (hx : c.openExchanges = 0) (m : Message) : CallsNamed c m := by
  intro _ _ call hcall
  obtain ⟨id,_,he⟩ := List.mem_filterMap.mp hcall
  obtain ⟨x,hfound,rfl⟩ := Option.map_eq_some_iff.mp he
  have hmem := List.mem_of_getElem? (Conversation.findExchange_eq_some hfound)
  have hcount : c.exchanges.countP unfinished = 0 := by
    have hopen := h.counted.openExchanges
    omega
  have hdone := List.countP_eq_zero.mp hcount x.2 hmem
  have hne : x.2.status ≠ .callOpen := by
    intro hs
    exact hdone (by simp [unfinished,hs])
  have hid := h.named x.2 hmem hne
  simp [LuaValue.get_record_cons,hid]

/-- What a new message adds to the branch. -/
theorem activeMessages_push (hr : c.Reachable) (hr' : c'.Reachable) {m : Message}
    (hm : c'.messages = c.messages ++ [m]) (hh : c'.head = m.historyId)
    (hp : m.historyId = c.tree.next) : activeMessages c' = activeMessages c ++ [m] := by
  have hi : c'.messages[c.messages.length]? = some m := by simp [hm]
  rw [activeMessages_split hr' hi hh.symm,hm,List.take_left,activeMessages_eq hr.tree.2]
  congr 1
  refine List.filter_congr fun n hn => ?_
  have hne : n.historyId ≠ c.tree.next := by
    intro he
    exact hr.tree.1.next_not_mem (he ▸ List.mem_map_of_mem hn)
  rw [Bool.eq_iff_iff,decide_eq_true_eq,decide_eq_true_eq,hh,hp,PathTree.next]
  rw [PathTree.next] at hne
  rw [List.prefix_concat_iff]
  exact ⟨fun h => h.resolve_left hne,.inr⟩

/-- A start moves the head to the new message, and a prompt that shows ends the edit. -/
theorem started_focus {s : Start} (hr : c.Reachable) (hs : Startable event c s)
    (hr' : (stamp event (startMessage event s (takeChild s.allocated c))).Reachable) :
    conversationFocus (stamp event (startMessage event s (takeChild s.allocated c))) =
      { conversationFocus c with
        historyHead := s.allocated.toLua
        pendingEdit := if s.role = .user ∧ s.visibility = .transcript then .nil
          else optionLua PendingEdit.toLua c.pendingEdit } := by
  have hmessages : (stamp event (startMessage event s (takeChild s.allocated c))).messages =
      c.messages ++ [newMessage event s] := by
    rw [messages_stamp,messages_startMessage]
    rfl
  have hhead : (stamp event (startMessage event s (takeChild s.allocated c))).head =
      s.allocated := by
    unfold stamp startMessage
    simp only
    split <;> split <;> split <;> rfl
  have hpush := activeMessages_push hr hr' hmessages hhead (allocate_next hs.allocated)
  have hnew : promptEntry (newMessage event s) = none := promptEntry_open rfl
  have hid : (stamp event (startMessage event s (takeChild s.allocated c))).id = c.id := by
    unfold stamp startMessage
    simp only
    split <;> split <;> split <;> rfl
  have hedit : (stamp event (startMessage event s (takeChild s.allocated c))).pendingEdit =
      if s.role = .user ∧ s.visibility = .transcript then none else c.pendingEdit := by
    unfold stamp startMessage
    simp only
    split <;> split <;> split <;> rfl
  rw [conversationFocus,conversationFocus,hpush,hid,hhead,hedit]
  split <;> simp [hnew,optionLua]

/-- Closing the message at the head leaves the head there, and adds its prompt. -/
theorem closed_focus {i : Nat} {m m' : Message} (hr : c.Reachable) (hr' : c'.Reachable)
    (ho : OpenMessage event c i m) (hh : m.historyId = c.head) (hm : m'.historyId = m.historyId)
    (hid : c'.id = c.id) (hhead : c'.head = c.head) (he : c'.pendingEdit = c.pendingEdit)
    (hmessages : c'.messages = c.messages.modify i fun _ => m') :
    conversationFocus c' = { conversationFocus c with
      historyHead := m.historyId.toLua
      userPrompts := (conversationFocus c).userPrompts ++ (promptEntry m').toList } := by
  have hi' : c'.messages[i]? = some m' := by
    rw [hmessages,List.getElem?_modify_eq,ho.at_index]
    rfl
  have htake : c'.messages.take i = c.messages.take i := by
    rw [hmessages,List.take_modify,List.modify_eq_self (List.length_take_le i c.messages)]
  have hsplit := activeMessages_split hr ho.at_index hh
  have hsplit' := activeMessages_split hr' hi' (by rw [hm,hh,hhead])
  rw [htake,hhead] at hsplit'
  have hopen := promptEntry_open ho.2.2
  rw [conversationFocus,conversationFocus,hsplit,hsplit',hid,hhead,he,hh]
  cases hp : promptEntry m' <;> simp [hp,hopen]

theorem effect_id {d : Dispatch} (he : Effect event c d c') : c'.id = c.id := by
  cases he with
  | messageStarted hs =>
    unfold startMessage
    simp only
    split <;> split <;> rfl
  | messageCompleted | messageInterrupted =>
    unfold closeMessage
    simp only
    split
    · split <;> rfl
    · rfl
  | @retryStarted retry message => cases message <;> rfl
  | _ => rfl

theorem accepts_id (h : Accepts c event c') : c'.id = c.id := by
  obtain ⟨d,c₀,_,_,he,rfl⟩ := h.effect
  have hid := effect_id he
  unfold stamp
  split <;> exact hid

/-- The created conversation is named by its event. -/
theorem creates_id (h : Creates event c) : event.get "conversation_id" = .str c.id := by
  obtain ⟨n,_,_,hd,rfl⟩ := h.eq
  have hne : (event.get "conversation_id").nonempty := by
    simp only [eventChecks,bind,Except.bind] at hd
    cases hv : (event.get "conversation_id").nonempty with
    | true => rfl
    | false =>
      rw [hv] at hd
      split at hd
      · cases hd
      · simp at hd
  cases hv : event.get "conversation_id" with
  | str id => exact congrArg LuaValue.str (asId_str_getD id).symm
  | _ =>
    rw [hv] at hne
    cases hne

/-- What closes a message. -/
theorem effect_closes {kind : Kind} (he : Effect event c (.other kind) c')
    (hk : kind = .messageCompleted ∨ kind = .messageInterrupted) :
    ∃ i m m' visibility, OpenMessage event c i m ∧ Closed m m' visibility ∧
      (kind = .messageInterrupted → m'.status = .interrupted) ∧
      c' = closeMessage m (c.modifyMessage i fun _ => m') := by
  cases he with
  | messageCompleted ho hv hm => exact ⟨_,_,_,_,ho,hm,by simp,rfl⟩
  | messageInterrupted ho hv hm hs => exact ⟨_,_,_,_,ho,hm,fun _ => hs,rfl⟩
  | exchangeFinished _ hk' => rcases hk' with rfl | rfl <;> simp at hk
  | turnFinished _ hk' => rcases hk' with rfl | rfl | rfl <;> simp at hk
  | terminated _ hk' => rcases hk' with rfl | rfl | rfl <;> simp at hk
  | @noticeEvidence _ delivered _ _ _ _ hk' => cases delivered <;> simp [hk'] at hk
  | @compactionSettled _ completed _ _ _ hk' => cases completed <;> simp [hk'] at hk
  | _ => simp at hk

end Conversation

section Runs
variable (encode : LuaValue → Option String) {event event' : Fields} {c c' : Conversation}
  {ch : LuaValue} {p : Projection}

/-- The event leaves the surface in step with the conversation: a notice has its message already,
a message is closed at the head, and no hidden user message starts during an edit. -/
structure Follows (c : Conversation) (event : Fields) : Prop where
  notice : event.get "kind" = .str "context_notice_appended" →
    (c.findMessage (event.get "message_id")).isSome
  closing : Closing event → ∀ i m, OpenMessage event c i m → m.historyId = c.head
  start : event.get "kind" = .str "message_started" → event.get "role" = .str "user" →
    c.pendingEdit.isSome →
    event.get "visibility" = .nil ∨ event.get "visibility" = .str "transcript"

/-- The change of a message shows the message as the event left it. -/
theorem messageChange_eq {closed : Bool} {kind : String}
    (h : messageChange encode c' event closed = .ok ch) (hk : event.get "kind" = .str kind)
    (hr : c'.Reachable) {i : Nat} {m : Message} (hm : c'.messages[i]? = some m)
    (hid : event.get "message_id" = .str m.id) :
    ch.isTable ∧ ch.get "kind" = .str kind ∧
      ch.get "message" = projectedMessage encode c' m false := by
  unfold messageChange at h
  rw [hid,hr.filed.findMessage hm] at h
  cases h
  refine ⟨rfl,change_kind hk _,?_⟩
  rw [change_get _ _ (by decide)]
  rfl

theorem ofLua_user {v : LuaValue} (h : Role.ofLua v = some .user) : v = .str "user" := by
  unfold Role.ofLua at h
  split at h <;> first | rfl | cases h

/-- The change can be reduced, and takes the surface to the focus of the conversation. -/
def Reduces (ch : LuaValue) (p : Projection) (c' : Conversation) : Prop :=
  ch.isTable ∧ ∃ s, reduceChange encode ch ⟨p,[]⟩ = .ok s ∧ s.state.focus = conversationFocus c'

theorem started_reduces {s : Start} (hr : c.Reachable) (hr' : c'.Reachable)
    (hc : c' = stamp event (startMessage event s (takeChild s.allocated c)))
    (hs : Startable event c s) (hv : StartsVisible event s) (hf : Follows c event)
    (hk : event.get "kind" = .str "message_started")
    (hk' : event'.get "kind" = .str "message_started")
    (hid : event'.get "message_id" = event.get "message_id")
    (hch : messageChange encode c' event' false = .ok ch) (hp : p.focus = conversationFocus c) :
    Reduces encode ch p c' := by
  subst hc
  have hat : (stamp event (startMessage event s (takeChild s.allocated c))).messages[
      c.messages.length]? = some (newMessage event s) := by
    rw [messages_stamp,messages_startMessage]
    exact List.getElem?_concat_length
  obtain ⟨ht,hkind,hm⟩ := messageChange_eq encode hch hk' hr' hat
    (hid.trans (asId_eq_some hs.id).1)
  have hedit : (if s.role = .user then LuaValue.nil else optionLua PendingEdit.toLua c.pendingEdit) =
      if s.role = .user ∧ s.visibility = .transcript then .nil
        else optionLua PendingEdit.toLua c.pendingEdit := by
    by_cases hu : s.role = .user
    · have hrole := hs.role
      rw [hu] at hrole
      have hrole := ofLua_user hrole
      cases he : c.pendingEdit with
      | none => simp [optionLua]
      | some edit => simp [hu,hv (hf.start hk hrole (by rw [he]; rfl))]
    · simp [hu]
  refine ⟨ht,messageStarted ch ⟨p,[]⟩,?_,?_⟩
  · rw [reduceChange,hkind]
    rfl
  · have hpending : p.pendingEdit = optionLua PendingEdit.toLua c.pendingEdit :=
      congrArg Focus.pendingEdit hp
    rw [messageStarted_focus encode _ _ hm,started_focus hr hs hr',← hedit,← hpending,hp]
    rfl

theorem closed_reduces {kind : Kind} {c₀ : Conversation} (hr : c.Reachable) (hr' : c'.Reachable)
    (hc : c' = stamp event c₀) (he : Effect event c (.other kind) c₀)
    (hcl : kind = .messageCompleted ∨ kind = .messageInterrupted) (hf : Follows c event)
    (hk : event.get "kind" = .str kind.name) (hk' : event'.get "kind" = .str kind.name)
    (hid : event'.get "message_id" = event.get "message_id")
    (hch : messageChange encode c' event' true = .ok ch) (hp : p.focus = conversationFocus c) :
    Reduces encode ch p c' := by
  have hclosing : Closing event := by
    rw [Closing,hk]
    rcases hcl with rfl | rfl
    · exact .inl rfl
    · exact .inr rfl
  obtain ⟨i,m,m',visibility,ho,hm,hs,rfl⟩ := effect_closes he hcl
  have hhead := hf.closing hclosing i m ho
  have hmessages : c'.messages = c.messages.modify i fun _ => m' := by
    rw [hc,messages_stamp,messages_closeMessage]
    rfl
  have hat : c'.messages[i]? = some m' := by
    rw [hmessages,List.getElem?_modify_eq,ho.at_index]
    rfl
  have hname : event'.get "message_id" = .str m'.id := by
    obtain ⟨id,hv,hl,_⟩ := Conversation.findMessage_eq_some ho.2.1
    have hmid : m.id = id := by
      have hcol := (hr.filed.messages id i).mp hl
      rw [List.getElem?_map,ho.at_index] at hcol
      exact Option.some.inj hcol
    rw [hid,hm.id,hv,hmid]
  have hfields : c'.id = c.id ∧ c'.head = c.head ∧ c'.pendingEdit = c.pendingEdit := by
    rw [hc]
    unfold stamp closeMessage
    simp only
    split <;> split <;> first | exact ⟨rfl,rfl,rfl⟩ | (split <;> exact ⟨rfl,rfl,rfl⟩)
  have hfocus := closed_focus hr hr' ho hhead hm.historyId hfields.1 hfields.2.1 hfields.2.2 hmessages
  obtain ⟨ht,hkind,hmessage⟩ := messageChange_eq encode hch hk' hr' hat hname
  rcases hcl with rfl | rfl
  · refine ⟨ht,messageCompleted encode (ch.get "message") ⟨p,[]⟩,?_,?_⟩
    · rw [reduceChange,hkind]
      rfl
    · rw [hmessage,messageCompleted_focus,hfocus,hm.historyId,← hp]
      rfl
  · refine ⟨ht,messageInterrupted ch ⟨p,[]⟩,?_,?_⟩
    · rw [reduceChange,hkind]
      rfl
    · have hnone : promptEntry m' = none := by simp [promptEntry,hs rfl]
      rw [messageInterrupted_focus encode _ _ hmessage,hfocus,hm.historyId,← hp,hnone]
      simp [Projection.focus]

theorem view_isTable {view : LuaValue} (h : conversationView encode c = .ok view) : view.isTable := by
  unfold conversationView at h
  obtain ⟨usage,_,h⟩ := bind_eq_ok.mp h
  cases h
  rfl

theorem rewound_reduces {c₀ : Conversation} (hr' : c'.Reachable)
    (hc : c' = stamp event c₀) (he : Effect event c (.other .rewindCommitted) c₀)
    (hk' : event'.get "kind" = .str "rewind_committed")
    (hch : kindChange encode c' event' .rewindCommitted = .ok ch)
    (hp : p.focus = conversationFocus c) : Reduces encode ch p c' := by
  have hx : c'.openExchanges = 0 ∧ c'.id = c.id := by
    rw [hc]
    cases he with
    | rewindCommitted hw =>
      have hx := hw.noOpenExchange
      unfold stamp
      split <;> exact ⟨hx,rfl⟩
    | exchangeFinished _ hk => rcases hk with hk | hk <;> cases hk
    | turnFinished _ hk => rcases hk with hk | hk | hk <;> cases hk
    | terminated _ hk => rcases hk with hk | hk | hk <;> cases hk
    | @noticeEvidence _ delivered _ _ _ _ hk => cases delivered <;> cases hk
    | @compactionSettled _ completed _ _ _ hk => cases completed <;> cases hk
  obtain ⟨view,hview,hch⟩ := bind_eq_ok.mp hch
  obtain ⟨context,_,hch⟩ := bind_eq_ok.mp hch
  cases hch
  have hactive : p.activeConversationId = some c'.id := by
    rw [hx.2]
    exact congrArg Focus.activeConversationId hp
  obtain ⟨s,hs,hfocus⟩ := snapshotActions_focus encode hr' (fun m _ => callsNamed hr' hx.1 m) hview
    ⟨p,[]⟩ hactive
  have htable := view_isTable encode hview
  have hne : view.isNil = false := by cases view <;> first | rfl | cases htable
  refine ⟨rfl,s,?_,hfocus⟩
  rw [reduceChange,change_kind hk',change_get _ _ (by decide)]
  simp [LuaValue.get_record_cons,hne,htable,hs]

/-- The surface stays in step when the change of an accepted event is reduced. -/
theorem reduce_follows (hr : c.Reachable) (hf : Follows c event)
    (hfold : fold (some c) event = (.ok event',some c')) (hch : change encode c' event' = .ok ch)
    (hp : p.focus = conversationFocus c) :
    ∃ p' actions, reduce encode p (deltaBody event' ch) = .ok (p',actions) ∧
      p'.focus = conversationFocus c' := by
  obtain ⟨d,c₀,hd,hck,he,hc⟩ := fold_effect hfold
  have hget (name : String) (hn : name ≠ "history_id") : event'.get name = event.get name :=
    (fold_again hfold).2.1.get hn
  have hr' : c'.Reachable := hr.accepts ⟨event',hfold⟩
  have hid : event'.get "conversation_id" = .str c.id := by
    rw [hget _ (by decide),continuationChecks_conversation event hck]
  have hactive : p.activeConversationId = some c.id := congrArg Focus.activeConversationId hp
  suffices h : Reduces encode ch p c' by
    obtain ⟨ht,s,hs,hfocus⟩ := h
    refine ⟨s.state,s.actions,?_,hfocus⟩
    rw [reduce_delta encode hactive hid ht,hs]
    rfl
  have hmessage := hget "message_id" (by decide)
  have hkind := hget "kind" (by decide)
  have hdisp : dispatch (event'.get "kind") = some d := by rw [hkind,eventChecks_dispatch hd]
  unfold change at hch
  rw [hdisp] at hch
  cases d with
  | created => cases he
  | messageStarted =>
    have hk' := rawEq_str (dispatch_messageStarted hdisp)
    have hk := hkind.symm.trans hk'
    obtain ⟨s,hs,hv,hstart⟩ := fold_starts hfold hk
    exact started_reduces encode hr hr' hstart hs hv hf hk hk' hmessage hch hp
  | other kind =>
    have hk' := dispatch_other hdisp
    have hk := hkind.symm.trans hk'
    by_cases hcl : kind = .messageCompleted ∨ kind = .messageInterrupted
    · refine closed_reduces encode hr hr' hc he hcl hf hk hk' hmessage ?_ hp
      rcases hcl with rfl | rfl <;> exact hch
    by_cases hw : kind = .rewindCommitted
    · subst hw
      exact rewound_reduces encode hr' hc he hk' hch hp
    obtain ⟨hcompleted,hinterrupted⟩ := not_or.mp hcl
    refine ⟨(kindChange_kind encode hk' hch).1,?_⟩
    obtain ⟨s,hs,hfocus⟩ := kindChange_focus encode hk' hcompleted hinterrupted hw hch ⟨p,[]⟩
    refine ⟨s,hs,?_⟩
    rw [hfocus,hc,focus_stamp,effect_focus he hcompleted hinterrupted hw ?_]
    · exact hp
    · rintro rfl
      exact hf.notice hk

/-- An accepted event and the body that is published for it. -/
def Publishes (c : Conversation) (sent : Fields × LuaValue) (c' : Conversation) : Prop :=
  ∃ event' ch, fold (some c) sent.1 = (.ok event',some c') ∧ change encode c' event' = .ok ch ∧
    sent.2 = deltaBody event' ch

/-- Reduce one body after another, for the states alone. -/
def reduceAll (p : Projection) (bodies : List LuaValue) : Except Fault Projection :=
  bodies.foldlM (fun p body => (reduce encode p body).map Prod.fst) p

theorem Publishes.accepts {sent : Fields × LuaValue} (h : Publishes encode c sent c') :
    Accepts c sent.1 c' := by
  obtain ⟨event',_,hfold,_⟩ := h
  exact ⟨event',hfold⟩

/-- Over a run the surface stays in step. -/
theorem reduceAll_follows {sent : List (Fields × LuaValue)} (hr : c.Reachable)
    (hrun : Trace (fun c e c' => Follows c e.1 ∧ Publishes encode c e c') c sent c')
    (hp : p.focus = conversationFocus c) :
    ∃ p', reduceAll encode p (sent.map Prod.snd) = .ok p' ∧ p'.focus = conversationFocus c' := by
  induction hrun generalizing p with
  | nil c => exact ⟨p,rfl,hp⟩
  | @cons c₀ c₁ c₂ e es hs hrest ih =>
    obtain ⟨hf,event',ch,hfold,hch,hbody⟩ := hs
    obtain ⟨p₁,actions,h₁,hf₁⟩ := reduce_follows encode hr hf hfold hch hp
    obtain ⟨p₂,h₂,hf₂⟩ := ih (hr.accepts ⟨event',hfold⟩) hf₁
    refine ⟨p₂,?_,hf₂⟩
    rw [reduceAll,List.map_cons,List.foldlM_cons,hbody,h₁]
    exact h₂

theorem created_reduces {first : Fields} (hc : Creates first c) (hch : change encode c first = .ok ch) :
    ∃ p actions, reduce encode { activeConversationId := some c.id } (deltaBody first ch) =
      .ok (p,actions) ∧ p.focus = conversationFocus c := by
  have hd : dispatch (first.get "kind") = some .created := by
    obtain ⟨_,_,_,hd,_⟩ := hc.eq
    exact eventChecks_dispatch hd
  have hfocus : Projection.focus { activeConversationId := some c.id } = conversationFocus c := by
    obtain ⟨n,_,_,_,rfl⟩ := hc.eq
    rfl
  unfold change at hch
  rw [hd] at hch
  obtain ⟨view,_,hch⟩ := bind_eq_ok.mp hch
  cases hch
  rw [reduce_delta encode rfl (creates_id hc) rfl,reduceChange,change_kind rfl]
  exact ⟨_,_,rfl,hfocus⟩

/-- What the two ways to reach a conversation have in common: the part a rewind starts from. -/
structure Agree (p q : Projection) : Prop where
  historyHead : p.historyHead = q.historyHead
  pendingEdit : p.pendingEdit = q.pendingEdit
  userPrompts : p.userPrompts = q.userPrompts

/-- A rewind from the surface is neither stale nor aimed off the branch: it expects the head as it
is, and the prompts it can go back before are completed prompts on the path to the head. -/
structure Offers (c : Conversation) (p : Projection) : Prop where
  expectedHead : p.historyHead = c.head.toLua
  targets : ∀ prompt ∈ p.userPrompts, ∃ m ∈ activeMessages c,
    prompt.get "history_id" = m.historyId.toLua ∧ m.role = .user ∧ m.status = .completed ∧
      m.visibility = .transcript

theorem focus_agree {q : Projection} (h : p.focus = q.focus) : Agree p q :=
  ⟨congrArg Focus.historyHead h,congrArg Focus.pendingEdit h,congrArg Focus.userPrompts h⟩

theorem focus_offers (h : p.focus = conversationFocus c) : Offers c p := by
  refine ⟨congrArg Focus.historyHead h,fun prompt hp => ?_⟩
  rw [show p.userPrompts = _ from congrArg Focus.userPrompts h] at hp
  obtain ⟨m,hm,he⟩ := List.mem_filterMap.mp hp
  refine ⟨m,hm,?_⟩
  rw [promptEntry] at he
  split at he
  · rename_i hc
    obtain ⟨text,_,rfl⟩ := Option.map_eq_some_iff.mp he
    exact ⟨rfl,hc.1,hc.2.2.1,hc.2.2.2⟩
  · cases he

/-- The surface that reduces every delta of a conversation agrees with the one that reduces a
snapshot of it. -/
theorem deltas_agree (requestId : String) {first : Fields} {c₀ : Conversation} {created : LuaValue}
    {sent : List (Fields × LuaValue)} {view : LuaValue} (hc : Creates first c₀)
    (hch : change encode c₀ first = .ok created)
    (hrun : Trace (fun c e c' => Follows c e.1 ∧ Publishes encode c e c') c₀ sent c)
    (hn : ∀ m ∈ activeMessages c, CallsNamed c m) (hv : conversationView encode c = .ok view) :
    ∃ p q actions,
      reduceAll encode { activeConversationId := some c.id }
        (deltaBody first created :: sent.map Prod.snd) = .ok p ∧
      reduce encode { activeConversationId := some c.id } (snapshotBody requestId c view) =
        .ok (q,actions) ∧ Agree p q ∧ Offers c p := by
  have hid : c.id = c₀.id := by
    refine (hrun.relates (R := fun c c' => c.id = c'.id) (fun _ => rfl) (fun _ _ _ => Eq.trans)
      fun c e c' hs => ?_).symm
    exact (accepts_id (hs.2.accepts encode)).symm
  have hr : c.Reachable :=
    hrun.preserves (fun c e c' hr hs => hr.accepts (hs.2.accepts encode)) hc.reachable
  obtain ⟨p₁,actions,h₁,hf₁⟩ := created_reduces encode hc hch
  obtain ⟨p,h,hp⟩ := reduceAll_follows encode hc.reachable hrun hf₁
  obtain ⟨s,hs,hfocus⟩ := snapshotActions_focus encode hr hn hv
    ⟨{ activeConversationId := some c.id },[]⟩ rfl
  refine ⟨p,s.state,s.actions,?_,?_,focus_agree (hp.trans hfocus.symm),focus_offers hp⟩
  · rw [hid,reduceAll,List.foldlM_cons,h₁]
    exact h
  · rw [reduce_snapshot encode (c := c) rfl requestId (view_isTable encode hv),hs]
    rfl

end Runs

/-- A prompt that is completed while it is the last message. -/
theorem deltas_agree_prompted : ∃ (created : LuaValue) (sent : List (Fields × LuaValue))
    (view : LuaValue) (p q : Projection) (actions : List LuaValue),
    sent.map Prod.fst = [promptStarted,promptCompleted] ∧
    reduceAll (fun _ => none) { activeConversationId := some promptedConversation.id }
      (deltaBody createdEvent created :: sent.map Prod.snd) = .ok p ∧
    reduce (fun _ => none) { activeConversationId := some promptedConversation.id }
      (snapshotBody "r" promptedConversation view) = .ok (q,actions) ∧
    Agree p q ∧ Offers promptedConversation p := by
  obtain ⟨created,hcreated⟩ : ∃ created, change (fun _ => none) createdConversation createdEvent =
    .ok created := ⟨_,rfl⟩
  obtain ⟨view,hview⟩ : ∃ view, conversationView (fun _ => none) promptedConversation =
    .ok view := ⟨_,rfl⟩
  obtain ⟨event₁,ch₁,hfold₁,hch₁⟩ : ∃ event' ch, fold (some createdConversation) promptStarted =
      (.ok event',some (createdConversation.next promptStarted)) ∧
      change (fun _ => none) (createdConversation.next promptStarted) event' = .ok ch :=
    ⟨_,_,rfl,rfl⟩
  obtain ⟨ch₂,hch₂⟩ : ∃ ch, change (fun _ => none) promptedConversation promptCompleted = .ok ch :=
    ⟨_,rfl⟩
  have hk₁ : promptStarted.get "kind" = .str "message_started" := rfl
  have hk₂ : promptCompleted.get "kind" = .str "message_completed" := rfl
  have hf₁ : Follows createdConversation promptStarted := by
    refine ⟨fun h => ?_,fun h => ?_,fun _ _ h => ?_⟩
    · simp [hk₁] at h
    · simp [Closing,hk₁] at h
    · cases h
  have hf₂ : Follows (createdConversation.next promptStarted) promptCompleted := by
    refine ⟨fun h => ?_,fun _ i m ho => ?_,fun h => ?_⟩
    · simp [hk₂] at h
    · cases ho.2.1
      rfl
    · simp [hk₂] at h
  have hn : ∀ m ∈ activeMessages promptedConversation, CallsNamed promptedConversation m :=
    fun m _ => callsNamed promptedConversation_reachable rfl m
  have hsent : Trace (fun c e c' => Follows c e.1 ∧ Publishes (fun _ => none) c e c')
      createdConversation
      [(promptStarted,deltaBody event₁ ch₁),(promptCompleted,deltaBody promptCompleted ch₂)]
      promptedConversation :=
    .cons ⟨hf₁,event₁,ch₁,hfold₁,hch₁,rfl⟩ (.single ⟨hf₂,promptCompleted,ch₂,rfl,hch₂,rfl⟩)
  obtain ⟨p,q,actions,h⟩ := deltas_agree (fun _ => none) "r" creates_createdConversation hcreated
    hsent hn hview
  exact ⟨created,_,view,p,q,actions,rfl,h⟩

/-- The message of a notice becomes the head, but the surface does not hear of it. -/
theorem deltas_agree_fails : ¬∀ (encode : LuaValue → Option String) (requestId : String)
    (first : Fields) (c₀ c : Conversation) (created : LuaValue) (sent : List (Fields × LuaValue))
    (view : LuaValue), Creates first c₀ → change encode c₀ first = .ok created →
    Trace (Publishes encode) c₀ sent c → conversationView encode c = .ok view →
    ∃ p q actions,
      reduceAll encode { activeConversationId := some c.id }
        (deltaBody first created :: sent.map Prod.snd) = .ok p ∧
      reduce encode { activeConversationId := some c.id } (snapshotBody requestId c view) =
        .ok (q,actions) ∧ Agree p q := by
  intro h
  let noticed := createdConversation.next noticeEvent
  have hr : noticed.Reachable := creates_createdConversation.reachable.next noticeEvent
  obtain ⟨created,hcreated⟩ : ∃ created, change (fun _ => none) createdConversation createdEvent =
    .ok created := ⟨_,rfl⟩
  obtain ⟨view,hview⟩ : ∃ view, conversationView (fun _ => none) noticed = .ok view := ⟨_,rfl⟩
  obtain ⟨ch,hch⟩ : ∃ ch, kindChange (fun _ => none) noticed noticeEvent .contextNoticeAppended =
    .ok ch := ⟨_,rfl⟩
  obtain ⟨p,q,actions,hp,hq,hagree⟩ := h (fun _ => none) "r" createdEvent createdConversation noticed
    created [(noticeEvent,deltaBody noticeEvent ch)] view creates_createdConversation hcreated
    (.single ⟨noticeEvent,ch,rfl,hch,rfl⟩) hview
  obtain ⟨p₁,actions₁,h₁,hf₁⟩ := created_reduces (fun _ => none) creates_createdConversation hcreated
  obtain ⟨s,hs,hfocus⟩ := kindChange_focus (fun _ => none) rfl (by decide) (by decide) (by decide) hch
    ⟨p₁,[]⟩
  obtain ⟨s',hs',hfocus'⟩ := snapshotActions_focus (fun _ => none) hr
    (fun m _ => callsNamed hr rfl m) hview ⟨{ activeConversationId := some noticed.id },[]⟩ rfl
  have hsurface : p.historyHead = HistoryPath.toLua [] := by
    have hactive : p₁.activeConversationId = some createdConversation.id :=
      congrArg Focus.activeConversationId hf₁
    have hid : noticeEvent.get "conversation_id" = .str createdConversation.id := rfl
    have h₂ := reduce_delta (fun _ => none) hactive hid (kindChange_kind (fun _ => none) rfl hch).1
    rw [reduceAll,List.map_singleton,List.foldlM_cons,show noticed.id = createdConversation.id from rfl,
      h₁] at hp
    change ((reduce _ p₁ _).map Prod.fst >>= _) = _ at hp
    rw [h₂,hs] at hp
    cases hp
    exact (congrArg Focus.historyHead hfocus).trans (congrArg Focus.historyHead hf₁)
  have hsnapshot : q.historyHead = HistoryPath.toLua [1] := by
    rw [reduce_snapshot (fun _ => none) (c := noticed) rfl "r" (view_isTable _ hview),hs'] at hq
    cases hq
    exact congrArg Focus.historyHead hfocus'
  rw [hagree.historyHead,hsnapshot] at hsurface
  cases hsurface

end Nefor.Chat
