import Nefor.Chat.Focus

/-! What the change of an event does to the focus. Only the messages and the rewinds matter: all
other changes are about parts of the surface from which no rewind starts. -/
namespace Nefor.Chat
open Nefor.Lua Nefor.ConversationManager

/-- The body with which the manager publishes the change of an accepted event. -/
def deltaBody (event : Fields) (change : LuaValue) : LuaValue := .record
  [("kind",.str "conversation.projection.delta"),("conversation_id",event.get "conversation_id"),
    ("sequence",event.get "sequence"),("change",change)]

/-- The body with which the manager answers a query. -/
def snapshotBody (requestId : String) (c : Conversation) (view : LuaValue) : LuaValue := .record
  [("kind",.str "conversation.snapshot"),("request_id",.str requestId),
    ("conversation_id",.str c.id),("found",.bool true),("projection",view)]

section Bodies
variable (encode : LuaValue → Option String) {c : Conversation} {p : Projection}

theorem reduce_delta (ha : p.activeConversationId = some c.id) {event : Fields}
    (hid : event.get "conversation_id" = .str c.id) {change : LuaValue} (ht : change.isTable) :
    reduce encode p (deltaBody event change) =
      (reduceChange encode change ⟨p,[]⟩).map fun s => (s.state,s.actions) := by
  have hne : change.isNil = false := by cases change <;> first | rfl | cases ht
  have hbody : (deltaBody event change).isTable := rfl
  have hchange : (deltaBody event change).get "change" = change := by
    simp [deltaBody,LuaValue.get_record_cons,hne]
  have hkind : (deltaBody event change).get "kind" = .str "conversation.projection.delta" := rfl
  have hconversation : (deltaBody event change).get "conversation_id" = .str c.id := by
    simp [deltaBody,LuaValue.get_record_cons,hid,LuaValue.isNil]
  unfold reduce
  rw [hbody,hkind,hchange,hconversation,ha,ht]
  simp [LuaValue.str_rawEq]

theorem reduce_snapshot (ha : p.activeConversationId = some c.id) (requestId : String)
    {view : LuaValue} (ht : view.isTable) :
    reduce encode p (snapshotBody requestId c view) =
      (snapshotActions encode view ⟨p,[]⟩).map fun s => (s.state,s.actions) := by
  have hne : view.isNil = false := by cases view <;> first | rfl | cases ht
  have hbody : (snapshotBody requestId c view).isTable := rfl
  have hview : (snapshotBody requestId c view).get "projection" = view := by
    simp [snapshotBody,LuaValue.get_record_cons,hne]
  have hkind : (snapshotBody requestId c view).get "kind" = .str "conversation.snapshot" := rfl
  have hconversation : (snapshotBody requestId c view).get "conversation_id" = .str c.id := rfl
  have hfound : (snapshotBody requestId c view).get "found" = .bool true := rfl
  unfold reduce
  rw [hbody,hkind,hview,hconversation,hfound,ha,ht]
  simp [LuaValue.rawEq]

end Bodies

section Changes
variable (encode : LuaValue → Option String) {after : Conversation} {event : Fields} {ch : LuaValue}

theorem change_isTable (h : ChangeHead) (fields : List (String × LuaValue)) :
    (h.change fields).isTable := rfl

theorem change_kind {h : ChangeHead} {kind : String} (hk : h.kind = .str kind)
    (fields : List (String × LuaValue)) : (h.change fields).get "kind" = .str kind := by
  simp [ChangeHead.change,LuaValue.get_record_cons,hk,LuaValue.isNil]

/-- A field that only this kind of change has. -/
theorem change_get (h : ChangeHead) (fields : List (String × LuaValue)) {name : String}
    (hn : name ∉ ["kind","turn_id","run_id","actor_id"]) :
    (h.change fields).get name = (LuaValue.record fields).get name := by
  simp only [List.mem_cons,List.not_mem_nil,not_or] at hn
  obtain ⟨h1,h2,h3,h4,_⟩ := hn
  simp [ChangeHead.change,LuaValue.get_record_cons,Ne.symm h1,Ne.symm h2,Ne.symm h3,Ne.symm h4]

theorem contentChunkAppended_focus (change : LuaValue) (s : Surface) :
    (contentChunkAppended encode change s).state.focus = s.state.focus := by
  unfold contentChunkAppended
  simp only
  split
  · split
    · rfl
    split
    · rfl
    split
    · split
      · rfl
      split
      · split <;> rfl
      split <;> rfl
    · rfl
  · rfl

theorem noteExchange_focus {change : LuaValue} {x : Exchange}
    (hx : change.get "exchange" = projectedExchange x) (s : Surface) :
    ∃ s', noteExchange change s = .ok (projectedExchange x,s') ∧ s'.state.focus = s.state.focus := by
  have hor : (projectedExchange x).orElse (.table false []) = projectedExchange x := rfl
  have hid : indexValue (projectedExchange x) "id" = .ok (.str x.id) := rfl
  unfold noteExchange
  rw [hx,hor]
  simp only [hid,ok_bind,LuaMap.assign,LuaValue.isNil,Bool.false_eq_true,if_false]
  exact ⟨_,rfl,rfl⟩

theorem toolStarted_focus {change : LuaValue} {x : Exchange}
    (hx : change.get "exchange" = projectedExchange x) (s : Surface) :
    ∃ s', toolStarted change s = .ok s' ∧ s'.state.focus = s.state.focus := by
  obtain ⟨s',h,hf⟩ := noteExchange_focus hx s
  unfold toolStarted
  rw [h]
  exact ⟨_,rfl,hf⟩

theorem toolCompleted_focus (isError : Bool) {change : LuaValue} {x : Exchange}
    (hx : change.get "exchange" = projectedExchange x) (s : Surface) :
    ∃ s', toolCompleted isError change s = .ok s' ∧ s'.state.focus = s.state.focus := by
  obtain ⟨s',h,hf⟩ := noteExchange_focus hx s
  unfold toolCompleted
  rw [h]
  exact ⟨_,rfl,hf⟩

/-- A started message takes the head, and a user message ends the pending edit. -/
theorem messageStarted_focus {change : LuaValue} (c : Conversation) (m : Message)
    (hm : change.get "message" = projectedMessage encode c m false) (s : Surface) :
    (messageStarted change s).state.focus = { s.state.focus with
      historyHead := m.historyId.toLua
      pendingEdit := if m.role = .user then .nil else s.state.pendingEdit } := by
  have hr := recordMessage_focus encode c m s.state
  have hrole : (m.role.toLua).rawEq (.str "user") = decide (m.role = .user) := by
    cases m.role <;> rfl
  unfold messageStarted
  rw [hm]
  simp only [projected_get,projected_isTable,hrole,Bool.and_true]
  by_cases hu : m.role = .user
  · cases hp : s.state.pendingEdit.isNil
    · simp only [hu,decide_true,Bool.not_false,Bool.and_self,if_true]
      change ({ (recordMessage _ s.state).focus with pendingEdit := LuaValue.nil } : Focus) = _
      rw [hr]
    · have hnil : s.state.pendingEdit = .nil := by
        cases hs : s.state.pendingEdit <;> first | rfl | (rw [hs] at hp; cases hp)
      simp only [Bool.not_true,Bool.false_and,Bool.false_eq_true,if_false,hr,hu,if_true]
      simp [Projection.focus,hnil]
  · simp only [hu,decide_false,Bool.and_false,Bool.false_eq_true,if_false,hr]
    rfl

/-- An interrupted message takes the head. -/
theorem messageInterrupted_focus {change : LuaValue} (c : Conversation) (m : Message)
    (hm : change.get "message" = projectedMessage encode c m false) (s : Surface) :
    (messageInterrupted change s).state.focus =
      { s.state.focus with historyHead := m.historyId.toLua } := by
  have hs := settleHidden_focus encode c m s
  unfold messageInterrupted
  rw [hm,hidden_settle]
  simp only
  split <;> exact hs

/-- A change is a table under the name of its kind; a request is published as pending. -/
theorem kindChange_kind {kind : Kind} (hk : event.get "kind" = .str kind.name)
    (h : kindChange encode after event kind = .ok ch) : ch.isTable ∧ ch.get "kind" = .str
      (if kind = .contextCompactionRequested then "context_compaction_pending" else kind.name) := by
  have hhead : ∀ fields, ((changeHead after event).change fields).get "kind" = .str kind.name :=
    change_kind hk
  cases kind with
  | contextCompactionRequested =>
    obtain ⟨op,_,h⟩ := bind_eq_ok.mp h
    obtain ⟨context,_,h⟩ := bind_eq_ok.mp h
    cases h
    exact ⟨rfl,change_kind rfl _⟩
  | turnCompleted | turnFailed | turnInterrupted =>
    obtain ⟨t,_,h⟩ := bind_eq_ok.mp h
    cases h
    exact ⟨rfl,change_kind hk _⟩
  | messageCompleted | messageInterrupted | toolExchangeStarted | toolCallFragmentAppended
  | toolCallCompleted | toolResultRecorded | toolErrorRecorded | contextCompactionCompleted
  | contextCompactionFailed | contextNoticeAppended | responseUsageRecorded =>
    obtain ⟨x,_,h⟩ := bind_eq_ok.mp h
    cases h
    exact ⟨rfl,hhead _⟩
  | rewindCommitted =>
    obtain ⟨x,_,h⟩ := bind_eq_ok.mp h
    obtain ⟨y,_,h⟩ := bind_eq_ok.mp h
    cases h
    exact ⟨rfl,hhead _⟩
  | _ =>
    cases h
    exact ⟨rfl,hhead _⟩

theorem kindChange_exchange {kind : Kind} (ht : kind = .toolExchangeStarted ∨
    kind = .toolCallFragmentAppended ∨ kind = .toolCallCompleted ∨ kind = .toolResultRecorded ∨
    kind = .toolErrorRecorded) (h : kindChange encode after event kind = .ok ch) :
    ∃ x, ch.get "exchange" = projectedExchange x := by
  have hx : (do
      let x ← present (after.findExchange (event.get "exchange_id"))
      Except.ok ((changeHead after event).change [("exchange",projectedExchange x.2)])) =
        Except.ok ch := by
    rcases ht with rfl | rfl | rfl | rfl | rfl <;> exact h
  obtain ⟨x,_,h⟩ := bind_eq_ok.mp hx
  cases h
  exact ⟨x.2,change_get _ _ (by decide)⟩

/-- The changes of all other kinds leave the focus alone. -/
theorem kindChange_focus {kind : Kind} (hk : event.get "kind" = .str kind.name)
    (hc : kind ≠ .messageCompleted) (hi : kind ≠ .messageInterrupted) (hr : kind ≠ .rewindCommitted)
    (h : kindChange encode after event kind = .ok ch) (s : Surface) :
    ∃ s', reduceChange encode ch s = .ok s' ∧ s'.state.focus = s.state.focus := by
  have hkind := (kindChange_kind encode hk h).2
  unfold reduceChange
  rw [hkind]
  cases kind with
  | messageCompleted => exact absurd rfl hc
  | messageInterrupted => exact absurd rfl hi
  | rewindCommitted => exact absurd rfl hr
  | contentChunkAppended => exact ⟨_,rfl,contentChunkAppended_focus encode ch s⟩
  | toolExchangeStarted | toolCallCompleted =>
    obtain ⟨x,hx⟩ := kindChange_exchange encode (by simp) h
    exact toolStarted_focus hx s
  | toolResultRecorded =>
    obtain ⟨x,hx⟩ := kindChange_exchange encode (by simp) h
    exact toolCompleted_focus false hx s
  | toolErrorRecorded =>
    obtain ⟨x,hx⟩ := kindChange_exchange encode (by simp) h
    exact toolCompleted_focus true hx s
  | _ => exact ⟨_,rfl,rfl⟩

end Changes
end Nefor.Chat
