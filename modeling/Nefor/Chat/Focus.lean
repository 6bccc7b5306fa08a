import Nefor.Chat.ConversationProjection
import Nefor.ConversationManager.Branches

/-! What a rewind is offered from: the head, the pending edit and the prompts that the reducer
keeps. A snapshot sets them to those of the conversation, whatever was there before. -/
namespace Nefor.Chat
open Nefor.Lua Nefor.ConversationManager

/-- The part of the state that a rewind starts from. -/
structure Focus where
  activeConversationId : Option String
  historyHead : LuaValue
  pendingEdit : LuaValue
  userPrompts : List LuaValue

def Projection.focus (p : Projection) : Focus :=
  ⟨p.activeConversationId,p.historyHead,p.pendingEdit,p.userPrompts⟩

/-- The entry for a prompt that a rewind can go back before. -/
def promptEntry (m : Message) : Option LuaValue :=
  if m.role = .user ∧ m.inputCause.rawEq (.str "internal_async_completion") = false ∧
      m.status = .completed ∧ m.visibility = .transcript then
    (authoredText (.record [("role",m.role.toLua),("authored_prompt",m.authoredPrompt),
      ("text",.str (String.join (chunkTexts "text" m.chunks))),("chunks",.array m.chunks)])).map
      fun text => .record [("history_id",m.historyId.toLua),("text",.str text)]
  else none

/-- The focus that a conversation has of itself. -/
def conversationFocus (c : Conversation) : Focus :=
  ⟨some c.id,c.head.toLua,optionLua PendingEdit.toLua c.pendingEdit,
    (activeMessages c).filterMap promptEntry⟩

section Messages
variable (encode : LuaValue → Option String) (c : Conversation) (m : Message)

/-- The fields of a projected message that the reducer reads. -/
@[simp] theorem projected_get :
    (projectedMessage encode c m false).get "id" = .str m.id ∧
    (projectedMessage encode c m false).get "role" = m.role.toLua ∧
    (projectedMessage encode c m false).get "history_id" = m.historyId.toLua ∧
    (projectedMessage encode c m false).get "status" = m.status.toLua ∧
    (projectedMessage encode c m false).get "visibility" = m.visibility.toLua ∧
    (projectedMessage encode c m false).get "input_cause" = m.inputCause ∧
    (projectedMessage encode c m false).get "authored_prompt" = m.authoredPrompt ∧
    (projectedMessage encode c m false).get "text" = .str (String.join (chunkTexts "text" m.chunks)) ∧
    (projectedMessage encode c m false).get "chunks" = .array m.chunks ∧
    (projectedMessage encode c m false).get "tool_calls" = .array (toolCalls c m) := by
  simp [projectedMessage,LuaValue.get_record_cons,LuaValue.get_record_nil,LuaValue.ite_isNil]

@[simp] theorem projected_isTable : (projectedMessage encode c m false).isTable = true := rfl

@[simp] theorem toLua_isTable (p : HistoryPath) : p.toLua.isTable = true := rfl

theorem authoredText_projected : authoredText (projectedMessage encode c m false) =
    authoredText (.record [("role",m.role.toLua),("authored_prompt",m.authoredPrompt),
      ("text",.str (String.join (chunkTexts "text" m.chunks))),("chunks",.array m.chunks)]) := by
  have ht : (LuaValue.record [("role",m.role.toLua),("authored_prompt",m.authoredPrompt),
      ("text",.str (String.join (chunkTexts "text" m.chunks))),("chunks",.array m.chunks)]).isTable :=
    rfl
  simp [authoredText,authoredText.textOf,ht,LuaValue.get_record_cons,LuaValue.get_record_nil,
    LuaValue.ite_isNil]

theorem hidden_projected : hidden (projectedMessage encode c m false) =
    decide (m.visibility ≠ .transcript) := by
  cases hv : m.visibility <;> simp [hidden,hiddenVisibility,hv,Visibility.toLua,LuaValue.str_rawEq]

theorem fromUser_projected : fromUser (projectedMessage encode c m false) =
    (decide (m.role = .user) && !m.inputCause.rawEq (.str "internal_async_completion")) := by
  cases hr : m.role <;> simp [fromUser,hr,Role.toLua,LuaValue.str_rawEq]

/-- A message is recorded, and its place in the history is taken for the head. -/
theorem recordMessage_focus (p : Projection) :
    (recordMessage (projectedMessage encode c m false) p).focus =
      { p.focus with historyHead := m.historyId.toLua } := by
  simp [recordMessage,Projection.focus]

/-- A prompt is remembered when it is completed and shows in the transcript. -/
theorem rememberUserPrompt_focus (p : Projection)
    (hu : fromUser (projectedMessage encode c m false)) :
    (rememberUserPrompt (projectedMessage encode c m false) p).focus =
      { p.focus with userPrompts := p.userPrompts ++ (promptEntry m).toList } := by
  rw [fromUser_projected,Bool.and_eq_true,decide_eq_true_eq,Bool.not_eq_true'] at hu
  have hstatus : m.status.toLua.rawEq (.str "completed") = decide (m.status = .completed) := by
    cases m.status <;> rfl
  have hvisible : (m.visibility.toLua.orElse (.str "transcript")).rawEq (.str "transcript") =
      decide (m.visibility = .transcript) := by
    cases m.visibility <;> rfl
  unfold rememberUserPrompt
  rw [authoredText_projected]
  simp only [projected_get,toLua_isTable,hstatus,hvisible,promptEntry,hu]
  by_cases hs : m.status = .completed
  · by_cases hv : m.visibility = .transcript
    · simp only [hs,hv]
      generalize authoredText _ = text
      cases text <;> simp [Projection.focus]
    · simp [hv,Projection.focus]
  · simp [hs,Projection.focus]

/-- Only a message that shows and that a person wrote has an entry. -/
theorem promptEntry_eq_none (h : fromUser (projectedMessage encode c m false) = false ∨
    hidden (projectedMessage encode c m false)) : promptEntry m = none := by
  rw [fromUser_projected,hidden_projected] at h
  rw [promptEntry,if_neg]
  intro ⟨hr,hi,_,hv⟩
  simp [hr,hi,hv] at h

theorem hidden_settle {s : Surface} : settleHidden (projectedMessage encode c m false) s =
    (hidden (projectedMessage encode c m false),
      (settleHidden (projectedMessage encode c m false) s).2) := by
  unfold settleHidden
  cases hidden (projectedMessage encode c m false) <;> rfl

theorem settleHidden_focus (s : Surface) :
    (settleHidden (projectedMessage encode c m false) s).2.state.focus =
      { s.state.focus with historyHead := m.historyId.toLua } := by
  rw [← recordMessage_focus encode c m]
  unfold settleHidden
  simp only
  split
  · rfl
  · split <;> rfl

theorem messageAction_focus (message : LuaValue) (text : String) (s : Surface) :
    (messageAction message text s).state = s.state := rfl

/-- A completed message takes the head, and its prompt is the last one. -/
theorem messageCompleted_focus (s : Surface) :
    (messageCompleted encode (projectedMessage encode c m false) s).state.focus =
      { s.state.focus with
        historyHead := m.historyId.toLua
        userPrompts := s.state.userPrompts ++ (promptEntry m).toList } := by
  have hs := settleHidden_focus encode c m s
  have hstate : ∀ s' : Surface, s'.state.focus = { s.state.focus with historyHead := m.historyId.toLua } →
      promptEntry m = none → s'.state.focus = { s.state.focus with
        historyHead := m.historyId.toLua
        userPrompts := s.state.userPrompts ++ (promptEntry m).toList } := by
    intro s' hs' hn
    rw [hs',hn]
    simp [Projection.focus]
  unfold messageCompleted
  rw [hidden_settle]
  simp only
  by_cases hh : hidden (projectedMessage encode c m false)
  · rw [hh]
    exact hstate _ hs (promptEntry_eq_none encode c m (.inr hh))
  · rw [Bool.not_eq_true] at hh
    rw [hh]
    by_cases hu : fromUser (projectedMessage encode c m false)
    · simp only [hu,projected_isTable]
      have hr := rememberUserPrompt_focus encode c m
        (settleHidden (projectedMessage encode c m false) s).2.state hu
      rw [hs] at hr
      have hp : (settleHidden (projectedMessage encode c m false) s).2.state.userPrompts =
          s.state.userPrompts := congrArg Focus.userPrompts hs
      rw [hp] at hr
      exact hr
    · rw [Bool.not_eq_true] at hu
      have hn := promptEntry_eq_none encode c m (.inl hu)
      simp only [hu,projected_isTable,Bool.not_true,Bool.or_false,Bool.false_eq_true,if_false]
      split
      · exact hstate _ hs hn
      · exact hstate _ hs hn

end Messages

section Snapshot
variable (encode : LuaValue → Option String) (c : Conversation)

/-- A loop whose every round succeeds, with what it does to the focus. -/
theorem foldlM_focus {α : Type} {f : Surface → LuaValue → Except Fault Surface} (g : α → LuaValue)
    (step : Focus → α → Focus) {xs : List α} (h : ∀ a ∈ xs, ∀ s, ∃ s', f s (g a) = .ok s' ∧
      s'.state.focus = step s.state.focus a) (s : Surface) :
    ∃ s', (xs.map g).foldlM f s = .ok s' ∧ s'.state.focus = xs.foldl step s.state.focus := by
  induction xs generalizing s with
  | nil => exact ⟨s,rfl,rfl⟩
  | cons a rest ih =>
    obtain ⟨s₁,h₁,hf₁⟩ := h a List.mem_cons_self s
    obtain ⟨s₂,h₂,hf₂⟩ := ih (fun b hb => h b (List.mem_cons_of_mem a hb)) s₁
    refine ⟨s₂,?_,?_⟩
    · rw [List.map_cons,List.foldlM_cons,h₁]
      exact h₂
    · rw [hf₂,hf₁,List.foldl_cons]

/-- A loop that leaves the focus alone. -/
theorem foldlM_unfocused {f : Surface → LuaValue → Except Fault Surface} {xs : List LuaValue}
    (h : ∀ a ∈ xs, ∀ s, ∃ s', f s a = .ok s' ∧ s'.state.focus = s.state.focus) (s : Surface) :
    ∃ s', xs.foldlM f s = .ok s' ∧ s'.state.focus = s.state.focus := by
  obtain ⟨s',h',hf⟩ := foldlM_focus id (fun fo _ => fo) h s
  exact ⟨s',by rwa [List.map_id] at h',hf.trans (List.foldl_fixed xs)⟩

theorem elements_array {vs : List LuaValue} (h : ∀ v ∈ vs, v.isNil = false) :
    elements (.array vs) = .ok vs := by
  have ho : (LuaValue.array vs).orElse (.table false []) = .array vs := rfl
  have hs := sequence_array h
  rw [elements,ho]
  exact congrArg Except.ok hs

/-- The calls of the message carry the ids of the tool calls they stand for. -/
def CallsNamed (m : Message) : Prop :=
  m.role = .assistant → m.visibility = .transcript →
    ∀ call ∈ toolCalls c m, (call.get "id").isNil = false

theorem indexValue_table {v : LuaValue} (h : v.isTable) (name : String) :
    indexValue v name = .ok (v.get name) := by
  cases v <;> first | rfl | cases h

theorem replayCall_focus (message : LuaValue) {call : LuaValue} (lookup : Lookup)
    (ht : call.isTable) (hid : (call.get "id").isNil = false) (s : Surface) :
    ∃ s', replayCall lookup message s call = .ok s' ∧ s'.state.focus = s.state.focus := by
  have hne : ∀ v : LuaValue, (v.orElse (call.get "id")).isNil = false := by
    intro v
    unfold LuaValue.orElse
    cases hv : v.truthy
    · exact hid
    · cases v <;> first | rfl | cases hv
  unfold replayCall
  rw [indexValue_table ht,ok_bind]
  simp only
  split
  · rw [LuaMap.assign,hne]
    exact ⟨_,rfl,rfl⟩
  · rw [LuaMap.assign,hid]
    exact ⟨_,rfl,rfl⟩

theorem completeExchange_focus (exchange : LuaValue) (s : Surface) :
    (completeExchange exchange s).state = s.state := by
  unfold completeExchange
  simp only
  split <;> rfl

theorem completeCall_focus (lookup : Lookup) (calls : List LuaValue) (s : Surface) :
    (calls.foldl (completeCall lookup) s).state = s.state := by
  induction calls generalizing s with
  | nil => rfl
  | cons call rest ih =>
    rw [List.foldl_cons,ih]
    unfold completeCall
    simp only
    split
    · split
      · rfl
      · exact completeExchange_focus _ s
    · exact completeExchange_focus _ s

theorem replayText_focus (message : LuaValue) (s : Surface) :
    (replayText message s).state.focus = s.state.focus := by
  unfold replayText
  simp only
  split <;> split <;> first | rfl | (split <;> rfl)

theorem toolCalls_isTable (m : Message) : ∀ call ∈ toolCalls c m, call.isTable ∧ call.isNil = false := by
  intro call hc
  obtain ⟨id,_,hx⟩ := List.mem_filterMap.mp hc
  obtain ⟨x,_,rfl⟩ := Option.map_eq_some_iff.mp hx
  exact ⟨rfl,rfl⟩

theorem replayAssistant_focus (lookup : Lookup) {m : Message}
    (hn : ∀ call ∈ toolCalls c m, (call.get "id").isNil = false) (s : Surface) :
    ∃ s', replayAssistant lookup (projectedMessage encode c m false) s = .ok s' ∧
      s'.state.focus = s.state.focus := by
  have hcalls := toolCalls_isTable c m
  obtain ⟨s',hs',hf⟩ := foldlM_unfocused
    (fun call hm s => replayCall_focus (projectedMessage encode c m false) lookup
      (hcalls call hm).1 (hn call hm) s) (replayText (projectedMessage encode c m false) s)
  unfold replayAssistant
  rw [(projected_get encode c m).2.2.2.2.2.2.2.2.2,elements_array fun v hv => (hcalls v hv).2,
    ok_bind,hs',ok_bind]
  refine ⟨_,rfl,?_⟩
  rw [completeCall_focus]
  exact hf.trans (replayText_focus _ s)

/-- A message of the snapshot takes the head, and its prompt is the last one. -/
def Focus.replayed (fo : Focus) (m : Message) : Focus := { fo with
  historyHead := m.historyId.toLua
  userPrompts := fo.userPrompts ++ (promptEntry m).toList }

theorem replayMessage_focus (lookup : Lookup) {m : Message} (hc : CallsNamed c m) (s : Surface) :
    ∃ s', replayMessage encode lookup s (projectedMessage encode c m false) = .ok s' ∧
      s'.state.focus = s.state.focus.replayed m := by
  have hr := recordMessage_focus encode c m s.state
  have hplain : promptEntry m = none → (recordMessage (projectedMessage encode c m false)
      s.state).focus = s.state.focus.replayed m := by
    intro hn
    rw [hr,Focus.replayed,hn]
    simp
  unfold replayMessage
  simp only
  by_cases hh : hidden (projectedMessage encode c m false)
  · rw [if_pos hh]
    exact ⟨_,rfl,hplain (promptEntry_eq_none encode c m (.inr hh))⟩
  rw [if_neg hh]
  by_cases ha : ((projectedMessage encode c m false).get "role").rawEq (.str "assistant")
  · rw [if_pos ha]
    have hrole : m.role = .assistant := by
      rw [(projected_get encode c m).2.1] at ha
      cases hm : m.role <;> simp [hm,Role.toLua,LuaValue.str_rawEq] at ha ⊢
    have hvisible : m.visibility = .transcript := by
      rw [hidden_projected] at hh
      simpa using hh
    have hu : fromUser (projectedMessage encode c m false) = false := by
      simp [fromUser_projected,hrole]
    obtain ⟨s',hs',hf⟩ := replayAssistant_focus encode c lookup (hc hrole hvisible)
      { s with state := recordMessage (projectedMessage encode c m false) s.state }
    exact ⟨s',hs',hf.trans (hplain (promptEntry_eq_none encode c m (.inl hu)))⟩
  rw [if_neg ha]
  by_cases hu : fromUser (projectedMessage encode c m false)
  · rw [if_pos hu]
    refine ⟨_,rfl,?_⟩
    rw [messageAction_focus,rememberUserPrompt_focus encode c m _ hu,hr]
    rfl
  · rw [if_neg hu]
    have hn := promptEntry_eq_none encode c m (.inl (by simpa using hu))
    split
    · exact ⟨_,rfl,by rw [completeExchange_focus]; exact hplain hn⟩
    · exact ⟨_,rfl,hplain hn⟩

theorem foldl_replayed (ms : List Message) (fo : Focus) : ms.foldl Focus.replayed fo =
    { fo with
      historyHead := (ms.getLast?.map fun m => m.historyId.toLua).getD fo.historyHead
      userPrompts := fo.userPrompts ++ ms.filterMap promptEntry } := by
  induction ms generalizing fo with
  | nil => simp
  | cons m rest ih =>
    rw [List.foldl_cons,ih,Focus.replayed,List.getLast?_cons]
    cases hp : promptEntry m <;> cases rest.getLast? <;> simp [hp]

theorem addExchange_ok (xs : List Exchange) (lookup : Lookup) :
    ∃ lookup', (xs.map projectedExchange).foldlM Lookup.addExchange lookup = .ok lookup' := by
  induction xs generalizing lookup with
  | nil => exact ⟨lookup,rfl⟩
  | cons x rest ih =>
    have hid : indexValue (projectedExchange x) "id" = .ok (.str x.id) := rfl
    rw [List.map_cons,List.foldlM_cons]
    unfold Lookup.addExchange
    rw [hid,ok_bind]
    simp only [LuaMap.assign,LuaValue.isNil,ok_bind,Bool.false_eq_true,if_false]
    split
    · exact ih _
    · exact ih _

theorem addMessage_ok (ms : List Message) (lookup : Lookup) :
    ∃ lookup', (ms.map fun m => projectedMessage encode c m false).foldlM Lookup.addMessage lookup =
      .ok lookup' := by
  induction ms generalizing lookup with
  | nil => exact ⟨lookup,rfl⟩
  | cons m rest ih =>
    have hrole : indexValue (projectedMessage encode c m false) "role" = .ok m.role.toLua := by
      rw [indexValue_table rfl,(projected_get encode c m).2.1]
    rw [List.map_cons,List.foldlM_cons]
    unfold Lookup.addMessage
    rw [hrole,ok_bind]
    split
    · exact ih _
    · exact ih _

/-- The message at the head is the last one on its branch. -/
theorem activeMessages_split {c : Conversation} (hc : c.Reachable) {i : Nat} {m : Message}
    (hi : c.messages[i]? = some m) (hm : m.historyId = c.head) :
    activeMessages c =
      ((c.messages.take i).filter fun n => decide (n.historyId <+: c.head)) ++ [m] := by
  obtain ⟨hg,hs⟩ := hc.tree
  have hp : c.tree.paths[i]? = some c.head := by
    simp [Conversation.tree,hi,hm]
  have hlast : (c.messages.drop (i+1)).filter (fun n => decide (n.historyId <+: c.head)) = [] := by
    rw [List.filter_eq_nil_iff]
    intro n hn
    obtain ⟨k,hk⟩ := List.mem_iff_getElem?.mp hn
    rw [List.getElem?_drop] at hk
    have hpath : c.tree.paths[i+1+k]? = some n.historyId := by simp [Conversation.tree,hk]
    rw [decide_eq_true_eq]
    intro hpre
    have hle := hg.le_of_prefix hp hpath hpre
    omega
  obtain ⟨hlt,rfl⟩ := List.getElem?_eq_some_iff.mp hi
  rw [activeMessages_eq hs]
  conv_lhs => rw [← List.take_append_drop i c.messages,List.filter_append,
    List.drop_eq_getElem_cons hlt,List.filter_cons,hlast]
  rw [if_pos (by simp [hm])]

/-- The last message on the branch stands at the head. -/
theorem getLast?_activeMessages {c : Conversation} (hc : c.Reachable) :
    ((activeMessages c).getLast?.map fun m => m.historyId.toLua).getD c.head.toLua =
      c.head.toLua := by
  obtain ⟨hg,hs⟩ := hc.tree
  rcases hg.head with hh | hh
  · have hnone : activeMessages c = [] := by
      rw [activeMessages_eq hs,List.filter_eq_nil_iff]
      intro m hm
      obtain ⟨i,hi⟩ := List.mem_iff_getElem?.mp hm
      obtain ⟨q,n,he,_⟩ := hg.below i m.historyId (by simp [Conversation.tree,hi])
      rw [decide_eq_true_eq,he,show c.head = [] from hh,List.prefix_nil]
      simp
    rw [hnone]
    rfl
  · obtain ⟨i,hi⟩ := List.mem_iff_getElem?.mp hh
    obtain ⟨m,hm,he⟩ := Option.map_eq_some_iff.mp ((List.getElem?_map (i := i)).symm.trans hi)
    rw [activeMessages_split hc hm he,List.getLast?_concat]
    exact congrArg HistoryPath.toLua he

theorem restoreTurn_focus (t : Turn) (s : Surface) :
    ∃ s', restoreTurn s t.toLua = .ok s' ∧ s'.state.focus = s.state.focus := by
  have hs : indexValue t.toLua "status" = .ok t.status.toLua := by
    have hne : t.status.toLua.isNil = false := by cases t.status <;> rfl
    rw [indexValue_table rfl]
    simp [Turn.toLua,LuaValue.get_record_cons,hne]
  unfold restoreTurn
  rw [hs,ok_bind]
  refine ⟨_,rfl,?_⟩
  split <;> rfl

theorem restoreCompaction_focus (op : Compaction) (s : Surface) :
    ∃ s', restoreCompaction s (publicCompaction false op) = .ok s' ∧
      s'.state.focus = s.state.focus := by
  have hs : indexValue (publicCompaction false op) "status" = .ok op.status.toLua := by
    have hne : op.status.toLua.isNil = false := by cases op.status <;> rfl
    rw [indexValue_table rfl]
    simp [publicCompaction,LuaValue.get_record_cons,hne]
  unfold restoreCompaction
  rw [hs,ok_bind]
  cases op.status <;> exact ⟨_,rfl,rfl⟩

/-- The tables of the view that a snapshot reads. -/
theorem view_get {view : LuaValue} (hv : conversationView encode c = .ok view) :
    view.get "messages" =
      .array ((activeMessages c).map fun m => projectedMessage encode c m false) ∧
    view.get "exchanges" = .array ((c.exchanges.filter fun x =>
      (activeMessages c).any fun m => m.id == x.messageId).map projectedExchange) ∧
    view.get "turns" = .array ((c.turns.filter fun t =>
      (activeMessages c).any fun m => m.turnId.rawEq (.str t.id)).map Turn.toLua) ∧
    view.get "compactions" = .array ((c.compactions.filter fun op =>
      c.onHead op.historyId).map (publicCompaction false)) ∧
    view.get "history_head" = c.head.toLua ∧
    view.get "pending_edit" = optionLua PendingEdit.toLua c.pendingEdit := by
  unfold conversationView at hv
  obtain ⟨usage,_,hv⟩ := bind_eq_ok.mp hv
  cases hv
  have harray : ∀ vs : List LuaValue, (LuaValue.array vs).isNil = false := fun _ => rfl
  have hpath : ∀ p : HistoryPath, p.toLua.isNil = false := fun _ => rfl
  simp [LuaValue.get_record_cons,LuaValue.get_record_nil,LuaValue.ite_isNil,harray,hpath]

/-- A snapshot sets the focus to that of its conversation, whatever it was before. -/
theorem snapshotActions_focus {c : Conversation} (hc : c.Reachable)
    (hn : ∀ m ∈ activeMessages c, CallsNamed c m) {view : LuaValue}
    (hv : conversationView encode c = .ok view) (s : Surface)
    (ha : s.state.activeConversationId = some c.id) :
    ∃ s', snapshotActions encode view s = .ok s' ∧ s'.state.focus = conversationFocus c := by
  obtain ⟨hmessages,hexchanges,hturns,hops,hhead,hedit⟩ := view_get encode c hv
  generalize c.exchanges.filter _ = xs at hexchanges
  generalize c.turns.filter _ = ts at hturns
  generalize c.compactions.filter _ = ops at hops
  have htable : ∀ {α : Type} (f : α → LuaValue) (xs : List α), (∀ x, (f x).isNil = false) →
      elements (.array (xs.map f)) = .ok (xs.map f) :=
    fun f xs hf => elements_array (List.forall_mem_map.mpr fun x _ => hf x)
  unfold snapshotActions
  rw [hmessages,hexchanges,hturns,hops,hhead,hedit,htable projectedExchange _ fun _ => rfl,
    htable (projectedMessage encode c · false) _ fun _ => rfl,htable Turn.toLua _ fun _ => rfl,
    htable (publicCompaction false) _ fun _ => rfl]
  obtain ⟨lookup₁,hl₁⟩ := addExchange_ok xs {}
  obtain ⟨lookup₂,hl₂⟩ := addMessage_ok encode c (activeMessages c) lookup₁
  simp only [ok_bind,hl₁,hl₂]
  obtain ⟨s₁,h₁,hf₁⟩ := foldlM_focus (fun m => projectedMessage encode c m false) Focus.replayed
    (fun m hm s => replayMessage_focus encode c lookup₂ (hn m hm) s) (Surface.action { s with state := {
      activeConversationId := s.state.activeConversationId
      historyHead := c.head.toLua
      pendingEdit := optionLua PendingEdit.toLua c.pendingEdit } } "snapshot_reset" [])
  obtain ⟨s₂,h₂,hf₂⟩ := foldlM_unfocused
    (List.forall_mem_map (l := ts).mpr fun t _ => restoreTurn_focus t) s₁
  obtain ⟨s₃,h₃,hf₃⟩ := foldlM_unfocused
    (List.forall_mem_map (l := ops).mpr fun op _ => restoreCompaction_focus op) s₂
  have hfocus : s₃.state.focus = conversationFocus c := by
    rw [hf₃,hf₂,hf₁,foldl_replayed,conversationFocus,← ha]
    simp [getLast?_activeMessages hc,Projection.focus,Surface.action]
  rw [show (c.head.toLua).orElse (.array []) = c.head.toLua from rfl]
  simp only [h₁,h₂,h₃,ok_bind]
  refine ⟨_,rfl,?_⟩
  split <;> exact hfocus

end Snapshot
end Nefor.Chat
