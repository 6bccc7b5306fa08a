import Nefor.ConversationManager.Bookkeeping
import Nefor.ConversationManager.Projection

/-! Branches of the history. The views show the messages on the path to the head, messages keep
their ids and paths and stay as they were closed, so going back shows the past again. -/
namespace Nefor.ConversationManager
open Nefor.Lua Nefor.Action

/-- The ids of the messages that a view carries, in order. -/
def viewIds (view : LuaValue) : List LuaValue := (view.get "messages").sequence.map (·.get "id")

section Views
variable {encode : LuaValue → Option String} {c : Conversation} {view : LuaValue}

theorem projectedMessage_id (m : Message) (includeProviderContext : Bool) :
    (projectedMessage encode c m includeProviderContext).get "id" = .str m.id := by
  simp [projectedMessage,LuaValue.get_record_cons,LuaValue.isNil]

theorem record_isNil (es : List (String × LuaValue)) : (LuaValue.record es).isNil = false := rfl

/-- The messages of a view read back. -/
theorem viewIds_of_messages {ms : List Message} {includeProviderContext : Bool}
    (h : view.get "messages" =
      .array (ms.map fun m => projectedMessage encode c m includeProviderContext)) :
    viewIds view = ms.map fun m => .str m.id := by
  rw [viewIds,h,sequence_array,List.map_map]
  · exact List.map_congr_left fun m _ => projectedMessage_id m includeProviderContext
  · intro v hv
    obtain ⟨m,_,rfl⟩ := List.mem_map.mp hv
    rfl

theorem contextView_messages {options : ContextOptions}
    (h : contextView encode c options = .ok view) :
    view.get "messages" = .array ((contextAll c options).map fun m => projectedMessage encode c m true) := by
  simp only [contextView] at h
  obtain ⟨usage,_,h⟩ := bind_eq_ok.mp h
  cases h
  rw [LuaValue.get_record_cons,if_pos ⟨rfl,rfl⟩]

theorem contextView_ids {options : ContextOptions} (h : contextView encode c options = .ok view) :
    viewIds view = (contextAll c options).map fun m => .str m.id :=
  viewIds_of_messages (contextView_messages h)

/-- The records that a view indexes without looking are tables or strings: what closed each
message, and the provenance of each turn. -/
structure Readable (c : Conversation) : Prop where
  terminals : ∀ m ∈ c.messages, unindexable (m.terminal.orElse (.table false [])) = false
  provenances : ∀ t ∈ c.turns, unindexable t.provenance = false

theorem indexValue_ok {v : LuaValue} (h : unindexable v = false) (name : String) :
    ∃ w, indexValue v name = .ok w := by
  rcases indexValue_cases v name with ⟨_,hw⟩ | ⟨hv,_⟩
  · exact hw
  · rw [h] at hv
    cases hv

theorem messageMeasured_ok (h : Readable c) {m : Message} (hm : m ∈ c.messages) :
    ∃ measured, messageMeasured c m = .ok measured := by
  obtain ⟨usage,hu⟩ := indexValue_ok (h.terminals m hm) "latest_response_usage"
  obtain ⟨provider,hp⟩ := indexValue_ok (h.terminals m hm) "provider"
  obtain ⟨model,hmo⟩ := indexValue_ok (h.terminals m hm) "model"
  simp only [messageMeasured,hu,hp,hmo,ok_bind]
  split
  · split
    · exact ⟨_,rfl⟩
    · split
      · split
        · rename_i t ht
          obtain ⟨_,_,_,htj⟩ := Conversation.findTurn_eq_some ht
          obtain ⟨w,hw⟩ := indexValue_ok (h.provenances _ (List.mem_of_getElem? htj)) "provider"
          rw [hw]
          exact ⟨_,rfl⟩
        · exact ⟨_,rfl⟩
      · exact ⟨_,rfl⟩
  · exact ⟨_,rfl⟩

theorem considerMessages_ok (h : Readable c) (provider model cutoff : LuaValue) {ms : List Message}
    (hms : ∀ m ∈ ms, m ∈ c.messages) (latest : Option Measured) :
    ∃ latest', considerMessages c provider model cutoff ms latest = .ok latest' := by
  induction ms generalizing latest with
  | nil => exact ⟨latest,rfl⟩
  | cons m rest ih =>
    obtain ⟨measured,hm⟩ := messageMeasured_ok h (hms m List.mem_cons_self)
    rw [considerMessages,hm]
    exact ih (fun n hn => hms n (List.mem_cons_of_mem _ hn)) _

theorem latestResponse_ok (h : Readable c) (provider model : LuaValue) :
    ∃ usage, latestResponse c provider model = .ok usage := by
  obtain ⟨latest,hl⟩ := considerMessages_ok h provider model (measuredCutoff c).1 (fun _ hm => hm)
    (c.responseUsages.foldl (fun latest u => consider c provider model (measuredCutoff c).1 latest
      ⟨u.sequence,u.historyId,.str u.provider,u.model,u.latestResponseUsage⟩) (measuredCutoff c).2)
  simp only [latestResponse,hl,ok_bind]
  exact ⟨_,rfl⟩

theorem conversationView_ok (h : Readable c) : ∃ view, conversationView encode c = .ok view := by
  obtain ⟨usage,hu⟩ := latestResponse_ok h (c.provenance.get "provider") (c.provenance.get "model")
  simp only [conversationView,hu,ok_bind]
  exact ⟨_,rfl⟩

end Views

/-- The messages stay where they are with their ids and paths, and those that are closed stay
just as they are. -/
structure Extends (c c' : Conversation) : Prop where
  columns : (c.messages.map fun m => (m.id,m.historyId)) <+:
    c'.messages.map fun m => (m.id,m.historyId)
  closed : ∀ (i : Nat) m, c.messages[i]? = some m → m.status ≠ .opened → c'.messages[i]? = some m

namespace Extends
variable {event : Fields} {c c' c'' : Conversation}

theorem refl (c : Conversation) : Extends c c := ⟨List.prefix_refl _,fun _ _ h _ => h⟩

theorem trans (h : Extends c c') (h' : Extends c' c'') : Extends c c'' :=
  ⟨h.columns.trans h'.columns,fun i m hm ho => h'.closed i m (h.closed i m hm ho) ho⟩

theorem same (h : c'.messages = c.messages) : Extends c c' := by
  constructor
  · rw [h]
  · rw [h]; exact fun _ _ h _ => h

theorem push (m : Message) (h : c'.messages = c.messages ++ [m]) : Extends c c' := by
  constructor
  · rw [h,List.map_append]
    exact List.prefix_append _ _
  · intro i m hm _
    rw [h,List.getElem?_append_left (List.getElem?_eq_some_iff.mp hm).1,hm]

/-- Only an open message is changed. -/
theorem modify {i : Nat} {m : Message} {f : Message → Message} (hm : c.messages[i]? = some m)
    (ho : m.status = .opened) (hf : (f m).id = m.id ∧ (f m).historyId = m.historyId)
    (h : c'.messages = c.messages.modify i f) : Extends c c' := by
  constructor
  · rw [h,map_modify_same]
    intro n hn
    rw [hm] at hn
    cases hn
    rw [hf.1,hf.2]
  · intro j n hn hc
    have hij : i ≠ j := by
      rintro rfl
      rw [hm] at hn
      cases hn
      exact hc ho
    simp [h,hij,hn]

theorem effect {d : Dispatch} (h : Effect event c d c') : Extends c c' := by
  cases h with
  | messageStarted hs => exact push _ (messages_startMessage _)
  | noticeAppended hn hf ha => exact push _ rfl
  | contentChunkAppended ho => exact modify ho.at_index ho.2.2 ⟨rfl,rfl⟩ rfl
  | toolExchangeStarted ho => exact modify ho.at_index ho.2.2 ⟨rfl,rfl⟩ rfl
  | @retryStarted retry message hl hr hm =>
    cases message with
    | none => exact same rfl
    | some i =>
      obtain ⟨m,ho⟩ := hm i rfl
      exact modify ho.at_index ho.2.2 ⟨rfl,rfl⟩ rfl
  | messageCompleted ho hv hm =>
    exact modify ho.at_index ho.2.2 ⟨hm.id,hm.historyId⟩ (messages_closeMessage _)
  | messageInterrupted ho hv hm =>
    exact modify ho.at_index ho.2.2 ⟨hm.id,hm.historyId⟩ (messages_closeMessage _)
  | _ => exact same rfl

theorem stamp (h : Extends c c') : Extends c (stamp event c') := by
  refine h.trans (same ?_)
  unfold ConversationManager.stamp
  split <;> rfl

theorem moves (h : Moves event c c') : Extends c c' := by
  cases h with
  | accepted hd hc he => exact (effect he).stamp
  | refused hr =>
    rcases hr with rfl | ht
    · exact refl _
    · cases ht with
      | started hs => exact same rfl
      | narrowed ho hv => exact modify ho.at_index ho.2.2 ⟨rfl,rfl⟩ rfl
      | closed ho hv hm =>
        exact modify ho.at_index ho.2.2 ⟨hm.id,hm.historyId⟩ (messages_closeMessage _)

theorem run {events : List Fields} (h : Trace Calls c events c') : Extends c c' :=
  h.relates refl (fun _ _ _ => trans) fun _ _ _ hs => moves hs.moves

end Extends
section Rewind
variable {event : Fields} {c c' : Conversation}

/-- The message shows in the model context of a branch. -/
def settledMessage (m : Message) : Bool := decide (m.status ≠ .opened ∧ m.visibility ≠ .discarded)

theorem prefixMessages_eq (hs : SoundPaths c) : prefixMessages c =
    c.messages.filter fun n => decide (n.historyId <+: c.head) && settledMessage n := by
  refine List.filter_congr fun n hn => ?_
  rw [settledMessage]
  congr 1
  rw [Bool.eq_iff_iff,decide_eq_true_eq]
  exact onHead_iff (hs.messages n hn) hs.head

theorem activeMessages_eq (hs : SoundPaths c) :
    activeMessages c = c.messages.filter fun n => decide (n.historyId <+: c.head) := by
  refine List.filter_congr fun n hn => ?_
  rw [Bool.eq_iff_iff,decide_eq_true_eq]
  exact onHead_iff (hs.messages n hn) hs.head

/-- The event starts the message. -/
def Starts (event : Fields) (m : Message) : Prop :=
  event.get "kind" = .str "message_started" ∧ event.get "message_id" = .str m.id

theorem Accepts.starts (h : Accepts c event c') {m : Message} (hk : Starts event m) :
    ∃ n, c'.messages = c.messages ++ [n] ∧ n.id = m.id ∧ n.historyId = c.tree.next := by
  obtain ⟨d,c₀,hd,_,he,rfl⟩ := h.effect
  have hdisp := eventChecks_dispatch hd
  rw [hk.1] at hdisp
  cases hdisp
  cases he with
  | @messageStarted s hs =>
    refine ⟨newMessage event s,?_,?_,allocate_next hs.allocated⟩
    · unfold stamp
      split <;> exact messages_startMessage s
    · have hid := (asId_eq_some hs.id).1
      rw [hk.2] at hid
      exact (LuaValue.str.inj hid).symm

theorem Extends.at_index (h : Extends c c') {i : Nat} {m : Message} (hm : c.messages[i]? = some m) :
    ∃ n, c'.messages[i]? = some n ∧ n.id = m.id ∧ n.historyId = m.historyId := by
  have hcol : (c.messages.map fun m => (m.id,m.historyId))[i]? = some (m.id,m.historyId) := by
    rw [List.getElem?_map,hm,Option.map_some]
  have hcol' := getElem?_prefix_mono h.columns hcol
  rw [List.getElem?_map,Option.map_eq_some_iff] at hcol'
  obtain ⟨n,hn,he⟩ := hcol'
  exact ⟨n,hn,congrArg Prod.fst he,congrArg Prod.snd he⟩

end Rewind

def promptStarted : Fields := (LuaValue.record [("event_id",.str "e2"),("conversation_id",.str "c"),
  ("kind",.str "message_started"),("sequence",.num (.int 2)),("message_id",.str "m"),
  ("role",.str "user"),("authored_prompt",.str "prompt")]).fields

def promptCompleted : Fields := (LuaValue.record [("event_id",.str "e3"),
  ("conversation_id",.str "c"),("kind",.str "message_completed"),("sequence",.num (.int 3)),
  ("message_id",.str "m")]).fields

def promptedConversation : Conversation :=
  (createdConversation.next promptStarted).next promptCompleted

theorem promptedConversation_reachable : promptedConversation.Reachable :=
  (creates_createdConversation.reachable.next promptStarted).next promptCompleted

end Nefor.ConversationManager
