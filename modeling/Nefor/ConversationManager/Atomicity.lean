import Nefor.ConversationManager.Linked

/-! When a refused event leaves the conversation alone, and when the refusal is an error
value. Three handlers write before their last check, and three dereference what nothing
has checked; each such branch is described by a condition on the event and the state. -/
namespace Nefor.ConversationManager
open Nefor.Lua Nefor.Action

/-- The delivery id and the authored prompt are well formed for the role. -/
def deliveryFieldsOk (event : Fields) : Bool :=
  let user := Role.ofLua (event.get "role") == some .user
  ((event.get "delivery_id").isNil || (asId (event.get "delivery_id")).isSome && user) &&
    ((event.get "authored_prompt").isNil ||
      (event.get "authored_prompt").typeName == "string" && user)

/-- `message_started` takes the child number before it looks at these fields. -/
def LateStart (event : Fields) (c : Conversation) : Prop :=
  Passes (startChecks event) c ∧ deliveryFieldsOk event = false

/-- The visibility a message has once the event has settled it: it may only narrow. -/
def Settles (m : Message) (event : Fields) (visibility : Visibility) : Prop :=
  (event.get "visibility").isNil ∧ visibility = m.visibility ∨
    Visibility.ofLua (event.get "visibility") = some visibility ∧
      (m.visibility = .transcript ∨ visibility ≠ .transcript)

/-- A call of the message is still collected, or the provider context is malformed. -/
def CompletionRefused (c : Conversation) (m : Message) (event : Fields) : Prop :=
  (∃ id ∈ m.exchangeIds, ∃ x, c.findExchange (.str id) = some x ∧ x.2.status = .callOpen) ∨
    (event.get "provider_context").isNil = false ∧
      isProviderContext (event.get "provider_context") = false

/-- The message that an event names is open. -/
def OpenMessage (event : Fields) (c : Conversation) (i : Nat) (m : Message) : Prop :=
  c.status = .active ∧ c.findMessage (event.get "message_id") = some (i,m) ∧ m.status = .opened

/-- `message_completed` narrows the visibility before it refuses to complete. -/
def LateCompletion (event : Fields) (c : Conversation) : Prop :=
  ∃ i m visibility, OpenMessage event c i m ∧ Settles m event visibility ∧
    visibility ≠ m.visibility ∧ CompletionRefused c m event

/-- A value that Lua refuses to index. -/
def unindexable (v : LuaValue) : Bool := v.typeName != "table" && v.typeName != "string"

/-- The completion is asked for a field that the event lacks. -/
def completionIndexed (event : Fields) : Bool :=
  !(event.get "latest_response_usage").truthy || !(event.get "provider").truthy

/-- `message_completed` has closed the message when it indexes the completion. -/
def UnindexableCompletion (event : Fields) (c : Conversation) : Prop :=
  completionIndexed event ∧ unindexable ((event.get "completion").orElse (.table false [])) ∧
    ∃ i m visibility, OpenMessage event c i m ∧ Settles m event visibility ∧
      ¬CompletionRefused c m event

/-- An exchange of the message has no tool call id to mark as answered. -/
def UnnamedCall (c : Conversation) (m : Message) : Prop :=
  ∃ id ∈ m.exchangeIds, ∃ x, c.findExchange (.str id) = some x ∧ x.2.toolCallId.isNil

/-- The prefix that `context_compaction_requested` cuts off holds an unnamed call. -/
def UnnamedCallInPrefix (event : Fields) (c : Conversation) : Prop :=
  Passes (requestChecks event) c ∧ ∃ cutoff,
    cutoffCount (event.get "history_cutoff") (prefixMessages c).length = some cutoff ∧
    ∃ m ∈ (prefixMessages c).take cutoff, UnnamedCall c m

/-- The inclusions kept by a notice cannot be indexed or assigned as the event needs. -/
def BadInclusions (delivered : Bool) (notice : Fields) (requestId : String) (event : Fields)
    (lastSequence : LuaNum) : Prop :=
  let inclusions := (notice.get "inclusions").orElse (.table false [])
  unindexable inclusions ∨ ∃ inclusion, indexValue inclusions requestId = .ok inclusion ∧
    if delivered then inclusion.truthy ∧ unindexable inclusion
    else inclusion.truthy = false ∧ inclusions.typeName = "string" ∧
      (event.get "context_watermark").rawEq (.num lastSequence)

/-- `inclusions` came with the event that appended the notice and was never checked. -/
def MalformedInclusions (delivered : Bool) (event : Fields) (c : Conversation) : Prop :=
  Passes (evidenceChecks delivered event) c ∧ ∃ id notice requestId,
    asId (event.get "notice_id") = some id ∧ c.noticeById.lookup id = some notice ∧
    asId (event.get "request_id") = some requestId ∧
    BadInclusions delivered notice requestId event c.lastSequence

/-- The handler fails after it has written. -/
def Tears (event : Fields) (c : Conversation) : Dispatch → Prop
  | .messageStarted => LateStart event c
  | .other .messageCompleted => LateCompletion event c ∨ UnindexableCompletion event c
  | _ => False

/-- The handler raises instead of returning an error. -/
def Raises (event : Fields) (c : Conversation) : Dispatch → Prop
  | .other .messageCompleted => UnindexableCompletion event c
  | .other .contextCompactionRequested => UnnamedCallInPrefix event c
  | .other .contextNoticeIncluded => MalformedInclusions false event c
  | .other .contextNoticeDelivered => MalformedInclusions true event c
  | _ => False

section MessageStarted
variable {c : Conversation} (event : Fields)

theorem startLateChecks_cases (id : String) {role : Role}
    (hr : Role.ofLua (event.get "role") = some role) :
    (deliveryFieldsOk event ∧ startLateChecks event id role c = (.ok (),c)) ∨
    (deliveryFieldsOk event = false ∧ ∃ code context,
      startLateChecks event id role c = (.error (.rejected code context),c)) := by
  unfold startLateChecks deliveryFieldsOk
  rw [hr]
  by_cases hd : (event.get "delivery_id").isNil <;>
    by_cases hi : (asId (event.get "delivery_id")).isSome <;>
    by_cases hp : (event.get "authored_prompt").isNil <;>
    by_cases ht : (event.get "authored_prompt").typeName = "string" <;>
    by_cases hu : role = .user <;>
    simp [hd,hi,hp,ht,hu,require,bind_apply]

/-- The new child number is larger than the old one, so taking it is never a no-op. -/
theorem takeChild_ne {p : HistoryPath}
    (hp : HistoryPath.allocate c.head c.historyChildMax = .ok p) : takeChild p c ≠ c := by
  intro he
  have hl : (takeChild p c).historyChildMax.lookup c.head.keyOf =
      c.historyChildMax.lookup c.head.keyOf := by rw [he]
  rw [takeChild,lookup_assign,if_pos rfl,HistoryPath.allocate_lastComponent hp] at hl
  rw [← hl] at hl
  simp at hl

theorem messageStarted_eq {s : Start} (hs : startChecks event c = (.ok s,c)) :
    messageStarted event c = match startLateChecks event s.id s.role (takeChild s.allocated c) with
      | (.ok _,c') => (.ok (event.set "history_id" s.allocated.toLua),startMessage event s c')
      | (.error e,c') => (.error e,c') := by
  rw [messageStarted,bind_ok hs,bind_ok (update_apply _ _),bind_apply]
  rcases startLateChecks event s.id s.role (takeChild s.allocated c) with ⟨e | a,c'⟩ <;> rfl

theorem messageStarted_keeps : Keeps (messageStarted event) c ↔ ¬LateStart event c := by
  have hs := startChecks_spec (c := c) event
  rcases hc : startChecks event c with ⟨e | s,c'⟩
  · obtain ⟨rfl,_⟩ := hs.of_error hc
    have hm : messageStarted event c' = (.error e,c') := bind_error hc
    rw [keeps_error hm]
    simp [LateStart,not_passes_error hc]
  · obtain ⟨rfl,hr,ha⟩ := hs.of_ok hc
    have hp : Passes (startChecks event) c' := passes_ok hc
    have hm := messageStarted_eq event hc
    rcases startLateChecks_cases (c := takeChild s.allocated c') event s.id hr with
      ⟨hok,hl⟩ | ⟨hok,code,context,hl⟩
    · rw [hl] at hm
      simp [LateStart,hok,keeps_ok hm]
    · rw [hl] at hm
      rw [keeps_error hm]
      simp [LateStart,hp,hok,takeChild_ne ha]

theorem messageStarted_failsAs : FailsAs Fault.IsRejection (messageStarted event) c := by
  simp only [messageStarted,FailsAs,ends_bind,ends_update,ends_pure]
  refine (startChecks_spec event).mono ?_ fun _ _ h => h.2
  rintro s c' ⟨rfl,hr,_⟩
  simp [startLateChecks,Fault.IsRejection]

end MessageStarted

section MessageCompleted
variable {c : Conversation} (event : Fields) {i : Nat} {m : Message}

theorem Settles.unique {v w : Visibility} (hv : Settles m event v) (hw : Settles m event w) :
    v = w := by
  rcases hv with ⟨hn,rfl⟩ | ⟨hv,_⟩ <;> rcases hw with ⟨hn',rfl⟩ | ⟨hw,_⟩
  · rfl
  · cases hg : event.get "visibility" <;> simp_all [LuaValue.isNil,Visibility.ofLua]
  · cases hg : event.get "visibility" <;> simp_all [LuaValue.isNil,Visibility.ofLua]
  · exact Option.some.inj (hv.symm.trans hw)

theorem exists_settles {v : Visibility} (hv : Settles m event v) (P : Visibility → Prop) :
    (∃ w, Settles m event w ∧ P w) ↔ P v :=
  ⟨fun ⟨_,hw,h⟩ => hv.unique event hw ▸ h,fun h => ⟨v,hv,h⟩⟩

theorem OpenMessage.unique {j : Nat} {n : Message} (h : OpenMessage event c i m)
    (h' : OpenMessage event c j n) : i = j ∧ m = n := by
  have he := h.2.1.symm.trans h'.2.1
  simpa using he

theorem modifyMessage_self {f : Message → Message} (hm : c.messages[i]? = some m)
    (hf : f m = m) : c.modifyMessage i f = c := by
  unfold Conversation.modifyMessage
  congr
  apply List.ext_getElem?
  intro j
  rw [List.getElem?_modify]
  by_cases hj : i = j
  · subst hj; simp [hm,hf]
  · simp [hj]

theorem modifyMessage_ne {f : Message → Message} (hm : c.messages[i]? = some m)
    (hf : f m ≠ m) : c.modifyMessage i f ≠ c := by
  intro he
  have hl : (c.modifyMessage i f).messages[i]? = some m := by rw [he,hm]
  simp [Conversation.modifyMessage,hm] at hl
  exact hf hl

/-- What `settle_visibility` does to the message table. -/
def settled (i : Nat) (visibility : Visibility) (c : Conversation) : Conversation :=
  c.modifyMessage i fun m => { m with visibility := visibility }

theorem settleVisibility_cases (hm : c.messages[i]? = some m) :
    (∃ v, Settles m event v ∧ settleVisibility i m event c = (.ok (),settled i v c)) ∨
    ((∀ v, ¬Settles m event v) ∧ ∃ code context,
      settleVisibility i m event c = (.error (.rejected code context),c)) := by
  unfold settleVisibility Settles
  cases hn : (event.get "visibility").isNil with
  | true =>
    refine .inl ⟨m.visibility,by simp,?_⟩
    simp [settled,modifyMessage_self hm]
  | false =>
    cases hv : Visibility.ofLua (event.get "visibility") with
    | none => right; simp [bind_apply]
    | some v =>
      by_cases hs : m.visibility = .transcript ∨ v ≠ .transcript
      · refine .inl ⟨v,by simp [hs],?_⟩
        simp only [Bool.false_eq_true,if_false,bind_apply,need_some,decide_eq_true hs,
          require_true,update_apply,settled]
      · right
        simp only [Bool.false_eq_true,if_false,bind_apply,need_some,decide_eq_false hs,
          require_false]
        refine ⟨?_,_,_,rfl⟩
        rintro w (⟨hf,_⟩ | ⟨hw,hw'⟩)
        · exact hf
        · cases hw; exact hs hw'

theorem findOpenCall_cases {ids : List String}
    (h : ∀ id ∈ ids, c.findExchange (.str id) ≠ none) :
    (∃ x, findOpenCall c ids = .ok (some x) ∧ ∃ id ∈ ids, ∃ y,
      c.findExchange (.str id) = some y ∧ y.2.status = .callOpen) ∨
    (findOpenCall c ids = .ok none ∧ ∀ id ∈ ids, ∀ y,
      c.findExchange (.str id) = some y → y.2.status ≠ .callOpen) := by
  induction ids with
  | nil => right; simp [findOpenCall]
  | cons id rest ih =>
    obtain ⟨x,hx⟩ := Option.ne_none_iff_exists'.mp (h id List.mem_cons_self)
    simp only [findOpenCall,hx]
    by_cases ho : x.2.status = .callOpen
    · left
      exact ⟨x.2,by simp [ho],id,List.mem_cons_self,x,hx,ho⟩
    · rw [if_neg ho]
      rcases ih fun id hid => h id (List.mem_cons_of_mem _ hid) with
        ⟨y,hy,id',hid,z,hz,ho'⟩ | ⟨hn,hall⟩
      · exact .inl ⟨y,hy,id',List.mem_cons_of_mem _ hid,z,hz,ho'⟩
      · refine .inr ⟨hn,?_⟩
        intro id' hid y hy
        rcases List.mem_cons.mp hid with rfl | hid
        · rw [hx] at hy; cases hy; exact ho
        · exact hall id' hid y hy

theorem completionChecks_cases (h : ∀ id ∈ m.exchangeIds, c.findExchange (.str id) ≠ none) :
    (¬CompletionRefused c m event ∧ completionChecks m event c = (.ok (),c)) ∨
    (CompletionRefused c m event ∧ ∃ code context,
      completionChecks m event c = (.error (.rejected code context),c)) := by
  unfold completionChecks CompletionRefused
  rcases findOpenCall_cases h with ⟨x,hx,hex⟩ | ⟨hx,hall⟩
  · right
    exact ⟨.inl hex,by simp [bind_apply,hx]⟩
  · have hno : ¬∃ id ∈ m.exchangeIds, ∃ x, c.findExchange (.str id) = some x ∧
        x.2.status = .callOpen := by
      rintro ⟨id,hid,x,hf,ho⟩
      exact hall id hid x hf ho
    cases hn : (event.get "provider_context").isNil <;>
      cases hp : isProviderContext (event.get "provider_context") <;>
      simp only [hx,hn,hp,hno,bind_apply,read_apply] <;> simp

theorem indexValue_cases (v : LuaValue) (name : String) :
    (unindexable v = false ∧ ∃ w, indexValue v name = .ok w) ∨
    (unindexable v ∧ ∃ message, indexValue v name = .error (.raised message)) := by
  cases v <;> simp [unindexable,LuaValue.typeName,indexValue]

theorem completionTerminal_cases (completion : LuaValue) :
    ((completionIndexed event = false ∨ unindexable completion = false) ∧
      ∃ terminal, completionTerminal event completion = .ok terminal) ∨
    (completionIndexed event ∧ unindexable completion ∧
      ∃ message, completionTerminal event completion = .error (.raised message)) := by
  unfold completionTerminal completionIndexed
  rcases indexValue_cases completion "latest_response_usage" with ⟨hi,w,hw⟩ | ⟨hi,msg,hw⟩ <;>
    rcases indexValue_cases completion "provider" with ⟨hi',w',hw'⟩ | ⟨hi',msg',hw'⟩ <;>
    cases (event.get "latest_response_usage").truthy <;> cases (event.get "provider").truthy <;>
    simp_all [bind,Except.bind]

theorem messageCompleted_closed (h : ∀ i m, ¬OpenMessage event c i m) :
    ∃ code context, messageCompleted event c = (.error (.rejected code context),c) := by
  unfold messageCompleted requireLive requireOpenMessage
  simp only [OpenMessage] at h
  by_cases hl : c.status = .active
  · cases hf : c.findMessage (event.get "message_id") with
    | none => simp [bind_apply,hl,hf]
    | some r =>
      have ho : r.2.status ≠ .opened := fun ho => h r.1 r.2 ⟨hl,hf,ho⟩
      simp [bind_apply,hl,hf,ho]
  · simp [bind_apply,hl]

/-- The close that `message_completed` writes before it builds the terminal record. -/
def completed (event : Fields) (i : Nat) (m : Message) (c : Conversation) : Conversation :=
  closeMessage m (c.modifyMessage i fun m => { m with
    status := .completed
    completedSequence := event.get "sequence"
    completion := (event.get "completion").orElse (.table false [])
    providerContext := if (event.get "provider_context").isNil then m.providerContext
      else event.get "provider_context" })

theorem messageCompleted_eq (h : OpenMessage event c i m) :
    messageCompleted event c = match settleVisibility i m event c with
      | (.error e,c') => (.error e,c')
      | (.ok _,c') => match completionChecks m event c' with
        | (.error e,c') => (.error e,c')
        | (.ok _,c') =>
          match completionTerminal event ((event.get "completion").orElse (.table false [])) with
          | .error e => (.error e,completed event i m c')
          | .ok terminal => (.ok (),(completed event i m c').modifyMessage i
              fun m => { m with terminal := terminal }) := by
  obtain ⟨hl,hf,ho⟩ := h
  unfold messageCompleted requireLive requireOpenMessage
  simp only [bind_apply,read_apply,hl,hf,ho,decide_true,require_true,need_some,pure_apply]
  rcases settleVisibility i m event c with ⟨e | a,c₁⟩
  · rfl
  · dsimp only
    rcases completionChecks m event c₁ with ⟨e | a,c₂⟩
    · rfl
    · cases completionTerminal event ((event.get "completion").orElse (.table false [])) <;> rfl

theorem completed_ne (hm : c.messages[i]? = some m) (ho : m.status = .opened) (v : Visibility) :
    completed event i m (settled i v c) ≠ c := by
  intro he
  have hc : ∀ c', (closeMessage m c').messages = c'.messages := by
    intro c'
    unfold closeMessage
    simp only
    split
    · split <;> rfl
    · rfl
  have hs : ((completed event i m (settled i v c)).messages[i]?).map (·.status) =
      some .completed := by
    rw [completed,hc]
    simp [settled,Conversation.modifyMessage,hm]
  rw [he,hm] at hs
  simp [ho] at hs

theorem settled_ne (hm : c.messages[i]? = some m) {v : Visibility} :
    settled i v c = c ↔ v = m.visibility := by
  constructor
  · intro he
    by_contra hv
    refine modifyMessage_ne hm ?_ he
    intro h
    exact hv (congrArg Message.visibility h)
  · rintro rfl
    exact modifyMessage_self hm rfl

theorem completionRefused_settled (v : Visibility) :
    CompletionRefused (settled i v c) m event ↔ CompletionRefused c m event := Iff.rfl

/-- What `message_completed` does to a message that is open. -/
theorem messageCompleted_cases (h : Linked c) (ho : OpenMessage event c i m) :
    (Keeps (messageCompleted event) c ↔
      ¬(LateCompletion event c ∨ UnindexableCompletion event c)) ∧
    (FailsAs Fault.IsRejection (messageCompleted event) c ↔ ¬UnindexableCompletion event c) := by
  have hm : c.messages[i]? = some m := by
    obtain ⟨id,_,_,hm⟩ := Conversation.findMessage_eq_some ho.2.1
    exact hm
  have hlate : LateCompletion event c ↔ ∃ v, Settles m event v ∧ v ≠ m.visibility ∧
      CompletionRefused c m event := by
    constructor
    · rintro ⟨j,n,v,hn,hv⟩
      obtain ⟨rfl,rfl⟩ := ho.unique event hn
      exact ⟨v,hv⟩
    · rintro ⟨v,hv⟩
      exact ⟨i,m,v,ho,hv⟩
  have hraise : UnindexableCompletion event c ↔ (completionIndexed event ∧
      unindexable ((event.get "completion").orElse (.table false []))) ∧
      ∃ v, Settles m event v ∧ ¬CompletionRefused c m event := by
    constructor
    · rintro ⟨hi,hu,j,n,v,hn,hv⟩
      obtain ⟨rfl,rfl⟩ := ho.unique event hn
      exact ⟨⟨hi,hu⟩,v,hv⟩
    · rintro ⟨⟨hi,hu⟩,v,hv⟩
      exact ⟨hi,hu,i,m,v,ho,hv⟩
  have he := messageCompleted_eq event ho
  rcases settleVisibility_cases event hm with ⟨v,hv,hs⟩ | ⟨hv,code,context,hs⟩
  · rw [exists_settles event hv] at hlate hraise
    have hids : ∀ id ∈ m.exchangeIds, (settled i v c).findExchange (.str id) ≠ none :=
      fun id hid => h.findExchange_isSome (List.mem_of_getElem? hm) hid
    rcases completionChecks_cases event hids with ⟨hr,hc⟩ | ⟨hr,code,context,hc⟩ <;>
      rw [completionRefused_settled] at hr <;> simp only [hs,hc] at he
    · rcases completionTerminal_cases event ((event.get "completion").orElse (.table false []))
        with ⟨hn,t,ht⟩ | ⟨hi,hu,msg,ht⟩ <;> simp only [ht] at he
      · have hno : ¬(completionIndexed event ∧
            unindexable ((event.get "completion").orElse (.table false []))) := by
          rintro ⟨hi,hu⟩
          rcases hn with hn | hn <;> simp_all
        simp [keeps_ok he,failsAs_ok he,hlate,hraise,hno,hr]
      · rw [keeps_error he,failsAs_error he]
        simp [hlate,hraise,hi,hu,hr,completed_ne event hm ho.2.2 v,Fault.IsRejection]
    · rw [keeps_error he,failsAs_error he,settled_ne hm]
      simp [hlate,hraise,hr,Fault.IsRejection]
  · simp only [hs] at he
    rw [keeps_error he,failsAs_error he]
    simp [hlate,hraise,hv,Fault.IsRejection]

theorem messageCompleted_spec (h : Linked c) :
    (Keeps (messageCompleted event) c ↔
      ¬(LateCompletion event c ∨ UnindexableCompletion event c)) ∧
    (FailsAs Fault.IsRejection (messageCompleted event) c ↔ ¬UnindexableCompletion event c) := by
  by_cases ho : ∃ i m, OpenMessage event c i m
  · obtain ⟨i,m,ho⟩ := ho
    exact messageCompleted_cases event h ho
  · have hn : ∀ i m, ¬OpenMessage event c i m := fun i m hm => ho ⟨i,m,hm⟩
    obtain ⟨code,context,he⟩ := messageCompleted_closed event hn
    rw [keeps_error he,failsAs_error he]
    simp [LateCompletion,UnindexableCompletion,hn,Fault.IsRejection]

end MessageCompleted

section ContextCompaction
variable {c : Conversation} (event : Fields)

theorem markExchanges_cases {ids : List String}
    (h : ∀ id ∈ ids, c.findExchange (.str id) ≠ none) (calls : List LuaValue) :
    ((∃ calls', markExchanges c ids calls = .ok calls') ∧
      ¬∃ id ∈ ids, ∃ x, c.findExchange (.str id) = some x ∧ x.2.toolCallId.isNil) ∨
    ((∃ message, markExchanges c ids calls = .error (.raised message)) ∧
      ∃ id ∈ ids, ∃ x, c.findExchange (.str id) = some x ∧ x.2.toolCallId.isNil) := by
  induction ids generalizing calls with
  | nil => left; simp [markExchanges]
  | cons id rest ih =>
    obtain ⟨x,hx⟩ := Option.ne_none_iff_exists'.mp (h id List.mem_cons_self)
    have ih := ih (fun id hid => h id (List.mem_cons_of_mem _ hid)) (calls ++ [x.2.toolCallId])
    simp only [markExchanges,hx,markCall]
    cases hn : x.2.toolCallId.isNil with
    | true =>
      right
      exact ⟨⟨_,rfl⟩,id,List.mem_cons_self,x,hx,hn⟩
    | false =>
      rcases ih with ⟨⟨calls',hc⟩,hno⟩ | ⟨⟨msg,hc⟩,id',hid,hex⟩
      · refine .inl ⟨⟨calls',by simpa [bind,Except.bind] using hc⟩,?_⟩
        rintro ⟨id',hid,y,hy,hyn⟩
        rcases List.mem_cons.mp hid with rfl | hid
        · rw [hx] at hy; cases hy; simp [hn] at hyn
        · exact hno ⟨id',hid,y,hy,hyn⟩
      · exact .inr ⟨⟨msg,by simpa [bind,Except.bind] using hc⟩,id',
          List.mem_cons_of_mem _ hid,hex⟩

/-- `open_calls` raises exactly on an unnamed call. -/
theorem openCalls_cases (h : Linked c) {ms : List Message} (hms : ∀ m ∈ ms, m ∈ c.messages)
    (calls : List LuaValue) :
    ((∃ calls', openCalls c ms calls = .ok calls') ∧ ¬∃ m ∈ ms, UnnamedCall c m) ∨
    ((∃ message, openCalls c ms calls = .error (.raised message)) ∧
      ∃ m ∈ ms, UnnamedCall c m) := by
  induction ms generalizing calls with
  | nil => left; simp [openCalls]
  | cons m rest ih =>
    have hids : ∀ id ∈ m.exchangeIds, c.findExchange (.str id) ≠ none :=
      fun id hid => h.findExchange_isSome (hms m List.mem_cons_self) hid
    have ih := ih fun m hm => hms m (List.mem_cons_of_mem _ hm)
    rcases markExchanges_cases hids calls with ⟨⟨calls',hc⟩,hno⟩ | ⟨⟨msg,hc⟩,hex⟩
    · simp only [openCalls,hc,bind,Except.bind]
      rcases ih (if m.role = .tool then calls'.filter fun id => !id.rawEq m.toolCallId
        else calls') with ⟨hok,hall⟩ | ⟨herr,n,hn,hex⟩
      · refine .inl ⟨hok,?_⟩
        rintro ⟨n,hn,hu⟩
        rcases List.mem_cons.mp hn with rfl | hn
        · exact hno hu
        · exact hall ⟨n,hn,hu⟩
      · exact .inr ⟨herr,n,List.mem_cons_of_mem _ hn,hex⟩
    · right
      refine ⟨⟨msg,?_⟩,m,List.mem_cons_self,hex⟩
      simp [openCalls,hc,bind,Except.bind]

theorem contextCompactionRequested_spec (h : Linked c) :
    Keeps (contextCompactionRequested event) c ∧
    (FailsAs Fault.IsRejection (contextCompactionRequested event) c ↔
      ¬UnnamedCallInPrefix event c) := by
  rcases (requestChecks_inspects (c := c) event).cases with ⟨a,hr⟩ | ⟨e,he,hr⟩
  · have hp : Passes (requestChecks event) c := passes_ok hr
    cases hk : cutoffCount (event.get "history_cutoff") (prefixMessages c).length with
    | none =>
      have hm : contextCompactionRequested event c =
          (.error (.rejected "invalid_history_cutoff" []),c) := by
        rw [contextCompactionRequested,bind_ok hr]
        simp [bind_apply,hk]
      rw [keeps_error hm,failsAs_error hm]
      simp [UnnamedCallInPrefix,hk,Fault.IsRejection]
    | some cutoff =>
      have hms : ∀ m ∈ (prefixMessages c).take cutoff, m ∈ c.messages := fun m hm =>
        (List.mem_filter.mp (List.mem_of_mem_take hm)).1
      have hu : UnnamedCallInPrefix event c ↔
          ∃ m ∈ (prefixMessages c).take cutoff, UnnamedCall c m := by
        simp [UnnamedCallInPrefix,hp,hk]
      rw [hu]
      rcases openCalls_cases h hms [] with ⟨⟨calls,hc⟩,hno⟩ | ⟨⟨msg,hc⟩,hex⟩
      · cases he : calls.isEmpty with
        | true =>
          obtain ⟨c',hm⟩ : ∃ c', contextCompactionRequested event c = (.ok (),c') := by
            rw [contextCompactionRequested,bind_ok hr]
            simp [bind_apply,hk,hc,he]
          simp [keeps_ok hm,failsAs_ok hm,hno]
        | false =>
          have hm : contextCompactionRequested event c =
              (.error (.rejected "unsafe_history_cutoff" []),c) := by
            rw [contextCompactionRequested,bind_ok hr]
            simp [bind_apply,hk,hc,he]
          rw [keeps_error hm,failsAs_error hm]
          simp [hno,Fault.IsRejection]
      · have hm : contextCompactionRequested event c = (.error (.raised msg),c) := by
          rw [contextCompactionRequested,bind_ok hr]
          simp [bind_apply,hk,hc]
        rw [keeps_error hm,failsAs_error hm]
        simp [hex,Fault.IsRejection]
  · have hm : contextCompactionRequested event c = (.error e,c) := bind_error hr
    rw [keeps_error hm,failsAs_error hm]
    simp [UnnamedCallInPrefix,not_passes_error hr,he]

end ContextCompaction

section NoticeEvidence
variable {c : Conversation} (event : Fields)

theorem deliverNotice_cases (notice : Fields) (inclusion : LuaValue) :
    (¬(inclusion.truthy ∧ unindexable inclusion) ∧
      ((∃ notice', deliverNotice notice inclusion event = .ok notice') ∨
        ∃ code context, deliverNotice notice inclusion event = .error (.rejected code context))) ∨
    ((inclusion.truthy ∧ unindexable inclusion) ∧
      ∃ message, deliverNotice notice inclusion event = .error (.raised message)) := by
  unfold deliverNotice
  cases ht : inclusion.truthy with
  | false => left; simp [bind,Except.bind]
  | true =>
    rcases indexValue_cases inclusion "context_watermark" with ⟨hu,w,hw⟩ | ⟨hu,msg,hw⟩
    · obtain ⟨p,hp⟩ : ∃ p, indexValue inclusion "history_id" = .ok p := by
        rcases indexValue_cases inclusion "history_id" with ⟨_,h⟩ | ⟨hu',_⟩
        · exact h
        · rw [hu] at hu'; cases hu'
      left
      refine ⟨by simp [hu],?_⟩
      cases hr : w.rawEq (event.get "context_watermark") <;>
        cases he : p.equal (event.get "history_id") <;>
        cases (notice.get "delivered").truthy <;>
        simp [bind,Except.bind,hw,hp,hr,he]
    · right
      simp [bind,Except.bind,hu,hw]

theorem includeNotice_cases (notice : Fields) (inclusion : LuaValue) (requestId : String)
    (lastSequence : LuaNum)
    (hu : unindexable ((notice.get "inclusions").orElse (.table false [])) = false) :
    let raises := inclusion.truthy = false ∧
      ((notice.get "inclusions").orElse (.table false [])).typeName = "string" ∧
      (event.get "context_watermark").rawEq (.num lastSequence)
    (¬raises ∧
      ((∃ notice', includeNotice notice inclusion requestId event lastSequence = .ok notice') ∨
        ∃ code context, includeNotice notice inclusion requestId event lastSequence =
          .error (.rejected code context))) ∨
    (raises ∧ ∃ message, includeNotice notice inclusion requestId event lastSequence =
      .error (.raised message)) := by
  unfold includeNotice
  cases ht : inclusion.truthy <;>
    cases hr : (event.get "context_watermark").rawEq (.num lastSequence) <;>
    cases hv : (notice.get "inclusions").orElse (.table false []) <;>
    simp_all [unindexable,LuaValue.typeName,bind,Except.bind]

theorem evidenceChecks_spec (delivered : Bool) : Ends (evidenceChecks delivered event)
    (fun r c' => c' = c ∧ asId (event.get "notice_id") = some r.1 ∧
      c.noticeById.lookup r.1 = some r.2.1 ∧ asId (event.get "request_id") = some r.2.2)
    (fun e c' => c' = c ∧ e.IsRejection) c := by
  simp [evidenceChecks,Fault.IsRejection]
  grind

theorem updateNotice_cases (delivered : Bool) (notice : Fields) (requestId : String)
    (lastSequence : LuaNum) :
    (¬BadInclusions delivered notice requestId event lastSequence ∧
      ((∃ notice', updateNotice delivered notice requestId event lastSequence = .ok notice') ∨
        ∃ code context, updateNotice delivered notice requestId event lastSequence =
          .error (.rejected code context))) ∨
    (BadInclusions delivered notice requestId event lastSequence ∧
      ∃ message, updateNotice delivered notice requestId event lastSequence =
        .error (.raised message)) := by
  unfold updateNotice BadInclusions findInclusion
  rcases indexValue_cases ((notice.get "inclusions").orElse (.table false [])) requestId with
    ⟨hu,inclusion,hi⟩ | ⟨hu,msg,hi⟩
  · cases delivered with
    | true => simpa [hu,hi,bind,Except.bind] using deliverNotice_cases event notice inclusion
    | false =>
      simpa [hu,hi,bind,Except.bind] using
        includeNotice_cases event notice inclusion requestId lastSequence hu
  · right
    simp [hu,hi,bind,Except.bind]

theorem noticeEvidence_spec (delivered : Bool) :
    Keeps (noticeEvidence delivered event) c ∧
    (FailsAs Fault.IsRejection (noticeEvidence delivered event) c ↔
      ¬MalformedInclusions delivered event c) := by
  have hs := evidenceChecks_spec (c := c) event delivered
  rcases hr : evidenceChecks delivered event c with ⟨e | ⟨id,notice,requestId⟩,c'⟩
  · obtain ⟨rfl,he⟩ := hs.of_error hr
    have hm : noticeEvidence delivered event c' = (.error e,c') := bind_error hr
    rw [keeps_error hm,failsAs_error hm]
    simp [MalformedInclusions,not_passes_error hr,he]
  · obtain ⟨rfl,hid,hn,hreq⟩ := hs.of_ok hr
    have hmal : MalformedInclusions delivered event c' ↔
        BadInclusions delivered notice requestId event c'.lastSequence := by
      simp [MalformedInclusions,passes_ok hr,hid,hn,hreq]
    have he : ∀ e, updateNotice delivered notice requestId event c'.lastSequence = .error e →
        noticeEvidence delivered event c' = (.error e,c') := by
      intro e hu
      rw [noticeEvidence,bind_ok hr]
      simp [bind_apply,hu]
    rw [hmal]
    rcases updateNotice_cases event delivered notice requestId c'.lastSequence with
      ⟨hb,⟨notice',hu⟩ | ⟨code,context,hu⟩⟩ | ⟨hb,msg,hu⟩
    · obtain ⟨c₁,hm⟩ : ∃ c₁, noticeEvidence delivered event c' = (.ok (),c₁) := by
        rw [noticeEvidence,bind_ok hr]
        simp [bind_apply,hu]
      simp [keeps_ok hm,failsAs_ok hm,hb]
    · rw [keeps_error (he _ hu),failsAs_error (he _ hu)]
      simp [hb,Fault.IsRejection]
    · rw [keeps_error (he _ hu),failsAs_error (he _ hu)]
      simp [hb,Fault.IsRejection]

end NoticeEvidence

section Handlers
variable {c : Conversation} (event : Fields)
attribute [local simp] Inspects requireLive requireId requireOpenMessage requireOpenCall
  requirePendingOp Fault.IsRejection

/-- A handler fails cleanly: nothing is written and the error is a value. -/
def Clean (m : Handler) (c : Conversation) : Prop :=
  Ends m (fun _ _ => True) (fun e c' => c' = c ∧ e.IsRejection) c

theorem Clean.spec {m : Handler} (h : Clean m c) : Keeps m c ∧ FailsAs Fault.IsRejection m c :=
  ⟨h.mono (fun _ _ _ => trivial) fun _ _ h => h.1,
    h.mono (fun _ _ _ => trivial) fun _ _ h => h.2⟩

attribute [local simp] Clean

theorem finishExchange_clean (settle : Exchange → Exchange) :
    Clean (finishExchange settle event) c := by
  simp [finishExchange]

theorem finishTurn_clean (status : TurnStatus) : Clean (finishTurn status event) c := by
  simp [finishTurn]

theorem terminate_clean (status : ConversationStatus) : Clean (terminate status event) c := by
  simp [terminate]

theorem rewindCommitted_clean : Clean (rewindCommitted event) c := by
  simp only [rewindCommitted,Clean,ends_bind,requireLive]
  simp
  intros
  refine (requireNoPending_inspects _).mono ?_ fun _ _ h => h
  rintro _ _ rfl
  simp

theorem contextNoticeAppended_clean : Clean (contextNoticeAppended event) c := by
  simp only [contextNoticeAppended,Clean,ends_bind,requireLive]
  simp
  intros
  refine (requireIds_inspects event _).mono ?_ fun _ _ h => h
  rintro _ _ rfl
  simp
  intros
  split
  · simp
  · simp
    intros
    split <;> simp

theorem messageInterrupted_clean : Clean (messageInterrupted event) c := by
  simp [messageInterrupted,settleVisibility]

theorem toolCallFragmentAppended_clean (h : Linked c) :
    Clean (toolCallFragmentAppended event) c := by
  simp [toolCallFragmentAppended]
  intro _ i x hx _ hm
  exact absurd hm (h.findMessage_isSome (List.mem_of_getElem? (Conversation.findExchange_eq_some hx)))

/-- Every handler outside the six branches above fails cleanly. -/
theorem handler_spec (h : Linked c) (kind : Kind) :
    (Keeps (kind.handler event) c ↔ ¬Tears event c (.other kind)) ∧
    (FailsAs Fault.IsRejection (kind.handler event) c ↔ ¬Raises event c (.other kind)) := by
  have hclean : ∀ {m : Handler}, Clean m c → (Keeps m c ↔ ¬False) ∧
      (FailsAs Fault.IsRejection m c ↔ ¬False) := fun hm => by simp [hm.spec]
  cases kind with
  | messageCompleted => exact messageCompleted_spec event h
  | contextCompactionRequested =>
    exact ⟨by simp [Tears,Kind.handler,(contextCompactionRequested_spec event h).1],
      (contextCompactionRequested_spec event h).2⟩
  | contextNoticeIncluded =>
    exact ⟨by simp [Tears,Kind.handler,contextNoticeIncluded,(noticeEvidence_spec event false).1],
      (noticeEvidence_spec event false).2⟩
  | contextNoticeDelivered =>
    exact ⟨by simp [Tears,Kind.handler,contextNoticeDelivered,(noticeEvidence_spec event true).1],
      (noticeEvidence_spec event true).2⟩
  | toolCallFragmentAppended => exact hclean (toolCallFragmentAppended_clean event h)
  | messageInterrupted => exact hclean (messageInterrupted_clean event)
  | rewindCommitted => exact hclean (rewindCommitted_clean event)
  | contextNoticeAppended => exact hclean (contextNoticeAppended_clean event)
  | toolResultRecorded => exact hclean (finishExchange_clean event _)
  | toolErrorRecorded => exact hclean (finishExchange_clean event _)
  | turnCompleted => exact hclean (finishTurn_clean event .completed)
  | turnFailed => exact hclean (finishTurn_clean event .failed)
  | turnInterrupted => exact hclean (finishTurn_clean event .interrupted)
  | conversationCompleted => exact hclean (terminate_clean event .completed)
  | conversationInterrupted => exact hclean (terminate_clean event .interrupted)
  | conversationFailed => exact hclean (terminate_clean event .failed)
  | responseUsageRecorded => exact hclean (by simp [Kind.handler,responseUsageRecorded])
  | provenanceUpdated => exact hclean (by simp [Kind.handler,provenanceUpdated])
  | contentChunkAppended => exact hclean (by simp [Kind.handler,contentChunkAppended])
  | toolExchangeStarted => exact hclean (by simp [Kind.handler,toolExchangeStarted])
  | toolCallCompleted => exact hclean (by simp [Kind.handler,toolCallCompleted])
  | retryStarted => exact hclean (by simp [Kind.handler,retryStarted])
  | turnStarted => exact hclean (by simp [Kind.handler,turnStarted])
  | contextCompactionCompleted => exact hclean (by simp [Kind.handler,contextCompactionCompleted])
  | contextCompactionFailed => exact hclean (by simp [Kind.handler,contextCompactionFailed])
  | activeSelected => exact hclean (by simp [Kind.handler,activeSelected])

end Handlers

section Fold
variable {c : Conversation} (event : Fields)

theorem continuationChecks_rejects {e : Fault} (he : continuationChecks c event = .error e) :
    e.IsRejection := by
  simp only [continuationChecks,bind,Except.bind,pure,Except.pure] at he
  repeat' split at he
  all_goals first | (cases he; trivial) | simp_all

theorem eventChecks_rejects {e : Fault} (he : eventChecks event = .error e) :
    e.IsRejection := by
  simp only [eventChecks,bind,Except.bind] at he
  repeat' split at he
  all_goals first | (cases he; trivial) | simp_all

theorem created_rejects {conversation : Option Conversation} {e : Fault}
    (he : created conversation event = .error e) : e.IsRejection := by
  simp only [created] at he
  repeat' split at he
  all_goals first | (cases he; trivial) | simp_all

theorem foldInto_spec (h : Linked c) (d : Dispatch) :
    (Keeps (foldInto event d) c ↔
      ¬(continuationChecks c event = .ok () ∧ Tears event c d)) ∧
    (FailsAs Fault.IsRejection (foldInto event d) c ↔
      ¬(continuationChecks c event = .ok () ∧ Raises event c d)) := by
  cases hc : continuationChecks c event with
  | error e =>
    have hm : foldInto event d c = (.error e,c) := by simp [foldInto,bind_apply,hc]
    rw [keeps_error hm,failsAs_error hm]
    simp [continuationChecks_rejects event hc]
  | ok a =>
    cases d with
    | created =>
      simp [foldInto,hc,Keeps,FailsAs,Tears,Raises,Fault.IsRejection]
    | messageStarted =>
      have hk := messageStarted_keeps (c := c) event
      have hf := messageStarted_failsAs (c := c) event
      simp [foldInto,hc,Keeps,FailsAs,Tears,Raises] at hk hf ⊢
      exact ⟨hk,hf⟩
    | other kind =>
      have hs := handler_spec event h kind
      simp [foldInto,hc,Keeps,FailsAs] at hs ⊢
      exact hs

end Fold
end Nefor.ConversationManager
