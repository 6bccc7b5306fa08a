import Nefor.ConversationManager.Atomicity

/-! Rejected calls on a store that calls have built. A call either never reaches the fold,
and then it only looks at the store, or it hands one event to the fold. -/
namespace Nefor.ConversationManager
open Nefor.Lua Nefor.Action

/-- A call on the store: a new fact, or an event recorded earlier. -/
inductive Call
  | append (fact : LuaValue)
  | applyRecorded (event : LuaValue)
  deriving Repr

section Calls
variable (tostring : LuaValue → String)

def Call.run : Call → Action Store Fault Accepted
  | .append fact => ConversationManager.appendTo tostring fact
  | .applyRecorded event => ConversationManager.applyRecordedTo tostring event

/-- The stores that calls can build, whether the calls are accepted or not. -/
inductive Reachable : Store → Prop
  | empty : Reachable {}
  | step {s : Store} (h : Reachable s) (call : Call) : Reachable (call.run tostring s).2

end Calls

/-- The table a call was given. -/
def Call.given : Call → LuaValue
  | .append fact => fact
  | .applyRecorded event => event

/-- A call continues the conversation: a fact must leave the sequence to the store, and a
recorded event must carry the next one. -/
def Call.continues (call : Call) (c : Option Conversation) : Bool :=
  match call with
  | .append fact => (fact.get "sequence").isNil
  | .applyRecorded event => (event.get "sequence").rawEq (.num (nextSequence c))

/-- The event as it reaches the fold. -/
def Call.event (call : Call) (c : Option Conversation) : Fields :=
  match call with
  | .append fact => fact.fields.set "sequence" (.num (nextSequence c))
  | .applyRecorded event => event.fields

/-- The call hands its event to the fold of the conversation `id`. -/
structure Call.Folds (call : Call) (s : Store) (id : String) : Prop where
  isTable : call.given.isTable
  eventId : ∃ eventId, asId (call.given.get "event_id") = some eventId ∧
    s.eventIndex.lookup eventId = none
  conversationId : asId (call.given.get "conversation_id") = some id
  continues : call.continues (s.conversations.lookup id)

/-- The call reaches a defective branch `D` of the handler of its event. -/
def Call.Reaches (call : Call) (s : Store) (D : Fields → Conversation → Dispatch → Prop) : Prop :=
  ∃ id c d, call.Folds s id ∧ s.conversations.lookup id = some c ∧
    eventChecks (call.event (some c)) = .ok d ∧
    continuationChecks c (call.event (some c)) = .ok () ∧ D (call.event (some c)) c d

/-- The handler fails after it has written to the conversation. -/
def Call.Tears (call : Call) (s : Store) : Prop := call.Reaches s ConversationManager.Tears

/-- The handler raises. -/
def Call.Raises (call : Call) (s : Store) : Prop := call.Reaches s ConversationManager.Raises

section Runs
variable (tostring : LuaValue → String) {call : Call} {s : Store}

/-- The index entry of an accepted call, from the event as the fold leaves it. -/
def Call.entry (call : Call) (c : Option Conversation) (id : String) (event : Fields) :
    IndexEntry :=
  match call with
  | .append fact => {
      conversationId := id
      sequence := .num (nextSequence c)
      factFingerprint := fingerprint tostring fact
      eventFingerprint := fingerprint tostring (.table false event) }
  | .applyRecorded _ => {
      conversationId := id
      sequence := event.get "sequence"
      factFingerprint := fingerprint tostring (.table false (factOf event))
      eventFingerprint := fingerprint tostring (.table false event) }

theorem requireIdentity_inspects (event : LuaValue) :
    Inspects Fault.IsRejection (requireIdentity event) s := by
  simp [requireIdentity,Inspects,Fault.IsRejection]

theorem requireIdentity_eq {event : LuaValue} (ht : event.isTable) {eventId id : String}
    (he : asId (event.get "event_id") = some eventId)
    (hc : asId (event.get "conversation_id") = some id) :
    requireIdentity event s = (.ok (eventId,id),s) := by
  simp [requireIdentity,bind_apply,ht,he,hc]

theorem requireIdentity_ok {event : LuaValue} : Ends (requireIdentity event)
    (fun r s' => s' = s ∧ event.isTable ∧ asId (event.get "event_id") = some r.1 ∧
      asId (event.get "conversation_id") = some r.2) (fun _ _ => True) s := by
  simp [requireIdentity]
  grind

/-- A call that reaches the fold indexes the event exactly when the fold accepts it. -/
theorem Call.run_folds {id eventId : String} (hf : call.Folds s id)
    (he : asId (call.given.get "event_id") = some eventId) :
    call.run tostring s = match foldStore id (call.event (s.conversations.lookup id)) s with
      | (.error e,s') => (.error e,s')
      | (.ok event,s') => (.ok ⟨s'.conversations.lookup id,false,event⟩,
          indexEvent eventId (call.entry tostring (s.conversations.lookup id) id event) s') := by
  obtain ⟨ht,⟨eventId',he',hn⟩,hc,hk⟩ := hf
  obtain rfl : eventId' = eventId := Option.some.inj (he'.symm.trans he)
  have hq := requireIdentity_eq (s := s) ht he hc
  cases call with
  | append fact =>
    simp only [Call.given] at hq
    simp only [Call.continues] at hk
    simp only [Call.run,appendTo,bind_apply,hq,hk,require_true,read_apply,hn,Call.event]
    rcases foldStore id _ s with ⟨e | event,s'⟩ <;> rfl
  | applyRecorded event =>
    simp only [Call.given] at hq
    simp only [Call.continues] at hk
    simp only [Call.run,applyRecordedTo,bind_apply,hq,hk,require_true,read_apply,hn,Call.event]
    rcases foldStore id _ s with ⟨e | event,s'⟩ <;> rfl

/-- Any other call only looks at the store, and what it accepts is a duplicate. -/
theorem Call.run_unfolded (call : Call) (hf : ∀ id, ¬call.Folds s id) :
    Ends (call.run tostring) (fun r s' => s' = s ∧ r.duplicate)
      (fun e s' => s' = s ∧ e.IsRejection) s := by
  have hq : Ends (requireIdentity call.given)
      (fun r s' => s' = s ∧ (∀ id, call.Folds s id ↔
        s.eventIndex.lookup r.1 = none ∧ id = r.2 ∧ call.continues (s.conversations.lookup id)))
      (fun e s' => s' = s ∧ e.IsRejection) s := by
    refine ((requireIdentity_ok).and (requireIdentity_inspects call.given)).mono ?_
      fun _ _ h => h.2
    rintro ⟨eventId,id⟩ s' ⟨⟨rfl,ht,he,hc⟩,_⟩
    refine ⟨rfl,fun id' => ⟨?_,?_⟩⟩
    · rintro ⟨_,⟨eventId',he',hn⟩,hc',hk⟩
      rw [he] at he'; cases he'
      rw [hc] at hc'; cases hc'
      exact ⟨hn,rfl,hk⟩
    · rintro ⟨hn,rfl,hk⟩
      exact ⟨ht,⟨eventId,he,hn⟩,hc,hk⟩
  cases call with
  | append fact =>
    simp only [Call.run,appendTo,ends_bind]
    refine hq.mono ?_ fun _ _ h => h
    rintro ⟨eventId,id⟩ s' ⟨rfl,hi⟩
    have hno : s'.eventIndex.lookup eventId = none → _ = false := fun hn =>
      Bool.eq_false_iff.mpr fun hk => hf id ((hi id).mpr ⟨hn,rfl,hk⟩)
    simp only [Call.continues] at hno
    simp [Fault.IsRejection]
    intro hk
    cases hn : s'.eventIndex.lookup eventId with
    | some prior => simp [idConflict]
    | none => rw [hk] at hno; cases hno hn
  | applyRecorded event =>
    simp only [Call.run,applyRecordedTo,ends_bind]
    refine hq.mono ?_ fun _ _ h => h
    rintro ⟨eventId,id⟩ s' ⟨rfl,hi⟩
    have hno : s'.eventIndex.lookup eventId = none → _ = false := fun hn =>
      Bool.eq_false_iff.mpr fun hk => hf id ((hi id).mpr ⟨hn,rfl,hk⟩)
    simp only [Call.continues] at hno
    simp [Fault.IsRejection]
    cases hn : s'.eventIndex.lookup eventId with
    | some prior => simp [idConflict]
    | none => simp [hno hn]

theorem Call.run_inspects (call : Call) (hf : ∀ id, ¬call.Folds s id) :
    Inspects Fault.IsRejection (call.run tostring) s :=
  (Call.run_unfolded tostring call hf).mono (fun _ _ h => h.1) fun _ _ h => h

end Runs

section FoldStore
variable {s : Store} {id : String} {event : Fields}

theorem fold_error {c : Conversation} {d : Dispatch} (hd : eventChecks event = .ok d)
    {e : Fault} {r : Option Conversation} (he : fold (some c) event = (.error e,r)) :
    ∃ c', foldInto event d c = (.error e,c') ∧ r = some c' := by
  simp only [fold,hd] at he
  have h1 : (foldInto event d c).1 = .error e := congrArg Prod.fst he
  exact ⟨(foldInto event d c).2,Prod.ext h1 rfl,(congrArg Prod.snd he).symm⟩

/-- Only what the fold does to an existing conversation can outlive its failure. -/
theorem foldStore_error {c : Conversation} (hc : s.conversations.lookup id = some c)
    (h : Linked c) {e : Fault} {s' : Store} (he : foldStore id event s = (.error e,s')) :
    (s'.conversations = s.conversations ↔ ¬∃ d, eventChecks event = .ok d ∧
      continuationChecks c event = .ok () ∧ Tears event c d) ∧
    (e.IsRejection ↔ ¬∃ d, eventChecks event = .ok d ∧
      continuationChecks c event = .ok () ∧ Raises event c d) := by
  rcases hf : fold (some c) event with ⟨x,r⟩
  have hx : x = .error e := by
    have := congrArg Prod.fst he
    simpa [foldStore,hc,hf] using this
  subst hx
  have hs : ∀ c', r = some c' → s'.conversations = assign s.conversations id c' := by
    rintro c' rfl
    have := congrArg (fun p => p.2.conversations) he
    simp only [foldStore,hc,hf] at this
    exact this.symm
  cases hd : eventChecks event with
  | error e' =>
    simp only [fold,hd] at hf
    cases hf
    simp [hs c rfl,assign_lookup hc,eventChecks_rejects event hd]
  | ok d =>
    obtain ⟨c',hi,rfl⟩ := fold_error hd hf
    have hspec := foldInto_spec event h d
    rw [keeps_error hi,failsAs_error hi] at hspec
    have hsame : s'.conversations = s.conversations ↔ c' = c := by
      rw [hs c' rfl]
      constructor
      · intro ha
        have hl := congrArg (fun m => m.lookup id) ha
        simpa [lookup_assign,hc] using hl
      · rintro rfl; exact assign_lookup hc
    rw [hsame,hspec.1,hspec.2]
    simp

theorem foldStore_error_new (hc : s.conversations.lookup id = none) {e : Fault} {s' : Store}
    (he : foldStore id event s = (.error e,s')) :
    s'.conversations = s.conversations ∧ e.IsRejection := by
  simp only [foldStore,hc,fold] at he
  cases hd : eventChecks event with
  | error e' =>
    simp only [hd] at he
    cases he
    exact ⟨rfl,eventChecks_rejects event hd⟩
  | ok d =>
    simp only [hd] at he
    by_cases hk : d = .created
    · simp only [hk,if_true] at he
      cases hn : created none event with
      | error e' =>
        simp only [hn] at he
        cases he
        exact ⟨rfl,created_rejects event hn⟩
      | ok c => simp only [hn] at he; cases he
    · simp only [hk,if_false] at he
      cases he
      exact ⟨rfl,trivial⟩

theorem foldStore_eventIndex (s : Store) (id : String) (event : Fields) :
    (foldStore id event s).2.eventIndex = s.eventIndex := rfl

end FoldStore

section Reachable
variable (tostring : LuaValue → String)

/-- Every conversation of the store has resolved references. -/
def Store.Linked (s : Store) : Prop :=
  ∀ id c, s.conversations.lookup id = some c → ConversationManager.Linked c

theorem foldStore_linked {s : Store} (h : s.Linked) (id : String) (event : Fields) :
    (foldStore id event s).2.Linked := by
  intro other c hc
  have hf := fold_linked (s.conversations.lookup id) (fun c hc => h id c hc) event
  simp only [foldStore] at hc
  rcases hr : (fold (s.conversations.lookup id) event).2 with _ | c'
  · rw [hr] at hc
    exact h other c hc
  · rw [hr,lookup_assign] at hc
    split at hc
    · cases hc; exact hf c (by rw [hr]; rfl)
    · exact h other c hc

theorem Call.run_linked {s : Store} (h : s.Linked) (call : Call) :
    (call.run tostring s).2.Linked := by
  by_cases hf : ∃ id, call.Folds s id
  · obtain ⟨id,hf⟩ := hf
    obtain ⟨eventId,he,_⟩ := hf.eventId
    have hl := foldStore_linked h id (call.event (s.conversations.lookup id))
    rw [Call.run_folds tostring hf he]
    rcases hr : foldStore id (call.event (s.conversations.lookup id)) s with ⟨e | event,s'⟩ <;>
      rw [hr] at hl
    · exact hl
    · exact fun id c hc => hl id c hc
  · have hi := Call.run_inspects tostring call (fun id h => hf ⟨id,h⟩)
    rcases hi.cases with ⟨a,hr⟩ | ⟨e,_,hr⟩ <;> rw [hr] <;> exact h

theorem Reachable.linked {s : Store} (h : Reachable tostring s) : s.Linked := by
  induction h with
  | empty => intro id c hc; cases hc
  | step _ call ih => exact Call.run_linked tostring ih call

/-- A refused call changes no conversation and no index entry, and reports an error value. -/
def Call.Traceless (call : Call) (s : Store) : Prop :=
  ∀ e s', call.run tostring s = (.error e,s') →
    e.IsRejection ∧ s'.conversations = s.conversations ∧ s'.eventIndex = s.eventIndex

theorem Call.reaches_iff {s : Store} {call : Call} {id : String} (hf : call.Folds s id)
    (D : Fields → Conversation → Dispatch → Prop) : call.Reaches s D ↔
      ∃ c, s.conversations.lookup id = some c ∧ ∃ d, eventChecks (call.event (some c)) = .ok d ∧
        continuationChecks c (call.event (some c)) = .ok () ∧ D (call.event (some c)) c d := by
  constructor
  · rintro ⟨id',c,d,hf',hc,hd⟩
    obtain rfl : id' = id := Option.some.inj (hf'.conversationId.symm.trans hf.conversationId)
    exact ⟨c,hc,d,hd⟩
  · rintro ⟨c,hc,d,hd⟩
    exact ⟨id,c,d,hf,hc,hd⟩

/-- What is left behind by a refused call is decided by the branch that refused it. -/
theorem Call.run_error {s : Store} (h : s.Linked) (call : Call) {e : Fault} {s' : Store}
    (hr : call.run tostring s = (.error e,s')) :
    (s'.conversations = s.conversations ↔ ¬call.Tears s) ∧
    (e.IsRejection ↔ ¬call.Raises s) ∧ s'.eventIndex = s.eventIndex := by
  by_cases hf : ∃ id, call.Folds s id
  · obtain ⟨id,hf⟩ := hf
    obtain ⟨eventId,he,_⟩ := hf.eventId
    have hs : foldStore id (call.event (s.conversations.lookup id)) s = (.error e,s') := by
      rw [Call.run_folds tostring hf he] at hr
      rcases hs : foldStore id (call.event (s.conversations.lookup id)) s with ⟨e' | event,s₁⟩ <;>
        rw [hs] at hr <;> cases hr
      rfl
    have hi : s'.eventIndex = s.eventIndex := by
      rw [← foldStore_eventIndex s id (call.event (s.conversations.lookup id)),hs]
    rw [Call.Tears,Call.Raises,Call.reaches_iff hf,Call.reaches_iff hf]
    cases hc : s.conversations.lookup id with
    | none =>
      obtain ⟨hsame,hrej⟩ := foldStore_error_new hc hs
      simp [hsame,hrej,hi]
    | some c =>
      rw [hc] at hs
      have hspec := foldStore_error hc (h id c hc) hs
      rw [hspec.1,hspec.2]
      simp [hi]
  · have hn : ∀ D, ¬call.Reaches s D := by
      rintro D ⟨id,_,_,hf',_⟩
      exact hf ⟨id,hf'⟩
    have hi := Call.run_inspects tostring call (fun id h => hf ⟨id,h⟩)
    rcases hi.cases with ⟨a,hr'⟩ | ⟨e',he',hr'⟩ <;> rw [hr'] at hr <;> cases hr
    simp [Call.Tears,Call.Raises,hn,he']

/-- Tearing and raising branches do refuse the event. -/
theorem Call.run_reaches {s : Store} (h : s.Linked) {call : Call}
    (hd : call.Tears s ∨ call.Raises s) : ∃ e s', call.run tostring s = (.error e,s') := by
  have hfold : ∃ id c e c', call.Folds s id ∧ s.conversations.lookup id = some c ∧
      fold (some c) (call.event (some c)) = (.error e,c') := by
    have key : ∀ D, (∀ c event d, ConversationManager.Linked c →
        continuationChecks c event = .ok () → D event c d →
        ∃ e, (foldInto event d c).1 = .error e) → call.Reaches s D →
        ∃ id c e c', call.Folds s id ∧ s.conversations.lookup id = some c ∧
          fold (some c) (call.event (some c)) = (.error e,c') := by
      rintro D hD ⟨id,c,d,hf,hc,hd,hk,hD'⟩
      obtain ⟨e,he⟩ := hD c _ d (h id c hc) hk hD'
      exact ⟨id,c,e,some (foldInto (call.event (some c)) d c).2,hf,hc,by simp [fold,hd,he]⟩
    rcases hd with hd | hd
    · refine key _ ?_ hd
      intro c event d hl hk ht
      rcases hm : foldInto event d c with ⟨e | a,c'⟩
      · exact ⟨e,rfl⟩
      · exact absurd ⟨hk,ht⟩ ((foldInto_spec event hl d).1.mp (keeps_ok hm))
    · refine key _ ?_ hd
      intro c event d hl hk ht
      rcases hm : foldInto event d c with ⟨e | a,c'⟩
      · exact ⟨e,rfl⟩
      · exact absurd ⟨hk,ht⟩ ((foldInto_spec event hl d).2.mp (failsAs_ok hm))
  obtain ⟨id,c,e,c',hf,hc,hr⟩ := hfold
  obtain ⟨eventId,he,_⟩ := hf.eventId
  rw [Call.run_folds tostring hf he,hc]
  have hs : (foldStore id (call.event (some c)) s).1 = .error e := by simp [foldStore,hc,hr]
  rcases hm : foldStore id (call.event (some c)) s with ⟨e' | a,s'⟩
  · exact ⟨e',s',rfl⟩
  · rw [hm] at hs; cases hs

/-- In every reachable store a refused call leaves no trace exactly when it reaches neither
a handler branch that writes before it fails nor one that raises. -/
theorem traceless_iff {s : Store} (h : Reachable tostring s) (call : Call) :
    call.Traceless tostring s ↔ ¬call.Tears s ∧ ¬call.Raises s := by
  have hl := h.linked
  constructor
  · intro ht
    have hn : ∀ hd : call.Tears s ∨ call.Raises s, False := by
      intro hd
      obtain ⟨e,s',hr⟩ := Call.run_reaches tostring hl hd
      obtain ⟨he,hc,_⟩ := ht e s' hr
      obtain ⟨hk,hf,_⟩ := Call.run_error tostring hl call hr
      rcases hd with hd | hd
      · exact hk.mp hc hd
      · exact hf.mp he hd
    exact ⟨fun hd => hn (.inl hd),fun hd => hn (.inr hd)⟩
  · rintro ⟨ht,hr⟩ e s' he
    obtain ⟨hk,hf,hi⟩ := Call.run_error tostring hl call he
    exact ⟨hf.mpr hr,hk.mpr ht,hi⟩

end Reachable

def createdFact : LuaValue := .record [("event_id",.str "e1"),("conversation_id",.str "c"),
  ("kind",.str "created")]

/-- An assistant message must not carry a delivery id. -/
def assistantDelivery : LuaValue := .record [("event_id",.str "e2"),
  ("conversation_id",.str "c"),("kind",.str "message_started"),("message_id",.str "m"),
  ("role",.str "assistant"),("delivery_id",.str "d")]

def createdStore : Store := ((Call.append createdFact).run (fun _ => "") {}).2

/-- The refused message has used up a child number of the conversation. -/
theorem traceless_fails : ¬∀ (tostring : LuaValue → String) (s : Store),
    Reachable tostring s → ∀ call : Call, call.Traceless tostring s := by
  intro h
  have ht := h (fun _ => "") createdStore (.step .empty (.append createdFact))
    (.append assistantDelivery)
  obtain ⟨_,hc,_⟩ := ht (.rejected "invalid_delivery_id" [("message_id",.str "m")])
    ((Call.append assistantDelivery).run (fun _ => "") createdStore).2 rfl
  have hm : (some [("",1)] : Option HistoryPath.ChildMax) = some [] :=
    congrArg (fun m => (m.lookup "c").map (·.historyChildMax)) hc
  simp at hm

theorem traceless_createdStore :
    (Call.append assistantDelivery).Traceless (fun _ => "") createdStore ↔
      ¬(Call.append assistantDelivery).Tears createdStore ∧
        ¬(Call.append assistantDelivery).Raises createdStore :=
  traceless_iff (fun _ => "") (.step .empty (.append createdFact)) _

end Nefor.ConversationManager
