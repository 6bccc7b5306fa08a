import Mathlib.Data.List.Induction
import Nefor.ConversationManager.Rejection
import Nefor.ConversationManager.Effects

/-! Replaying the log of a store. An accepted event folds again to the same conversation,
so a fresh store that applies the log keeps in step with the store that wrote it. -/
namespace Nefor.ConversationManager
open Nefor.Lua Nefor.Action

section SecondFold
variable {c : Conversation} (event : Fields) (path : HistoryPath)

/-- The event with the history id that `message_started` writes into it. -/
def addressed : Fields := event.set "history_id" path.toLua

theorem addressed_get {name : String} (h : name ≠ "history_id") :
    (addressed event path).get name = event.get name := Fields.get_set_of_ne event _ h

theorem addressed_again : (addressed event path).set "history_id" path.toLua =
    addressed event path := Fields.put_put event _ _ _

theorem toLua_equal_self (path : HistoryPath) : path.toLua.equal path.toLua := by
  apply LuaValue.equal_array_self
  intro v hv
  obtain ⟨n,_,rfl⟩ := List.mem_map.mp hv
  simp [LuaValue.equal,LuaValue.rawEq,LuaNum.eq,LuaNum.toRat,LuaValue.isNil]

theorem startAllocated_addressed : startAllocated (addressed event path) = startAllocated event := by
  unfold startAllocated requireLive requireId
  simp [addressed_get]

theorem startChecks_addressed {s : Start} {c' : Conversation}
    (hs : startChecks event c = (.ok s,c')) :
    startChecks (addressed event s.allocated) c = (.ok s,c') := by
  unfold startChecks at hs ⊢
  rw [startAllocated_addressed]
  rcases ha : startAllocated event c with ⟨e | s',c''⟩
  · rw [bind_error ha] at hs; cases hs
  · rw [bind_ok ha] at hs ⊢
    have he : s' = s ∧ c'' = c' := by
      rw [bind_apply] at hs
      cases hr : ((event.get "history_id").isNil ||
          (event.get "history_id").equal s'.allocated.toLua) <;> simp [hr] at hs
      exact hs
    obtain ⟨rfl,rfl⟩ := he
    simp [bind_apply,addressed,toLua_equal_self]

theorem startLateChecks_addressed (id : String) (role : Role) :
    startLateChecks (addressed event path) id role = startLateChecks event id role := by
  unfold startLateChecks
  simp [addressed_get]

theorem newMessage_addressed (s : Start) :
    newMessage (addressed event path) s = newMessage event s := by
  unfold newMessage
  simp [addressed_get]

theorem stamp_addressed : stamp (addressed event path) = stamp event := by
  funext c
  unfold stamp
  simp [addressed_get]

theorem eventChecks_addressed : eventChecks (addressed event path) = eventChecks event := by
  unfold eventChecks
  simp [addressed_get]

theorem continuationChecks_addressed :
    continuationChecks c (addressed event path) = continuationChecks c event := by
  unfold continuationChecks
  simp [addressed_get]

theorem messageStarted_addressed {event' : Fields} {c' : Conversation}
    (hm : messageStarted event c = (.ok event',c')) :
    ∃ path, event' = addressed event path ∧ messageStarted event' c = (.ok event',c') := by
  have hs := startChecks_inspects (c := c) event
  rcases hs.cases with ⟨s,hs⟩ | ⟨e,_,hs⟩
  · have hm' := messageStarted_eq event hs
    have hs' := startChecks_addressed event hs
    refine ⟨s.allocated,?_⟩
    rw [hm] at hm'
    rcases hl : startLateChecks event s.id s.role (takeChild s.allocated c) with ⟨e | a,c₁⟩
    · simp only [hl] at hm'; cases hm'
    · simp only [hl] at hm'
      obtain ⟨he,hc⟩ : event' = addressed event s.allocated ∧ c' = startMessage event s c₁ := by
        simpa [addressed] using hm'
      refine ⟨he,?_⟩
      rw [he,messageStarted_eq _ hs',startLateChecks_addressed,hl,addressed_again,hc]
      simp only [startMessage,newMessage_addressed]
  · have : messageStarted event c = (.error e,c) := bind_error hs
    rw [hm] at this; cases this

/-- How an event leaves the fold: as it was, or with its history id. -/
def Left (event event' : Fields) : Prop :=
  event' = event ∨ (event.get "kind").rawEq (.str "message_started") ∧
    ∃ path, event' = addressed event path

theorem Left.get {event event' : Fields} (h : Left event event') {name : String}
    (hn : name ≠ "history_id") : event'.get name = event.get name := by
  rcases h with rfl | ⟨_,path,rfl⟩
  · rfl
  · exact addressed_get event path hn

theorem dispatch_messageStarted {kind : LuaValue} (h : dispatch kind = some .messageStarted) :
    kind.rawEq (.str "message_started") := by
  unfold dispatch at h
  split at h
  · cases h
  · rfl
  · rw [Option.map_eq_some_iff] at h
    obtain ⟨k,_,hk⟩ := h
    cases hk
  · cases h

/-- Folding an event as the fold left it gives the same event and the same conversation. -/
theorem foldInto_again {d : Dispatch} (hd : eventChecks event = .ok d) {event' : Fields}
    {c' : Conversation} (hf : foldInto event d c = (.ok event',c')) :
    foldInto event' d c = (.ok event',c') ∧ Left event event' ∧
      continuationChecks c event = .ok () := by
  cases hk : continuationChecks c event with
  | error e =>
    have : foldInto event d c = (.error e,c) := by simp [foldInto,bind_apply,hk]
    rw [hf] at this; cases this
  | ok a =>
    cases d with
    | created =>
      simp only [foldInto,bind_apply,read_apply,hk] at hf
      cases hf
    | messageStarted =>
      rcases hm : messageStarted event c with ⟨e | event₁,c₁⟩
      · simp only [foldInto,bind_apply,read_apply,hk,hm] at hf; cases hf
      · obtain ⟨path,rfl,hagain⟩ := messageStarted_addressed event hm
        simp only [foldInto,bind_apply,read_apply,hk,hm,update_apply,pure_apply] at hf
        cases hf
        refine ⟨?_,.inr ⟨dispatch_messageStarted (eventChecks_dispatch hd),path,rfl⟩,rfl⟩
        simp only [foldInto,bind_apply,read_apply,continuationChecks_addressed,hk,hagain,
          update_apply,pure_apply,stamp_addressed]
    | other kind =>
      have he : event' = event := by
        simp only [foldInto,bind_apply,read_apply,hk] at hf
        rcases hm : kind.handler event c with ⟨e | a,c₁⟩ <;>
          simp only [hm,update_apply,pure_apply] at hf <;> cases hf
        rfl
      rw [he] at hf ⊢
      exact ⟨hf,.inl rfl,rfl⟩

theorem continuationChecks_sequence (h : continuationChecks c event = .ok ()) :
    (event.get "sequence").rawEq (.num c.lastSequence.succ) := by
  cases hs : (event.get "sequence").rawEq (.num c.lastSequence.succ) with
  | true => rfl
  | false =>
    simp only [continuationChecks,bind,Except.bind,hs,Bool.not_false,if_true] at h
    split at h <;> cases h

theorem continuationChecks_conversation (h : continuationChecks c event = .ok ()) :
    event.get "conversation_id" = .str c.id := by
  cases hs : (event.get "conversation_id").rawEq (.str c.id) with
  | true => exact rawEq_str hs
  | false =>
    simp only [continuationChecks,bind,Except.bind,hs,Bool.not_false,if_true] at h
    cases h

theorem created_sequence {event : Fields} (h : created none event = .ok c) :
    (event.get "sequence").rawEq (.num (.int 1)) := by
  cases hs : (event.get "sequence").rawEq (.num (.int 1)) with
  | true => rfl
  | false => simp [created,hs] at h

/-- Folding an accepted event again from the same conversation is accepted as well. -/
theorem fold_again {conversation : Option Conversation} {event event' : Fields}
    {r : Option Conversation} (hf : fold conversation event = (.ok event',r)) :
    fold conversation event' = (.ok event',r) ∧ Left event event' ∧
      (event.get "sequence").rawEq (.num (nextSequence conversation)) ∧ r.isSome := by
  cases hd : eventChecks event with
  | error e => simp only [fold,hd] at hf; cases hf
  | ok d =>
    cases conversation with
    | some c =>
      rcases hi : foldInto event d c with ⟨e | event₁,c'⟩
      · simp only [fold,hd,hi] at hf; cases hf
      · simp only [fold,hd,hi] at hf
        cases hf
        obtain ⟨hagain,hleft,hk⟩ := foldInto_again event hd hi
        refine ⟨?_,hleft,continuationChecks_sequence event hk,rfl⟩
        have hd' : eventChecks event' = .ok d := by
          rcases hleft with rfl | ⟨_,path,rfl⟩
          · exact hd
          · rw [eventChecks_addressed,hd]
        simp only [fold,hd',hagain]
    | none =>
      by_cases hk : d = .created
      · cases hc : created none event with
        | error e => simp only [fold,hd,hk,if_true,hc] at hf; cases hf
        | ok c =>
          have hagain := hf
          simp only [fold,hd,hk,if_true,hc] at hf
          cases hf
          exact ⟨hagain,.inl rfl,created_sequence hc,rfl⟩
      · simp only [fold,hd,hk,if_false] at hf; cases hf

end SecondFold

/-- A fact as Lua can build it: no field of it is `nil`. -/
abbrev Fact := {fact : LuaValue // fact.Proper}

/-- The fact names the history id that the store is about to allocate. -/
def ownsHistory (fact : LuaValue) : Bool :=
  (fact.get "kind").rawEq (.str "message_started") && !(fact.get "history_id").isNil

/-- The recorded event gives back the fact it was made from. -/
theorem factOf_left {fact : LuaValue} (hp : fact.Proper) (hs : (fact.get "sequence").isNil)
    (ho : ownsHistory fact = false) {n : LuaValue} {event : Fields}
    (hl : Left (fact.fields.set "sequence" n) event) : factOf event = fact.fields := by
  have hsa := hp.absent hs
  have hk : event.get "kind" = fact.get "kind" := by
    rw [hl.get (by decide)]
    exact Fields.get_set_of_ne _ _ (by decide)
  have hkind : (fact.fields.set "sequence" n).get "kind" = fact.get "kind" :=
    Fields.get_set_of_ne _ _ (by decide)
  unfold factOf
  rw [hk]
  cases hm : (fact.get "kind").rawEq (.str "message_started") with
  | false =>
    rcases hl with rfl | ⟨hm',_⟩
    · simpa using Fields.unset_set n hsa
    · rw [hkind,hm] at hm'; cases hm'
  | true =>
    have hha : fact.fields.Absent "history_id" := hp.absent (by simpa [ownsHistory,hm] using ho)
    rcases hl with rfl | ⟨_,path,rfl⟩
    · simp only [if_true]
      rw [Fields.unset_set n hsa,Fields.unset_of_absent hha]
    · simp only [if_true,addressed]
      rw [Fields.unset_set_of_ne _ (by decide),Fields.unset_set n hsa,Fields.unset_set _ hha]

section Logs
variable (tostring : LuaValue → String)

theorem fingerprint_fields {v : LuaValue} (h : v.isTable) :
    fingerprint tostring (.table false v.fields) = fingerprint tostring v := by
  cases v with
  | table marked es => simp only [fingerprint,canonical,LuaValue.fields]
  | _ => cases h

/-- The facts that a store accepted as new, each with the event it returned. -/
abbrev Log := List (Fact × Fields)

/-- Append one fact, whatever becomes of it. -/
def appendStep (state : Store × Log) (fact : Fact) : Store × Log :=
  match appendTo tostring fact.1 state.1 with
  | (.ok r,s) => (s,if r.duplicate then state.2 else state.2 ++ [(fact,r.event)])
  | (.error _,s) => (s,state.2)

/-- Append facts to an empty store. -/
def appendAll (facts : List Fact) : Store × Log := facts.foldl (appendStep tostring) ({},[])

/-- Every event is accepted as a new one. -/
def AppliesAll : List Fields → Store → Store → Prop
  | [], s, s' => s' = s
  | event :: rest, s, s' => ∃ r s₁, applyRecordedTo tostring (.table false event) s = (.ok r,s₁) ∧
      r.duplicate = false ∧ AppliesAll rest s₁ s'

/-- The fact is taken for one that the store already holds, with the sequence of the event. -/
def Repeats (fact : LuaValue) (event : Fields) (s : Store) : Prop :=
  ∃ r, appendTo tostring fact s = (.ok r,s) ∧ r.duplicate ∧
    r.event.get "sequence" = event.get "sequence"

/-- Replaying the log of the appended facts rebuilds the store that wrote it. -/
def Rebuilds (facts : List Fact) : Prop :=
  let live := (appendAll tostring facts).1
  let log := (appendAll tostring facts).2
  ∃ replayed, AppliesAll tostring (log.map (·.2)) {} replayed ∧
    replay tostring (log.map fun e => .table false e.2) {} = (.ok (),replayed) ∧
    replayed.conversations = live.conversations ∧
    ∀ e ∈ log, Repeats tostring e.1.1 e.2 live ∧ Repeats tostring e.1.1 e.2 replayed

/-- Where both stores keep a logged fact. -/
structure Kept (fact : LuaValue) (event : Fields) (live replayed : Store) (eventId id : String)
    (old new : IndexEntry) : Prop where
  isTable : fact.isTable
  unsequenced : (fact.get "sequence").isNil
  hasEventId : asId (fact.get "event_id") = some eventId
  hasConversationId : asId (fact.get "conversation_id") = some id
  inLive : live.eventIndex.lookup eventId = some old
  inReplayed : replayed.eventIndex.lookup eventId = some new
  oldFact : old.factFingerprint = fingerprint tostring fact
  oldSequence : old.sequence = event.get "sequence"
  newFact : ownsHistory fact = false → new.factFingerprint = fingerprint tostring fact
  newSequence : new.sequence = event.get "sequence"

/-- The replayed store is in step with the live one after the log. -/
structure Mirrors (log : Log) (live replayed : Store) : Prop where
  conversations : replayed.conversations = live.conversations
  fresh : ∀ eventId, live.eventIndex.lookup eventId = none →
    replayed.eventIndex.lookup eventId = none
  kept : ∀ e ∈ log, ∃ eventId id old new,
    Kept tostring e.1.1 e.2 live replayed eventId id old new

theorem repeats_of_entry {fact : LuaValue} {event : Fields} {s : Store} {eventId id : String}
    {prior : IndexEntry} (ht : fact.isTable) (hs : (fact.get "sequence").isNil)
    (he : asId (fact.get "event_id") = some eventId)
    (hc : asId (fact.get "conversation_id") = some id)
    (hp : s.eventIndex.lookup eventId = some prior)
    (hf : prior.factFingerprint = fingerprint tostring fact)
    (hq : prior.sequence = event.get "sequence") : Repeats tostring fact event s := by
  refine ⟨⟨s.conversations.lookup prior.conversationId,true,
    fact.fields.set "sequence" prior.sequence⟩,?_,rfl,?_⟩
  · have hi := requireIdentity_eq (s := s) ht he hc
    simp only [appendTo,bind_apply,hi,hs,require_true,read_apply,hp,hf,decide_true,pure_apply]
  · simp only [Fields.get_set_self,hq]

theorem Kept.repeats {fact : LuaValue} {event : Fields} {live replayed : Store}
    {eventId id : String} {old new : IndexEntry}
    (h : Kept tostring fact event live replayed eventId id old new) :
    Repeats tostring fact event live ∧
      (ownsHistory fact = false → Repeats tostring fact event replayed) :=
  ⟨repeats_of_entry tostring h.isTable h.unsequenced h.hasEventId h.hasConversationId h.inLive
    h.oldFact h.oldSequence,fun ho => repeats_of_entry tostring h.isTable h.unsequenced
    h.hasEventId h.hasConversationId h.inReplayed (h.newFact ho) h.newSequence⟩

/-- Entries stay where they are when a fresh event id is indexed. -/
theorem Kept.indexed {fact : LuaValue} {event : Fields} {live replayed : Store}
    {eventId id : String} {old new : IndexEntry}
    (h : Kept tostring fact event live replayed eventId id old new) {other : String}
    (hn : live.eventIndex.lookup other = none) {live' replayed' : Store}
    {a b : IndexEntry} (hl : live'.eventIndex = assign live.eventIndex other a)
    (hr : replayed'.eventIndex = assign replayed.eventIndex other b) :
    Kept tostring fact event live' replayed' eventId id old new := by
  have hne : eventId ≠ other := by
    rintro rfl
    rw [h.inLive] at hn; cases hn
  refine { h with inLive := ?_,inReplayed := ?_ }
  · rw [hl,lookup_assign,if_neg hne,h.inLive]
  · rw [hr,lookup_assign,if_neg hne,h.inReplayed]

theorem Mirrors.same {log : Log} {live live' replayed : Store}
    (h : Mirrors tostring log live replayed) (hc : live'.conversations = live.conversations)
    (hi : live'.eventIndex = live.eventIndex) : Mirrors tostring log live' replayed where
  conversations := h.conversations.trans hc.symm
  fresh := by rw [hi]; exact h.fresh
  kept e he := by
    obtain ⟨eventId,id,old,new,hk⟩ := h.kept e he
    exact ⟨eventId,id,old,new,{ hk with inLive := by rw [hi]; exact hk.inLive }⟩

theorem appliesAll_append {xs ys : List Fields} {s s' : Store} :
    AppliesAll tostring (xs ++ ys) s s' ↔
      ∃ s₁, AppliesAll tostring xs s s₁ ∧ AppliesAll tostring ys s₁ s' := by
  induction xs generalizing s with
  | nil => simp [AppliesAll]
  | cons event rest ih =>
    simp only [List.cons_append,AppliesAll,ih]
    constructor
    · rintro ⟨r,s₁,hr,hd,s₂,hx,hy⟩
      exact ⟨s₂,⟨r,s₁,hr,hd,hx⟩,hy⟩
    · rintro ⟨s₂,⟨r,s₁,hr,hd,hx⟩,hy⟩
      exact ⟨r,s₁,hr,hd,s₂,hx,hy⟩

/-- `replay` succeeds on a log whose events are all accepted. -/
theorem replay_of_appliesAll {events : List Fields} {s s' : Store}
    (h : AppliesAll tostring events s s') (i : Nat) :
    replayFrom tostring i (events.map (LuaValue.table false)) s = (.ok (),s') := by
  induction events generalizing s i with
  | nil => cases h; rfl
  | cons event rest ih =>
    obtain ⟨r,s₁,hr,_,hrest⟩ := h
    simp only [List.map_cons,replayFrom,hr]
    exact ih hrest (i+1)

/-- A new fact that is accepted went through the fold. -/
theorem append_accepted {fact : LuaValue} {s s' : Store} {r : Accepted}
    (ha : appendTo tostring fact s = (.ok r,s')) (hd : r.duplicate = false) :
    ∃ id, (Call.append fact).Folds s id := by
  by_contra hf
  have hr := Call.run_unfolded (s := s) tostring (.append fact) fun id h => hf ⟨id,h⟩
  obtain ⟨_,hdup⟩ := hr.of_ok ha
  rw [hd] at hdup; cases hdup

/-- The store after a call whose event was folded into `c`. -/
def stored (s : Store) (id eventId : String) (c : Conversation) (entry : IndexEntry) : Store where
  conversations := assign s.conversations id c
  eventIndex := assign s.eventIndex eventId entry
  foldCount := s.foldCount + 1

theorem Call.run_accepted {call : Call} {s : Store} {id eventId : String} (hf : call.Folds s id)
    (he : asId (call.given.get "event_id") = some eventId) {event : Fields} {c : Conversation}
    (hfold : fold (s.conversations.lookup id) (call.event (s.conversations.lookup id)) =
      (.ok event,some c)) :
    call.run tostring s = (.ok ⟨some c,false,event⟩,
      stored s id eventId c (call.entry tostring (s.conversations.lookup id) id event)) := by
  have hs : foldStore id (call.event (s.conversations.lookup id)) s = (.ok event,{ s with
      foldCount := s.foldCount + 1
      conversations := assign s.conversations id c }) := by
    simp only [foldStore,hfold]
  rw [Call.run_folds tostring hf he,hs]
  simp only [lookup_assign,if_true]
  rfl

theorem Call.fold_of_run {call : Call} {s s' : Store} {id : String} (hf : call.Folds s id)
    {r : Accepted} (hr : call.run tostring s = (.ok r,s')) :
    ∃ event c, fold (s.conversations.lookup id) (call.event (s.conversations.lookup id)) =
      (.ok event,some c) := by
  obtain ⟨eventId,he,_⟩ := hf.eventId
  rw [Call.run_folds tostring hf he] at hr
  rcases hfold : fold (s.conversations.lookup id)
    (call.event (s.conversations.lookup id)) with ⟨e | event,o⟩
  · have hs : (foldStore id (call.event (s.conversations.lookup id)) s).1 = .error e := by
      simp only [foldStore,hfold]
    rcases hm : foldStore id (call.event (s.conversations.lookup id)) s with ⟨e' | a,s₁⟩ <;>
      rw [hm] at hs hr
    · cases hr
    · cases hs
  · obtain ⟨c,rfl⟩ := Option.isSome_iff_exists.mp (fold_again hfold).2.2.2
    exact ⟨event,c,rfl⟩

/-- An accepted append can be applied to the store that mirrors it. -/
theorem Mirrors.accept {log : Log} {live replayed live' : Store}
    (h : Mirrors tostring log live replayed) {fact : Fact} {r : Accepted}
    (ha : appendTo tostring fact.1 live = (.ok r,live')) (hd : r.duplicate = false) :
    ∃ replayed', AppliesAll tostring [r.event] replayed replayed' ∧
      Mirrors tostring (log ++ [(fact,r.event)]) live' replayed' := by
  obtain ⟨id,hf⟩ := append_accepted tostring ha hd
  obtain ⟨eventId,he,hfresh⟩ := hf.eventId
  obtain ⟨event,c,hfold⟩ := Call.fold_of_run tostring hf ha
  have hrun : appendTo tostring fact.1 live = _ := Call.run_accepted tostring hf he hfold
  rw [ha] at hrun
  cases hrun
  obtain ⟨hagain,hleft,hseq,_⟩ := fold_again hfold
  have hget : ∀ name, name ≠ "history_id" → name ≠ "sequence" →
      event.get name = fact.1.get name := fun name h1 h2 =>
    (hleft.get h1).trans (Fields.get_set_of_ne _ _ h2)
  have hsequence : event.get "sequence" =
      .num (nextSequence (live.conversations.lookup id)) :=
    (hleft.get (by decide)).trans (Fields.get_set_self _ _ _)
  have he' : asId (event.get "event_id") = some eventId := by
    rw [hget _ (by decide) (by decide)]; exact he
  have hf' : (Call.applyRecorded (.table false event)).Folds replayed id := {
    isTable := rfl
    eventId := ⟨eventId,he',h.fresh _ hfresh⟩
    conversationId := by
      change asId (event.get "conversation_id") = some id
      rw [hget _ (by decide) (by decide)]
      exact hf.conversationId
    continues := by
      change (event.get "sequence").rawEq _ = true
      rw [h.conversations,hleft.get (by decide)]
      exact hseq }
  have hfold' : fold (replayed.conversations.lookup id)
      ((Call.applyRecorded (.table false event)).event (replayed.conversations.lookup id)) =
      (.ok event,some c) := by rw [h.conversations]; exact hagain
  have hrun' : applyRecordedTo tostring (.table false event) replayed = _ :=
    Call.run_accepted tostring hf' he' hfold'
  refine ⟨_,⟨_,_,hrun',rfl,rfl⟩,?_,?_,?_⟩
  · simp only [stored,h.conversations]
  · intro other hn
    simp only [stored,lookup_assign] at hn ⊢
    split at hn
    · cases hn
    · rename_i hne
      rw [if_neg hne]
      exact h.fresh other hn
  · intro e hmem
    rcases List.mem_append.mp hmem with hmem | hmem
    · obtain ⟨eid,cid,old,new,hk⟩ := h.kept e hmem
      exact ⟨eid,cid,old,new,hk.indexed tostring hfresh rfl rfl⟩
    · obtain rfl := List.mem_singleton.mp hmem
      refine ⟨eventId,id,
        (Call.append fact.1).entry tostring (live.conversations.lookup id) id event,
        (Call.applyRecorded (.table false event)).entry tostring
          (replayed.conversations.lookup id) id event,{
        isTable := hf.isTable
        unsequenced := hf.continues
        hasEventId := he
        hasConversationId := hf.conversationId
        inLive := by simp only [stored,lookup_assign,if_true]
        inReplayed := by simp only [stored,lookup_assign,if_true]
        oldFact := rfl
        oldSequence := hsequence.symm
        newFact := ?_
        newSequence := rfl }⟩
      intro ho
      simp only [Call.entry]
      rw [factOf_left fact.2 hf.continues ho hleft]
      exact fingerprint_fields tostring hf.isTable

theorem append_duplicate {fact : LuaValue} {s s' : Store} {r : Accepted}
    (ha : appendTo tostring fact s = (.ok r,s')) (hd : r.duplicate) : s' = s := by
  by_cases hf : ∃ id, (Call.append fact).Folds s id
  · obtain ⟨id,hf⟩ := hf
    obtain ⟨eventId,he,_⟩ := hf.eventId
    obtain ⟨event,c,hfold⟩ := Call.fold_of_run tostring hf ha
    have hrun : appendTo tostring fact s = _ := Call.run_accepted tostring hf he hfold
    rw [ha] at hrun
    cases hrun
    cases hd
  · have hr := Call.run_unfolded (s := s) tostring (.append fact) fun id h => hf ⟨id,h⟩
    exact (hr.of_ok ha).1

/-- One append keeps the mirror: it adds at most one event to the log. -/
theorem Mirrors.step {log : Log} {live replayed : Store}
    (h : Mirrors tostring log live replayed) (hl : live.Linked) (fact : Fact)
    (ht : ¬(Call.append fact.1).Tears live) :
    ∃ replayed' new, (appendStep tostring (live,log) fact).2 = log ++ new ∧
      AppliesAll tostring (new.map (·.2)) replayed replayed' ∧
      Mirrors tostring (log ++ new) (appendStep tostring (live,log) fact).1 replayed' := by
  unfold appendStep
  rcases ha : appendTo tostring fact.1 live with ⟨e | r,live'⟩
  · obtain ⟨hc,_,hi⟩ := Call.run_error tostring hl (.append fact.1) ha
    refine ⟨replayed,[],by simp,rfl,?_⟩
    simpa using h.same tostring (hc.mpr ht) hi
  · cases hd : r.duplicate with
    | true =>
      obtain rfl := append_duplicate tostring ha hd
      exact ⟨replayed,[],by simp [hd],rfl,by simpa using h⟩
    | false =>
      obtain ⟨replayed',happ,hm⟩ := h.accept tostring ha hd
      exact ⟨replayed',[(fact,r.event)],by simp [hd],happ,hm⟩

/-- No append of the run tears a conversation, and no accepted fact names its history id. -/
def Undisturbed (facts : List Fact) : Prop :=
  (∀ pre fact post, facts = pre ++ fact :: post →
    ¬(Call.append fact.1).Tears (appendAll tostring pre).1) ∧
  ∀ e ∈ (appendAll tostring facts).2, ownsHistory e.1.1 = false

theorem appendAll_append (facts : List Fact) (fact : Fact) :
    appendAll tostring (facts ++ [fact]) = appendStep tostring (appendAll tostring facts) fact := by
  simp [appendAll]

theorem appendAll_reachable (facts : List Fact) :
    Reachable tostring (appendAll tostring facts).1 := by
  induction facts using List.reverseRecOn with
  | nil => exact .empty
  | append_singleton facts fact ih =>
    have hs := ih.step (.append fact.1)
    rw [appendAll_append,appendStep]
    rcases ha : appendTo tostring fact.1 (appendAll tostring facts).1 with ⟨e | r,s⟩ <;>
      simp only [Call.run,ha] at hs <;> exact hs

/-- A run whose appends never tear is mirrored by the replay of its log. -/
theorem appendAll_mirrors {facts : List Fact} (h : ∀ pre fact post, facts = pre ++ fact :: post →
    ¬(Call.append fact.1).Tears (appendAll tostring pre).1) :
    ∃ replayed, AppliesAll tostring ((appendAll tostring facts).2.map (·.2)) {} replayed ∧
      Mirrors tostring (appendAll tostring facts).2 (appendAll tostring facts).1 replayed := by
  induction facts using List.reverseRecOn with
  | nil => exact ⟨{},rfl,rfl,fun _ h => h,fun e he => by cases he⟩
  | append_singleton facts fact ih =>
    obtain ⟨replayed,happ,hm⟩ := ih fun pre f post hp => h pre f (post ++ [fact]) (by simp [hp])
    have hl := (appendAll_reachable tostring facts).linked
    obtain ⟨replayed',new,hlog,hnew,hm'⟩ := hm.step tostring hl fact (h facts fact [] rfl)
    refine ⟨replayed',?_,?_⟩
    · rw [appendAll_append,hlog,List.map_append]
      exact (appliesAll_append tostring).mpr ⟨replayed,happ,hnew⟩
    · rw [appendAll_append,hlog]
      exact hm'

/-- Replaying the recorded log of an undisturbed run rebuilds the live store. -/
theorem replay_rebuilds {facts : List Fact} (h : Undisturbed tostring facts) :
    Rebuilds tostring facts := by
  obtain ⟨replayed,happ,hm⟩ := appendAll_mirrors tostring h.1
  refine ⟨replayed,happ,?_,hm.conversations,?_⟩
  · have hr := replay_of_appliesAll tostring happ 1
    rwa [List.map_map] at hr
  · intro e he
    obtain ⟨eventId,id,old,new,hk⟩ := hm.kept e he
    exact ⟨(hk.repeats tostring).1,(hk.repeats tostring).2 (h.2 e he)⟩

end Logs

/-- A created conversation and a message that is refused after it took a child number. -/
def disturbedFacts : List Fact := [⟨createdFact,by decide⟩,⟨assistantDelivery,by decide⟩]

/-- The live conversation keeps the child number, the replayed one never sees it. -/
theorem rebuilds_fails : ¬∀ (tostring : LuaValue → String) (facts : List Fact),
    Rebuilds tostring facts := by
  intro h
  obtain ⟨replayed,_,hr,hc,_⟩ := h (fun _ => "") disturbedFacts
  have hs := congrArg (fun r => (r.2.conversations.lookup "c").map (·.historyChildMax)) hr
  have hl : (replayed.conversations.lookup "c").map (·.historyChildMax) = some [("",1)] :=
    congrArg (fun m => (m.lookup "c").map (·.historyChildMax)) hc
  have he : (some [] : Option HistoryPath.ChildMax) = some [("",1)] := hs.trans hl
  simp at he

def userMessage : LuaValue := .record [("event_id",.str "e2"),("conversation_id",.str "c"),
  ("kind",.str "message_started"),("message_id",.str "m"),("role",.str "user"),
  ("delivery_id",.str "d")]

/-- A call that the fold gives to a handler without a defective branch cannot tear. -/
theorem not_tears_userMessage : ¬(Call.append userMessage).Tears createdStore := by
  rintro ⟨id,c,d,hf,hc,hd,_,ht⟩
  obtain rfl : "c" = id := Option.some.inj hf.conversationId
  have he : deliveryFieldsOk ((Call.append userMessage).event (some c)) = true := rfl
  have hm : eventChecks ((Call.append userMessage).event (some c)) = .ok .messageStarted := by
    cases hc; rfl
  rw [hm] at hd
  cases hd
  rw [Tears,LateStart,he] at ht
  cases ht.2

theorem rebuilds_userMessage : Rebuilds (fun _ => "")
    [⟨createdFact,by decide⟩,⟨userMessage,by decide⟩] := by
  refine replay_rebuilds (fun _ => "") ⟨?_,by decide⟩
  intro pre fact post hp
  rcases pre with _ | ⟨a,_ | ⟨b,pre⟩⟩
  · rintro ⟨id,c,d,_,hc,_⟩
    cases hc
  · cases hp
    exact not_tears_userMessage
  · simp at hp

end Nefor.ConversationManager
