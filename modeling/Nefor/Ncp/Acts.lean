import Mathlib.Logic.Relation
import Nefor.Ncp.Loop
import Nefor.Throughout

/-! What the broker does to its state, one act at a time. -/
namespace Nefor.Ncp
open Relation (ReflTransGen)

/-! Histories. -/

def Event.published? : Event → Option LogEntry
  | .published entry => some entry
  | _ => none

/-- The entries that were put on the bus. -/
def published (h : History) : List LogEntry := h.filterMap Event.published?

@[simp] theorem published_append (h k : History) : published (h ++ k) = published h ++ published k :=
  List.filterMap_append

@[simp] theorem published_map (entries : List LogEntry) : published (entries.map .published) = entries := by
  induction entries with
  | nil => rfl
  | cons entry rest ih => exact congrArg (entry :: ·) ih

/-- What Lua brings about in one call, with these names routed. -/
inductive ByLua (routed : List PluginName) : Event → Prop
  | sent (target : Option PluginName) (payload : String) :
      ByLua routed (.published (.step target payload))
  | delivered (target : PluginName) (lines : List String) (h : target ∈ routed) :
      ByLua routed (.delivered target lines none)
  | refused (target : PluginName) (lines : List String) (error : AdmissionError) :
      ByLua routed (.delivered target lines (some error))

namespace Broker
variable {w : World} {b b' : Broker} {id other : ConnectionId}

/-- The events happen: the log takes the entries among them. -/
def hear (b : Broker) (events : History) : Broker :=
  { b with eventLog := b.eventLog ++ published events, history := b.history ++ events }

section Fields
variable (b) (events : History) (id : ConnectionId) (f : ConnectionRecord → ConnectionRecord)
  (name : PluginName) (fact : Fact) (event : Event)

@[simp] theorem hear_eventLog : (b.hear events).eventLog = b.eventLog ++ published events := rfl
@[simp] theorem hear_conns : (b.hear events).conns = b.conns := rfl
@[simp] theorem hear_connsById : (b.hear events).connsById = b.connsById := rfl
@[simp] theorem hear_order : (b.hear events).order = b.order := rfl
@[simp] theorem hear_inbound : (b.hear events).inbound = b.inbound := rfl
@[simp] theorem hear_mirroredCount : (b.hear events).mirroredCount = b.mirroredCount := rfl
@[simp] theorem hear_pending :
    (b.hear events).pendingEngineEnvelopes = b.pendingEngineEnvelopes := rfl
@[simp] theorem hear_history : (b.hear events).history = b.history ++ events := rfl

@[simp] theorem hear_nil : b.hear [] = b := by
  simp [hear,published]

@[simp] theorem hear_hear (more : History) : (b.hear events).hear more = b.hear (events ++ more) := by
  simp [hear]

theorem publish_eq (entries : List LogEntry) :
    b.publish entries = b.hear (entries.map .published) := by
  simp [publish,hear]

@[simp] theorem update_conns : (b.update id f).conns = b.conns := rfl
@[simp] theorem update_order : (b.update id f).order = b.order := rfl
@[simp] theorem update_history : (b.update id f).history = b.history := rfl
@[simp] theorem update_inbound : (b.update id f).inbound = b.inbound := rfl
@[simp] theorem update_eventLog : (b.update id f).eventLog = b.eventLog := rfl
@[simp] theorem update_mirroredCount : (b.update id f).mirroredCount = b.mirroredCount := rfl
@[simp] theorem update_pending :
    (b.update id f).pendingEngineEnvelopes = b.pendingEngineEnvelopes := rfl
@[simp] theorem update_self : (b.update id f).connsById id = (b.connsById id).map f :=
  Function.update_self ..
theorem update_of_ne (h : other ≠ id) : (b.update id f).connsById other = b.connsById other :=
  Function.update_of_ne h ..

@[simp] theorem remove_conns : (b.remove id).conns = b.conns := rfl
@[simp] theorem remove_order : (b.remove id).order = b.order := rfl
@[simp] theorem remove_history : (b.remove id).history = b.history := rfl
@[simp] theorem remove_inbound : (b.remove id).inbound = b.inbound := rfl
@[simp] theorem remove_eventLog : (b.remove id).eventLog = b.eventLog := rfl
@[simp] theorem remove_mirroredCount : (b.remove id).mirroredCount = b.mirroredCount := rfl
@[simp] theorem remove_pending :
    (b.remove id).pendingEngineEnvelopes = b.pendingEngineEnvelopes := rfl
@[simp] theorem remove_self : (b.remove id).connsById id = none := Function.update_self ..
theorem remove_of_ne (h : other ≠ id) : (b.remove id).connsById other = b.connsById other :=
  Function.update_of_ne h ..

@[simp] theorem unroute_conns : (b.unroute name).conns = b.conns.filter (· ≠ name) := rfl
@[simp] theorem unroute_connsById : (b.unroute name).connsById = b.connsById := rfl
@[simp] theorem unroute_order : (b.unroute name).order = b.order := rfl
@[simp] theorem unroute_history : (b.unroute name).history = b.history := rfl
@[simp] theorem unroute_inbound : (b.unroute name).inbound = b.inbound := rfl
@[simp] theorem unroute_eventLog : (b.unroute name).eventLog = b.eventLog := rfl
@[simp] theorem unroute_mirroredCount : (b.unroute name).mirroredCount = b.mirroredCount := rfl
@[simp] theorem unroute_pending :
    (b.unroute name).pendingEngineEnvelopes = b.pendingEngineEnvelopes := rfl

@[simp] theorem queue_conns : (b.queueEngineEnvelope fact).conns = b.conns := rfl
@[simp] theorem queue_connsById : (b.queueEngineEnvelope fact).connsById = b.connsById := rfl
@[simp] theorem queue_order : (b.queueEngineEnvelope fact).order = b.order := rfl
@[simp] theorem queue_history : (b.queueEngineEnvelope fact).history = b.history := rfl
@[simp] theorem queue_inbound : (b.queueEngineEnvelope fact).inbound = b.inbound := rfl
@[simp] theorem queue_eventLog : (b.queueEngineEnvelope fact).eventLog = b.eventLog := rfl
@[simp] theorem queue_mirroredCount :
    (b.queueEngineEnvelope fact).mirroredCount = b.mirroredCount := rfl
@[simp] theorem queue_pending : (b.queueEngineEnvelope fact).pendingEngineEnvelopes =
    b.pendingEngineEnvelopes ++ [fact] := rfl

@[simp] theorem note_conns : (b.note event).conns = b.conns := rfl
@[simp] theorem note_connsById : (b.note event).connsById = b.connsById := rfl
@[simp] theorem note_order : (b.note event).order = b.order := rfl
@[simp] theorem note_history : (b.note event).history = b.history ++ [event] := rfl
@[simp] theorem note_inbound : (b.note event).inbound = b.inbound := rfl
@[simp] theorem note_eventLog : (b.note event).eventLog = b.eventLog := rfl
@[simp] theorem note_mirroredCount : (b.note event).mirroredCount = b.mirroredCount := rfl
@[simp] theorem note_pending :
    (b.note event).pendingEngineEnvelopes = b.pendingEngineEnvelopes := rfl

end Fields

theorem note_eq {event : Event} (h : event.published? = none) : b.note event = b.hear [event] := by
  simp [note,hear,published,h]

/-! Calls into Lua. -/

theorem enqueue_eq (w : World) (b : Broker) (target : PluginName) (lines : List String) :
    ∃ event, b.enqueue w target lines = b.hear [event] ∧ ByLua b.conns event := by
  unfold enqueue
  split
  · rename_i hroute
    split
    · exact ⟨_,note_eq rfl,.delivered target lines hroute⟩
    · exact ⟨_,note_eq rfl,.refused target lines _⟩
  · exact ⟨_,note_eq rfl,.refused target lines _⟩

theorem perform_eq (w : World) (b : Broker) (op : Op) :
    ∃ events : History, b.perform w op = b.hear events ∧ ∀ e ∈ events, ByLua b.conns e := by
  cases op with
  | send target payload =>
    simp only [perform,send]
    cases admitFrame payload with
    | error error => exact ⟨[],by simp,by simp⟩
    | ok payload => exact ⟨_,publish_eq _ _,by simpa using .sent target payload⟩
  | deliver target payload =>
    simp only [perform,deliver]
    cases admitFrame payload with
    | error error => exact ⟨_,note_eq rfl,by simpa using .refused target _ error⟩
    | ok payload =>
      obtain ⟨event,he,hlua⟩ := enqueue_eq w b target [withTrailingNewline payload]
      exact ⟨_,he,by simpa using hlua⟩
  | deliverBatch target payloads =>
    simp only [perform,deliverBatch]
    cases payloads.mapM admitFrame with
    | error error => exact ⟨_,note_eq rfl,by simpa using .refused target _ error⟩
    | ok payloads =>
      obtain ⟨event,he,hlua⟩ := enqueue_eq w b target (payloads.map withTrailingNewline)
      exact ⟨_,he,by simpa using hlua⟩

/-- A call changes nothing but the log. -/
theorem enter_eq (w : World) (call : Call) (b : Broker) : ∃ events : History,
    enter w call b = b.hear (.entered call b.conns b.opened :: events) ∧
      ∀ e ∈ events, ByLua b.conns e := by
  have hfold : ∀ (ops : List Op) (b : Broker), ∃ events : History,
      ops.foldl (perform w) b = b.hear events ∧ ∀ e ∈ events, ByLua b.conns e := by
    intro ops
    induction ops with
    | nil => exact fun b => ⟨[],by simp,by simp⟩
    | cons op rest ih =>
      intro b
      obtain ⟨first,hfirst,hlua⟩ := perform_eq w b op
      obtain ⟨more,hmore,hluas⟩ := ih (b.hear first)
      refine ⟨first ++ more,?_,?_⟩
      · rw [List.foldl_cons,hfirst,hmore,hear_hear]
      · intro e he
        rcases List.mem_append.mp he with he | he
        · exact hlua e he
        · exact hluas e he
  obtain ⟨events,hevents,hlua⟩ := hfold (w.react (b.note (.entered call b.conns b.opened)).history)
    (b.note (.entered call b.conns b.opened))
  refine ⟨events,Eq.trans hevents ?_,hlua⟩
  rw [note_eq rfl,hear_hear]
  rfl

/-- Calls into Lua one after the other, and what Lua did during each. -/
inductive Spoken (routed opened : List PluginName) : List Call → History → Prop
  | nil : Spoken routed opened [] []
  | cons {call : Call} {calls : List Call} {events more : History}
      (h : ∀ e ∈ events, ByLua routed e) (k : Spoken routed opened calls more) :
      Spoken routed opened (call :: calls) (.entered call routed opened :: (events ++ more))

theorem Spoken.append {routed opened : List PluginName} {calls calls' : List Call} {h k : History}
    (hh : Spoken routed opened calls h) (hk : Spoken routed opened calls' k) :
    Spoken routed opened (calls ++ calls') (h ++ k) := by
  induction hh with
  | nil => exact hk
  | cons hl _ ih =>
    rw [List.cons_append,List.cons_append,List.append_assoc]
    exact .cons hl ih

theorem Spoken.mem {routed opened : List PluginName} {calls : List Call} {h : History}
    (hh : Spoken routed opened calls h) {e : Event} (he : e ∈ h) :
    (∃ call ∈ calls, e = .entered call routed opened) ∨ ByLua routed e := by
  induction hh with
  | nil => cases he
  | @cons call calls events more hl _ ih =>
    rcases List.mem_cons.mp he with rfl | he
    · exact .inl ⟨call,by simp,rfl⟩
    · rcases List.mem_append.mp he with he | he
      · exact .inr (hl e he)
      · exact (ih he).imp_left fun ⟨call,hc,hk⟩ => ⟨call,List.mem_cons_of_mem _ hc,hk⟩

/-- What is read off the calls alone. -/
theorem Spoken.filterMap {α : Type} {f : Event → Option α} {routed opened : List PluginName}
    {calls : List Call} {h : History} (hf : ∀ e, ByLua routed e → f e = none)
    (hh : Spoken routed opened calls h) :
    h.filterMap f = calls.filterMap fun call => f (.entered call routed opened) := by
  induction hh with
  | nil => rfl
  | @cons call calls events more hl _ ih =>
    have hquiet : events.filterMap f = [] :=
      List.filterMap_eq_nil_iff.mpr fun e he => hf e (hl e he)
    rw [List.filterMap_cons,List.filterMap_cons,List.filterMap_append,hquiet,List.nil_append,ih]

theorem enter_spoken (w : World) (call : Call) (b : Broker) :
    ∃ h, enter w call b = b.hear h ∧ Spoken b.conns b.opened [call] h := by
  obtain ⟨events,he,hlua⟩ := enter_eq w call b
  refine ⟨_,he,?_⟩
  rw [← List.append_nil events]
  exact .cons hlua .nil

/-- A round of dispatch: both hooks hear the tail of the log. -/
theorem dispatchTail_spoken (w : World) (b : Broker) : ∃ h,
    dispatchTail w b = Broker.hear { b with mirroredCount := b.eventLog.length } h ∧
      Spoken b.conns b.opened [.dispatch (b.eventLog.drop b.mirroredCount),
        .subscriptions (b.eventLog.drop b.mirroredCount)] h := by
  unfold dispatchTail
  simp only
  obtain ⟨first,hfirst,hspoken⟩ := enter_spoken w (.dispatch (b.eventLog.drop b.mirroredCount))
    { b with mirroredCount := b.eventLog.length }
  obtain ⟨more,hmore,hspoken'⟩ := enter_spoken w (.subscriptions (b.eventLog.drop b.mirroredCount))
    (Broker.hear { b with mirroredCount := b.eventLog.length } first)
  rw [hfirst,hmore,hear_hear]
  exact ⟨_,rfl,hspoken.append hspoken'⟩

theorem passLines_spoken (w : World) (peers : List (PluginName × List String)) (b : Broker) :
    ∃ h, peers.foldl (passLines w) b = b.hear h ∧ Spoken b.conns b.opened
      ((peers.filter fun peer => peer.2 ≠ []).map fun peer => .fromPlugin peer.1 peer.2) h := by
  induction peers generalizing b with
  | nil => exact ⟨[],by simp,.nil⟩
  | cons peer rest ih =>
    rw [List.foldl_cons,passLines,List.filter_cons]
    split
    · rename_i hempty
      simpa [hempty] using ih b
    · rename_i hlines
      obtain ⟨first,hfirst,hspoken⟩ := enter_spoken w (.fromPlugin peer.1 peer.2) b
      obtain ⟨more,hmore,hspoken'⟩ := ih (b.hear first)
      refine ⟨first ++ more,?_,?_⟩
      · rw [hfirst,hmore,hear_hear]
      · simpa [hlines] using hspoken.append hspoken'

/-! Messages of the readers. -/

def withInbound (b : Broker) (left : ConnectionId → List ConnectionInbound) : Broker :=
  { b with inbound := left }

@[simp] theorem withInbound_history (left : ConnectionId → List ConnectionInbound) :
    (b.withInbound left).history = b.history := rfl

theorem tryRecv_eq {first : ConnectionId × ConnectionInbound} (h : tryRecv w b = some (first,b')) :
    ∃ rest, b.inbound first.1 = first.2 :: rest ∧
      b' = (b.withInbound (Function.update b.inbound first.1 rest)).hear [.received first.1 first.2] := by
  obtain ⟨id,-,h⟩ := Option.bind_eq_some_iff.mp h
  cases hi : b.inbound id with
  | nil => simp [hi] at h
  | cons message rest =>
    simp only [hi,Option.some.injEq,Prod.mk.injEq] at h
    obtain ⟨rfl,rfl⟩ := h
    exact ⟨rest,hi,note_eq rfl⟩

/-- The messages are taken from the readers, each in its order. -/
def Taken (messages : List (ConnectionId × ConnectionInbound))
    (inbound left : ConnectionId → List ConnectionInbound) : Prop :=
  ∀ id, (messages.filter (·.1 = id)).map (·.2) ++ left id = inbound id

theorem taken_cons {first : ConnectionId × ConnectionInbound}
    {messages : List (ConnectionId × ConnectionInbound)} {rest : List ConnectionInbound}
    {inbound left : ConnectionId → List ConnectionInbound} (hi : inbound first.1 = first.2 :: rest)
    (h : Taken messages (Function.update inbound first.1 rest) left) :
    Taken (first :: messages) inbound left := by
  intro id
  have hid := h id
  by_cases he : first.1 = id
  · subst he
    rw [Function.update_self] at hid
    simp [hid,hi]
  · rw [Function.update_of_ne (Ne.symm he)] at hid
    simp [hid,he]

def receipts (messages : List (ConnectionId × ConnectionInbound)) : History :=
  messages.map fun message => .received message.1 message.2

@[simp] theorem published_receipts (messages : List (ConnectionId × ConnectionInbound)) :
    published (receipts messages) = [] := by
  apply List.filterMap_eq_nil_iff.mpr
  intro e he
  obtain ⟨message,-,rfl⟩ := List.mem_map.mp he
  rfl

theorem burst_eq (w : World) (more : Nat) (b : Broker) : ∃ left,
    (burst w more b).2 = (b.withInbound left).hear (receipts (burst w more b).1) ∧
      Taken (burst w more b).1 b.inbound left := by
  induction more generalizing b with
  | zero => exact ⟨b.inbound,by simp [burst,receipts,withInbound],fun id => by simp [burst]⟩
  | succ more ih =>
    rw [burst]
    cases hr : tryRecv w b with
    | none => exact ⟨b.inbound,by simp [receipts,withInbound],fun id => by simp⟩
    | some got =>
      obtain ⟨first,b'⟩ := got
      obtain ⟨rest,hi,rfl⟩ := tryRecv_eq hr
      obtain ⟨left,heq,htaken⟩ := ih
        ((b.withInbound (Function.update b.inbound first.1 rest)).hear [.received first.1 first.2])
      refine ⟨left,Eq.trans heq ?_,taken_cons hi htaken⟩
      exact hear_hear (b.withInbound left) [.received first.1 first.2] _

/-- The lines of a tick are received, sorted and passed on. -/
theorem passBatch_eq {first : ConnectionId × ConnectionInbound}
    (h : tryRecv w b = some (first,b')) : ∃ left spoken,
    passBatch w first b' =
        (b.withInbound left).hear (receipts (first :: (burst w 255 b').1) ++ spoken) ∧
      Taken (first :: (burst w 255 b').1) b.inbound left ∧
      Spoken b.conns b.opened (((batch w first b').lines.filter fun peer => peer.2 ≠ []).map
        fun peer => .fromPlugin peer.1 peer.2) spoken := by
  obtain ⟨rest,hi,rfl⟩ := tryRecv_eq h
  obtain ⟨left,hburst,htaken⟩ := burst_eq w 255
    ((b.withInbound (Function.update b.inbound first.1 rest)).hear [.received first.1 first.2])
  unfold passBatch
  rw [hburst]
  obtain ⟨spoken,hpass,hspoken⟩ := passLines_spoken w _ _
  refine ⟨left,spoken,hpass.trans ?_,taken_cons hi htaken,hspoken⟩
  exact (congrArg (·.hear spoken) (hear_hear (b.withInbound left) _ _)).trans (hear_hear _ _ _)

end Broker

/-- The report of its end that a connection closes upon. -/
def Told (h : History) (id : ConnectionId) : Prop :=
  .received id (.closed .eof) ∈ h ∨ ∃ request, .shutdownRequested request ∈ h

open Broker in
/-- One act of the broker. -/
inductive Act (w : World) : Broker → Broker → Prop
  | enter (b : Broker) (call : Call)
      (h : call = .cooperativeTask ∨ call = .runtimeCallback ∨ call = .shutdown) :
      Act w b (enter w call b)
  | dispatchTail (b : Broker) (h : b.mirroredCount < b.eventLog.length) : Act w b (dispatchTail w b)
  | publishEngineEnvelopes (b : Broker) : Act w b b.publishEngineEnvelopes
  | queue (b : Broker) (fact : Fact)
      (h : fact = .interruptRequested ∨ ∃ plugin count, fact = .deliveryLost plugin count) :
      Act w b (b.queueEngineEnvelope fact)
  | shutdownRequested (b : Broker) (request : ShutdownRequest) :
      Act w b (b.note (.shutdownRequested request))
  | forceClose (b : Broker) (id : ConnectionId) (h : Told b.history id) : Act w b (b.forceClose w id)
  | recordFailure {b : Broker} {id : ConnectionId} {record : ConnectionRecord} (phase kind : String)
      (hr : b.connsById id = some record) (hf : record.transportFailure = none) :
      Act w b (b.recordFailure w id record.name phase kind)
  | remove {b : Broker} {id : ConnectionId} {record : ConnectionRecord}
      (hr : b.connsById id = some record) (hw : record.hasWatcher = false)
      (hc : record.closing = true) : Act w b (b.remove id)
  | expire (b : Broker) (id : ConnectionId) : Act w b (b.expire id)
  | fireTerminate (b : Broker) (id : ConnectionId) : Act w b (b.fireTerminate id)
  | discard {b : Broker} {id : ConnectionId} {record : ConnectionRecord}
      (hr : b.connsById id = some record) (hw : record.hasWatcher = false)
      (hs : ∃ request, .shutdownRequested request ∈ b.history) :
      Act w b ((b.remove id).unroute record.name)
  | reportExit {b : Broker} {id : ConnectionId} {record : ConnectionRecord} {outcome : ExitOutcome}
      (hr : b.connsById id = some record)
      (he : record.pendingExit = some outcome ∨ ∃ request, .shutdownRequested request ∈ b.history) :
      Act w b (b.reportExit id record.name outcome)
  | waits (b : Broker) (tasks : Bool) : Act w b (b.note (.waits tasks))

/-- A move of the broker: an act, or the handling of what a task of a connection has sent. -/
inductive Move (w : World) : Broker → Broker → Prop
  | act {b b' : Broker} (h : Act w b b') : Move w b b'
  | tick {b b' : Broker} {first : ConnectionId × ConnectionInbound}
      (h : b.tryRecv w = some (first,b')) : Move w b (b'.handleInboundTick w first)
  | exit (b : Broker) (id : ConnectionId) (outcome : ExitOutcome) :
      Move w b ((b.note (.exited id outcome)).handleExit w id outcome)

end Nefor.Ncp
