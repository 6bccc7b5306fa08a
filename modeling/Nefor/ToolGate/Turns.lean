import Nefor.ToolGate.Handlers

/-! What one turn of the gate does. It sends at most one request to a source, before anything else
and for a reason, and the maps gain only what that reason accounts for. -/
namespace Nefor.ToolGate
open Json (Object)

variable {link : Link} {displayContract : Json → Except String Unit} {s : Session} {i o : String}
  {f : PendingForward} {call : PendingApproval} {body : Object} {α β : Type}

/-- The entries of sent frames. -/
def sents (sent : List (Frame × Option TransportError)) : List Entry := sent.map fun e => .sent e.1 e.2

theorem sents_append (l r : List (Frame × Option TransportError)) :
    sents (l ++ r) = sents l ++ sents r := List.map_append ..

theorem sents_cons (e : Frame × Option TransportError) (r : List (Frame × Option TransportError)) :
    sents (e :: r) = .sent e.1 e.2 :: sents r := rfl

/-- A frame that asks nothing of a source. -/
def plain : Frame → Bool
  | .request _ _ => false
  | _ => true

/-- The session goes on and the frames are added to its history. -/
structure Grows (s : Session) (sent : List (Frame × Option TransportError)) (t : Session) : Prop where
  history : t.history = s.history ++ sents sent
  ended : t.ended = s.ended

theorem Grows.refl (s : Session) : Grows s [] s := ⟨by simp [sents],rfl⟩

theorem Grows.trans {t u : Session} {l r : List (Frame × Option TransportError)} (h : Grows s l t)
    (h' : Grows t r u) : Grows s (l ++ r) u :=
  ⟨by rw [h'.history,h.history,sents_append,List.append_assoc],h'.ended.trans h.ended⟩

/-- The maps are no part of the history. -/
theorem grows_modify {g : GateState → GateState} {t : Session}
    {sent : List (Frame × Option TransportError)} : Grows (s.modify g) sent t ↔ Grows s sent t :=
  ⟨fun h => ⟨h.history,h.ended⟩,fun h => ⟨h.history,h.ended⟩⟩

/-- The handler sends nothing but frames that the test accepts. -/
def Sends (p : Frame → Bool) (m : Handler α) (s : Session) : Prop :=
  ∃ sent, Grows s sent (m s).2 ∧ ∀ e ∈ sent, p e.1

section Sends
variable {p : Frame → Bool}

theorem Sends.none {m : Handler α} (h : (m s).2 = s) : Sends p m s :=
  ⟨[],h.symm ▸ Grows.refl s,by simp⟩

theorem sends_read {k : Session → Handler α} :
    Sends p (Action.read >>= k) s ↔ Sends p (k s) s := Iff.rfl

theorem sends_update {g : GateState → GateState} {k : Unit → Handler α} :
    Sends p (updateState g >>= k) s ↔ Sends p (k ()) (s.modify g) :=
  exists_congr fun _ => and_congr_left fun _ => grows_modify.symm

theorem updateState_sends {g : GateState → GateState} : Sends p (updateState g) s :=
  ⟨[],⟨by simp [sents],rfl⟩,by simp⟩

theorem Sends.bind {m : Handler α} {k : α → Handler β} (hm : Sends p m s)
    (hk : ∀ a s', m s = (.ok a,s') → Sends p (k a) s') : Sends p (m >>= k) s := by
  obtain ⟨sent,hh,hp⟩ := hm
  cases hr : m s with
  | mk r s' =>
    rw [hr] at hh
    cases r with
    | error e => exact ⟨sent,by rwa [Action.bind_error hr],hp⟩
    | ok a =>
      obtain ⟨sent',hh',hp'⟩ := hk a s' hr
      refine ⟨sent ++ sent',?_,?_⟩
      · rw [Action.bind_ok hr]
        exact hh.trans hh'
      · intro e he
        exact (List.mem_append.mp he).elim (hp e) (hp' e)

theorem checkedSend_sends {frame : Frame} (hf : p frame) : Sends p (checkedSend link frame) s := by
  obtain ⟨outcome,_,hs⟩ := checkedSend_apply link frame s
  exact ⟨[(frame,outcome)],by rw [hs]; exact ⟨rfl,rfl⟩,by simpa using hf⟩

/-- A frame may be replaced by the small answer. -/
theorem sendEvent_sends {frame : Frame} (hf : p frame)
    (ht : ∀ o, frame.terminalId = some o → p (.resultError o outputFailed)) :
    Sends p (sendEvent link frame) s := by
  have hsent : Sends p (Action.attempt (checkedSend link frame)) s := checkedSend_sends hf
  refine hsent.bind fun r s' _ => ?_
  split
  · exact .none rfl
  · split
    · rename_i o ho
      split
      · exact checkedSend_sends (ht o ho)
      · exact .none rfl
    · exact .none rfl

theorem sendAll_sends {frames : List Frame} (hf : ∀ frame ∈ frames, p frame)
    (ht : ∀ frame ∈ frames, ∀ o, frame.terminalId = some o → p (.resultError o outputFailed))
    (s : Session) : Sends p (sendAll link frames) s := by
  induction frames generalizing s with
  | nil => exact .none rfl
  | cons frame rest ih =>
    rw [sendAll_cons]
    refine (sendEvent_sends (hf _ List.mem_cons_self) (ht _ List.mem_cons_self)).bind fun _ s' _ => ?_
    exact ih (fun f h => hf f (List.mem_cons_of_mem _ h)) (fun f h => ht f (List.mem_cons_of_mem _ h)) s'

end Sends

theorem sendEvent_plain {frame : Frame} (hf : plain frame) : Sends plain (sendEvent link frame) s :=
  sendEvent_sends hf fun _ _ => rfl

theorem admissionFailure_plain {e : TransportError} : Sends plain (admissionFailure link o e) s := by
  rw [admissionFailure]
  split
  · exact checkedSend_sends rfl
  · exact .none rfl

/-! Requests. -/

/-- What a request comes to. -/
theorem request_cases (link : Link) (phase : Phase) (call : PendingApproval) (accepted : Handler Unit)
    (s : Session) :
    ∃ outcome t, t = (s.modify fun s =>
        { s with pending := s.pending.insert call.innerId call.forward }).push
          (.sent (.request phase call) outcome) ∧
      (outcome = none ∧ request link phase call accepted s = accepted t ∨
      ∃ e, outcome = some e ∧ request link phase call accepted s =
        admissionFailure link call.outerId e
          (t.modify fun s => { s with pending := s.pending.erase call.innerId })) := by
  obtain ⟨outcome,_,hs⟩ := checkedSend_apply link (.request phase call)
    (s.modify fun s => { s with pending := s.pending.insert call.innerId call.forward })
  refine ⟨outcome,_,rfl,?_⟩
  unfold request
  rw [Action.bind_apply,updateState_apply]
  simp only
  rw [Action.bind_apply,Action.attempt_apply,
    sendEvent_apply (Frame.terminalId_request phase call),hs]
  cases outcome with
  | none => exact .inl ⟨rfl,rfl⟩
  | some e => exact .inr ⟨e,rfl,rfl⟩

/-- The handler asks a source at most once, before anything else, and only as `P` allows. -/
def Asks (P : Phase → PendingApproval → Prop) (m : Handler α) (s : Session) : Prop :=
  ∃ sent, Grows s sent (m s).2 ∧ (∀ e ∈ sent.tail, plain e.1) ∧
    ∀ phase call out, sent.head? = some (.request phase call,out) → P phase call

variable {P : Phase → PendingApproval → Prop}

theorem Sends.asks {m : Handler α} (h : Sends plain m s) : Asks P m s := by
  obtain ⟨sent,hh,hp⟩ := h
  refine ⟨sent,hh,fun e he => hp e (List.mem_of_mem_tail he),fun phase call out hhead => ?_⟩
  have := hp _ (List.mem_of_head? hhead)
  cases this

theorem asks_read {k : Session → Handler α} :
    Asks P (Action.read >>= k) s ↔ Asks P (k s) s := Iff.rfl

theorem asks_update {g : GateState → GateState} {k : Unit → Handler α} :
    Asks P (updateState g >>= k) s ↔ Asks P (k ()) (s.modify g) :=
  exists_congr fun _ => and_congr_left fun _ => grows_modify.symm

theorem request_asks {phase : Phase} {accepted : Handler Unit} (hP : P phase call)
    (ha : ∀ t, Sends plain accepted t) : Asks P (request link phase call accepted) s := by
  obtain ⟨outcome,t,ht,hr⟩ := request_cases link phase call accepted s
  have hgrown : Grows s [(.request phase call,outcome)] t := ht ▸ ⟨rfl,rfl⟩
  have hsends : ∃ sent, Grows t sent (request link phase call accepted s).2 ∧ ∀ e ∈ sent, plain e.1 := by
    rcases hr with ⟨-,hr⟩ | ⟨e,-,hr⟩ <;> rw [hr]
    · exact ha t
    · have hfail : Sends plain (do
          updateState fun s => { s with pending := s.pending.erase call.innerId }
          admissionFailure link call.outerId e) t := sends_update.mpr admissionFailure_plain
      exact hfail
  obtain ⟨sent,hh,hp⟩ := hsends
  refine ⟨(.request phase call,outcome) :: sent,hgrown.trans hh,hp,?_⟩
  rintro _ _ _ ⟨⟩
  exact hP

theorem deny_plain {message : String} : Sends plain (deny link call message) s := by
  rw [deny,sends_update]
  exact (sendEvent_plain rfl).bind fun _ _ _ => sendEvent_plain rfl

/-- Why a source is asked upon an event. -/
inductive Warrant (s : GateState) (body : Object) : Phase → PendingApproval → Prop
  | prepare {call : PendingApproval} (invoked : field body "kind" = some "tool-gate.tool.invoke")
      (admitted : admission s body = .admitted call) (policy : call.approvalPolicy ≠ none) :
      Warrant s body .prepare call
  /-- The workflow was approved as a unit. -/
  | workflow {call : PendingApproval} (invoked : field body "kind" = some "tool-gate.tool.invoke")
      (admitted : admission s body = .admitted call) (policy : call.approvalPolicy = none) :
      Warrant s body .invoke call
  | decided {call : PendingApproval} {i : String} {policy : ApprovalPolicy} {assessment : Assessment}
      {reason : String} (prepared : field body "kind" = some "tool.prepared")
      (id : field body "id" = some i) (preparing : s.preparing.lookup i = some call)
      (stated : call.approvalPolicy = some policy)
      (assessed : assess s.denied call body = .ok (assessment,reason))
      (run : verdict policy s.mode assessment = .run) : Warrant s body .invoke call
  | approved {call : PendingApproval} {o : String}
      (response : field body "kind" = some "tool.permission_response")
      (id : field body "id" = some o) (awaiting : s.awaitingApproval.lookup o = some call)
      (approve : field body "decision" = some "approve") :
      Warrant s body .invoke { call with args := (body.get "args").getD call.args }

theorem handleToolInvoke_asks (hk : field body "kind" = some "tool-gate.tool.invoke") :
    Asks (Warrant s.state body) (handleToolInvoke link body) s := by
  rw [handleToolInvoke,asks_read]
  cases hentry : admission s.state body with
  | dropped => exact (Sends.none rfl).asks
  | rejected o message => exact (sendEvent_plain rfl).asks
  | admitted call =>
    simp only
    rw [asks_update]
    split
    · exact request_asks (.workflow hk hentry ‹_›) fun _ => .none rfl
    · exact request_asks (.prepare hk hentry ‹_›) fun _ => updateState_sends

theorem handleToolPrepared_asks (hk : field body "kind" = some "tool.prepared") :
    Asks (Warrant s.state body) (handleToolPrepared link body) s := by
  rw [handleToolPrepared,asks_read]
  cases hc : (field body "id").bind s.state.preparing.lookup with
  | none => exact (Sends.none rfl).asks
  | some call =>
    obtain ⟨i,hi,hc⟩ := Option.bind_eq_some_iff.mp hc
    simp only
    rw [asks_update]
    cases hp : call.approvalPolicy with
    | none => exact deny_plain.asks
    | some policy =>
      cases ha : assess s.state.denied call body with
      | error problem => exact deny_plain.asks
      | ok verdictOf =>
        obtain ⟨assessment,reason⟩ := verdictOf
        simp only
        cases hv : verdict policy s.state.mode assessment with
        | run => exact request_asks (.decided hk hi hc hp ha hv) fun _ => .none rfl
        | deny => exact deny_plain.asks
        | ask => exact asks_update.mpr (sendEvent_plain rfl).asks

theorem handlePermissionResponse_asks (hk : field body "kind" = some "tool.permission_response") :
    Asks (Warrant s.state body) (handlePermissionResponse link body) s := by
  unfold handlePermissionResponse
  cases hid : field body "id" with
  | none => exact (Sends.none rfl).asks
  | some o =>
    simp only
    rw [asks_read]
    cases hc : s.state.awaitingApproval.lookup o with
    | none => exact (Sends.none rfl).asks
    | some call =>
      simp only
      rw [asks_update]
      split
      · exact request_asks (.approved hk hid hc ‹_›) fun _ => .none rfl
      · exact deny_plain.asks

theorem handleToolCancel_plain : Sends plain (handleToolCancel link body) s := by
  unfold handleToolCancel
  cases field body "id" with
  | none => exact .none rfl
  | some o =>
    simp only
    rw [sends_read,sends_update]
    split
    · exact .none rfl
    · refine Sends.bind (sendAll_sends ?_ (fun _ _ _ _ => rfl) _) fun _ _ _ => sendEvent_plain rfl
      intro frame hframe
      obtain ⟨e,_,rfl⟩ := List.mem_map.mp hframe
      rfl

theorem handleToolStream_plain : Sends plain (handleToolStream link body) s := by
  unfold handleToolStream
  cases field body "id" with
  | none => exact .none rfl
  | some i =>
    simp only
    rw [sends_read]
    cases s.state.pending.lookup i with
    | none => exact .none rfl
    | some f =>
      have hsent : Sends plain (Action.attempt (sendEvent link (.progress f.outerId body))) s :=
        sendEvent_plain rfl
      refine hsent.bind fun r s₁ _ => ?_
      · split
        · exact .none rfl
        · rw [sends_update]
          split
          · exact (sendEvent_plain rfl).bind fun _ _ _ => admissionFailure_plain
          · exact admissionFailure_plain

theorem handleToolResult_plain : Sends plain (handleToolResult link body) s := by
  unfold handleToolResult
  cases field body "id" with
  | none => exact .none rfl
  | some i =>
    simp only
    rw [sends_read]
    cases s.state.pending.lookup i with
    | none => exact .none rfl
    | some f => exact sends_update.mpr (sendEvent_plain rfl)

theorem handleSetMode_plain : Sends plain (handleSetMode link body) s := by
  unfold handleSetMode
  split
  · exact .none rfl
  · exact sends_update.mpr (sendEvent_plain rfl)

theorem handleToolsAdvertise_plain : Sends plain (handleToolsAdvertise link displayContract body) s := by
  unfold handleToolsAdvertise
  split
  · exact sendEvent_plain rfl
  · split
    · exact .none rfl
    · split
      · exact sendEvent_plain rfl
      · rw [sends_read]
        split
        · exact sendEvent_plain rfl
        · exact sends_update.mpr (sendEvent_plain rfl)

theorem dispatchEvent_asks (link : Link) (displayContract : Json → Except String Unit) (body : Object)
    (s : Session) :
    Asks (Warrant s.state body) (dispatchEvent link displayContract body) s := by
  unfold dispatchEvent
  split
  · exact handleToolsAdvertise_plain.asks
  · exact handleToolInvoke_asks ‹_›
  · exact handleToolCancel_plain.asks
  · exact handleToolPrepared_asks ‹_›
  · exact handleToolStream_plain.asks
  · exact handleToolResult_plain.asks
  · exact handlePermissionResponse_asks ‹_›
  · exact handleSetMode_plain.asks
  · exact (Sends.none rfl).asks

/-! What the maps gain. -/

/-- The state the handler leaves has the property. -/
def Reaches (Q : GateState → Prop) (m : Handler α) (s : Session) : Prop := Q (m s).2.state

/-- The handler only sends. -/
def Still (m : Handler α) : Prop := ∀ s, (m s).2.state = s.state

variable {Q : GateState → Prop}

theorem reaches_read {k : Session → Handler α} :
    Reaches Q (Action.read >>= k) s ↔ Reaches Q (k s) s := Iff.rfl

theorem reaches_update {g : GateState → GateState} {k : Unit → Handler α} :
    Reaches Q (updateState g >>= k) s ↔ Reaches Q (k ()) (s.modify g) := Iff.rfl

theorem Still.reaches {m : Handler α} (hm : Still m) (hq : Q s.state) : Reaches Q m s := by
  rwa [Reaches,hm s]

theorem Still.attempt {m : Handler α} {k : Except TransportError α → Handler β} (hm : Still m)
    (hk : ∀ r t, t.state = s.state → Reaches Q (k r) t) : Reaches Q (Action.attempt m >>= k) s :=
  hk _ _ (hm s)

theorem Still.bind {m : Handler α} {k : α → Handler β} (hm : Still m) (hk : ∀ a, Still (k a)) :
    Still (m >>= k) := by
  intro s
  have := hm s
  cases hr : m s with
  | mk r s' =>
    rw [hr] at this
    cases r with
    | error e => rw [Action.bind_error hr,this]
    | ok a => rw [Action.bind_ok hr,hk a s',this]

theorem checkedSend_still {frame : Frame} : Still (checkedSend link frame) := by
  intro s
  obtain ⟨outcome,_,hs⟩ := checkedSend_apply link frame s
  rw [hs,Session.push_state]

theorem sendEvent_still {frame : Frame} : Still (sendEvent link frame) := by
  have hsent : Still (Action.attempt (checkedSend link frame)) := checkedSend_still
  refine hsent.bind fun r => ?_
  split
  · exact fun _ => rfl
  · split
    · split
      · exact checkedSend_still
      · exact fun _ => rfl
    · exact fun _ => rfl

theorem sendAll_still (link : Link) (frames : List Frame) : Still (sendAll link frames) := by
  induction frames with
  | nil => exact fun _ => rfl
  | cons frame rest ih =>
    rw [sendAll_cons]
    exact sendEvent_still.bind fun _ => ih

theorem admissionFailure_still {e : TransportError} : Still (admissionFailure link o e) := by
  rw [admissionFailure]
  split
  · exact checkedSend_still
  · exact fun _ => rfl

theorem deny_reaches {message : String}
    (hq : Q { s.state with pending := s.state.pending.erase call.innerId }) :
    Reaches Q (deny link call message) s := by
  rw [deny,reaches_update]
  exact (sendEvent_still.bind fun _ => sendEvent_still).reaches hq

/-- A request leaves the call pending, or drops it. -/
theorem request_reaches {phase : Phase} {accepted : Handler Unit}
    (ha : ∀ t, t.state = { s.state with
      pending := s.state.pending.insert call.innerId call.forward } → Reaches Q accepted t)
    (hq : Q { s.state with
      pending := (s.state.pending.insert call.innerId call.forward).erase call.innerId }) :
    Reaches Q (request link phase call accepted) s := by
  obtain ⟨outcome,t,rfl,⟨-,hr⟩ | ⟨e,-,hr⟩⟩ := request_cases link phase call accepted s
  · rw [Reaches,hr]
    exact ha _ rfl
  · rw [Reaches,hr]
    exact admissionFailure_still.reaches hq

/-- The event is an invocation and the gate admits it as this call. -/
def Invoked (s : GateState) (body : Object) (call : PendingApproval) : Prop :=
  field body "kind" = some "tool-gate.tool.invoke" ∧ admission s body = .admitted call

/-- The event prepares the call, and the user has to decide about it. -/
structure Asked (s : GateState) (body : Object) (call : PendingApproval) : Prop where
  prepared : field body "kind" = some "tool.prepared"
  preparing : ∃ i, field body "id" = some i ∧ s.preparing.lookup i = some call
  assessed : ∃ policy assessment reason, call.approvalPolicy = some policy ∧
    assess s.denied call body = .ok (assessment,reason) ∧ verdict policy s.mode assessment = .ask

/-- What a turn may leave in the maps. -/
structure Follows (s : GateState) (body : Object) (t : GateState) : Prop where
  pending : ∀ {i f}, t.pending.lookup i = some f → s.pending.lookup i = some f ∨
    ∃ call, Invoked s body call ∧ i = call.innerId ∧ f = call.forward
  preparing : ∀ {i call}, t.preparing.lookup i = some call → s.preparing.lookup i = some call ∨
    Invoked s body call
  awaiting : ∀ {o call}, t.awaitingApproval.lookup o = some call →
    s.awaitingApproval.lookup o = some call ∨ Asked s body call
  counter : s.innerIdCounter ≤ t.innerIdCounter
  denied : t.denied = s.denied

/-- The maps lost entries. -/
structure Shrinks (s t : GateState) : Prop where
  pending : ∀ {i f}, t.pending.lookup i = some f → s.pending.lookup i = some f
  preparing : ∀ {i call}, t.preparing.lookup i = some call → s.preparing.lookup i = some call
  awaiting : ∀ {o call}, t.awaitingApproval.lookup o = some call →
    s.awaitingApproval.lookup o = some call
  counter : s.innerIdCounter = t.innerIdCounter
  denied : t.denied = s.denied

theorem Shrinks.follows {t : GateState} (h : Shrinks s.state t) : Follows s.state body t :=
  ⟨fun h' => .inl (h.pending h'),fun h' => .inl (h.preparing h'),fun h' => .inl (h.awaiting h'),
    h.counter.le,h.denied⟩

theorem lookup_of_erase {α : Type} {m : Table α} {i j : String} {a : α}
    (h : (m.erase i).lookup j = some a) : m.lookup j = some a := by
  rw [lookup_erase_eq] at h
  split at h
  · cases h
  · exact h

theorem lookup_of_foldl_erase {α β : Type} {keys : List (String × β)} {m : Table α} {j : String} {a : α}
    (h : (keys.foldl (fun m e => m.erase e.1) m).lookup j = some a) : m.lookup j = some a := by
  induction keys generalizing m with
  | nil => exact h
  | cons e rest ih => exact lookup_of_erase (ih h)

/-- Inserting what is there, or will be erased again, adds nothing. -/
theorem lookup_of_insert {α : Type} {m : Table α} {i j : String} {a b : α}
    (h : (m.insert i b).lookup j = some a) (hi : m.lookup i = some b) : m.lookup j = some a := by
  rw [lookup_insert_eq] at h
  split at h
  · rename_i hj
    rw [hj,hi,h]
  · exact h

theorem handleToolInvoke_follows (hk : field body "kind" = some "tool-gate.tool.invoke") :
    Reaches (fun t => Follows s.state body t ∧ ∀ call, Invoked s.state body call →
      t.innerIdCounter = s.state.innerIdCounter + 1) (handleToolInvoke link body) s := by
  have hself : Follows s.state body s.state :=
    ⟨.inl,.inl,.inl,le_refl _,rfl⟩
  rw [handleToolInvoke,reaches_read]
  cases hentry : admission s.state body with
  | dropped => exact ⟨hself,fun call h => by simp [Invoked,hentry] at h⟩
  | rejected o message =>
    exact sendEvent_still.reaches ⟨hself,fun call h => by simp [Invoked,hentry] at h⟩
  | admitted call =>
    have hinv : Invoked s.state body call := ⟨hk,hentry⟩
    have hpend : ∀ {i f}, (s.state.pending.insert call.innerId call.forward).lookup i = some f →
        s.state.pending.lookup i = some f ∨
          ∃ call, Invoked s.state body call ∧ i = call.innerId ∧ f = call.forward := by
      intro i f h
      rw [lookup_insert_eq] at h
      split at h
      · exact .inr ⟨call,hinv,‹_›,(Option.some.inj h).symm⟩
      · exact .inl h
    simp only
    rw [reaches_update]
    split
    · refine request_reaches ?_ ⟨⟨fun h => hpend (lookup_of_erase h),.inl,.inl,Nat.le_succ _,rfl⟩,
        fun _ _ => rfl⟩
      intro t ht
      rw [Reaches,Action.pure_apply,ht]
      exact ⟨⟨hpend,.inl,.inl,Nat.le_succ _,rfl⟩,fun _ _ => rfl⟩
    · refine request_reaches ?_ ⟨⟨fun h => hpend (lookup_of_erase h),.inl,.inl,Nat.le_succ _,rfl⟩,
        fun _ _ => rfl⟩
      intro t ht
      rw [Reaches,updateState_apply,Session.modify_state,ht]
      refine ⟨⟨hpend,?_,.inl,Nat.le_succ _,rfl⟩,fun _ _ => rfl⟩
      intro i c h
      rw [Session.modify_state,lookup_insert_eq] at h
      split at h
      · exact .inr (Option.some.inj h ▸ hinv)
      · exact .inl h

/-- Running a call that is pending adds nothing. -/
theorem execute_shrinks {s₀ : GateState} (h : Shrinks s₀ s.state)
    (hp : s₀.pending.lookup call.innerId = some call.forward) :
    Reaches (Shrinks s₀) (execute link call) s := by
  have hpend : ∀ {i f}, (s.state.pending.insert call.innerId call.forward).lookup i = some f →
      s₀.pending.lookup i = some f := by
    intro i f hi
    rw [lookup_insert_eq] at hi
    split at hi
    · rename_i he
      rw [he,hp,hi]
    · exact h.pending hi
  refine request_reaches (fun t ht => ?_) ?_
  · change Shrinks s₀ t.state
    rw [ht]
    exact ⟨hpend,h.preparing,h.awaiting,h.counter,h.denied⟩
  · exact ⟨fun h => hpend (lookup_of_erase h),h.preparing,h.awaiting,h.counter,h.denied⟩

theorem deny_shrinks {s₀ : GateState} {message : String} (h : Shrinks s₀ s.state) :
    Reaches (Shrinks s₀) (deny link call message) s :=
  deny_reaches ⟨fun h' => h.pending (lookup_of_erase h'),h.preparing,h.awaiting,h.counter,h.denied⟩

theorem Shrinks.refl (s : GateState) : Shrinks s s := ⟨id,id,id,rfl,rfl⟩

theorem handleToolPrepared_follows (hl : Linked s.state)
    (hk : field body "kind" = some "tool.prepared") :
    Reaches (Follows s.state body) (handleToolPrepared link body) s := by
  rw [handleToolPrepared,reaches_read]
  cases hc : (field body "id").bind s.state.preparing.lookup with
  | none => exact (Shrinks.refl _).follows
  | some call =>
    obtain ⟨i,hi,hc⟩ := Option.bind_eq_some_iff.mp hc
    obtain ⟨hid,hp,-⟩ := hl.preparing hc
    rw [← hid] at hp
    have hs : Shrinks s.state (s.modify fun s =>
        { s with preparing := s.preparing.erase ((field body "id").getD "") }).state :=
      ⟨id,lookup_of_erase,id,rfl,rfl⟩
    have hdeny : ∀ message, Reaches (Follows s.state body) (deny link call message) (s.modify fun s =>
        { s with preparing := s.preparing.erase ((field body "id").getD "") }) :=
      fun message => (deny_shrinks hs :).follows
    simp only
    rw [reaches_update]
    cases hpol : call.approvalPolicy with
    | none => exact hdeny _
    | some policy =>
      cases ha : assess s.state.denied call body with
      | error problem => exact hdeny _
      | ok verdictOf =>
        obtain ⟨assessment,reason⟩ := verdictOf
        simp only
        cases hv : verdict policy s.state.mode assessment with
        | run => exact (execute_shrinks hs hp :).follows
        | deny => exact hdeny _
        | ask =>
          refine reaches_update.mpr (sendEvent_still.reaches ?_)
          refine ⟨.inl,fun h => .inl (lookup_of_erase h),?_,le_refl _,rfl⟩
          intro o c h
          rw [Session.modify_state,Session.modify_state,lookup_insert_eq] at h
          split at h
          · cases h
            exact .inr ⟨hk,⟨i,hi,hc⟩,_,_,_,hpol,ha,hv⟩
          · exact .inl h

theorem handlePermissionResponse_shrinks (hl : Linked s.state) :
    Reaches (Shrinks s.state) (handlePermissionResponse link body) s := by
  unfold handlePermissionResponse
  cases field body "id" with
  | none => exact Shrinks.refl _
  | some o =>
    simp only
    rw [reaches_read]
    cases hc : s.state.awaitingApproval.lookup o with
    | none => exact Shrinks.refl _
    | some call =>
      obtain ⟨-,hp,-⟩ := hl.awaiting hc
      have hs : Shrinks s.state { s.state with
          awaitingApproval := s.state.awaitingApproval.erase o } :=
        ⟨id,id,lookup_of_erase,rfl,rfl⟩
      simp only
      rw [reaches_update]
      split
      · exact execute_shrinks (s := s.modify _) hs hp
      · exact deny_shrinks (s := s.modify _) hs

theorem handleToolCancel_shrinks : Reaches (Shrinks s.state) (handleToolCancel link body) s := by
  unfold handleToolCancel
  cases field body "id" with
  | none => exact Shrinks.refl _
  | some o =>
    have hs : Shrinks s.state { s.state with
        awaitingApproval := s.state.awaitingApproval.erase o
        pending := (forwardsOf s.state o).foldl (fun m e => m.erase e.1) s.state.pending
        preparing := (forwardsOf s.state o).foldl (fun m e => m.erase e.1) s.state.preparing } :=
      ⟨lookup_of_foldl_erase,lookup_of_foldl_erase,lookup_of_erase,rfl,rfl⟩
    simp only
    rw [reaches_read,reaches_update]
    split
    · exact hs
    · exact ((sendAll_still link _).bind fun _ => sendEvent_still).reaches hs

theorem handleToolStream_shrinks : Reaches (Shrinks s.state) (handleToolStream link body) s := by
  unfold handleToolStream
  cases field body "id" with
  | none => exact Shrinks.refl _
  | some i =>
    simp only
    rw [reaches_read]
    cases s.state.pending.lookup i with
    | none => exact Shrinks.refl _
    | some f =>
      refine sendEvent_still.attempt fun r t ht => ?_
      cases r with
      | ok _ =>
        change Shrinks s.state t.state
        rw [ht]
        exact Shrinks.refl _
      | error e =>
        have hs : Shrinks s.state { s.state with pending := s.state.pending.erase i } :=
          ⟨lookup_of_erase,id,id,rfl,rfl⟩
        refine reaches_update.mpr ?_
        have hs' : Shrinks s.state
            (t.modify fun s => { s with pending := s.pending.erase i }).state := by
          rwa [Session.modify_state,ht]
        split
        · exact (sendEvent_still.bind fun _ => admissionFailure_still).reaches hs'
        · exact admissionFailure_still.reaches hs'

theorem handleToolResult_shrinks : Reaches (Shrinks s.state) (handleToolResult link body) s := by
  unfold handleToolResult
  cases field body "id" with
  | none => exact Shrinks.refl _
  | some i =>
    simp only
    rw [reaches_read]
    cases s.state.pending.lookup i with
    | none => exact Shrinks.refl _
    | some f =>
      refine reaches_update.mpr (sendEvent_still.reaches ?_)
      exact ⟨lookup_of_erase,lookup_of_erase,fun h => (lookup_retain.mp h).1,rfl,rfl⟩

theorem handleSetMode_shrinks : Reaches (Shrinks s.state) (handleSetMode link body) s := by
  unfold handleSetMode
  split
  · exact Shrinks.refl _
  · exact reaches_update.mpr (sendEvent_still.reaches ⟨id,id,id,rfl,rfl⟩)

theorem handleToolsAdvertise_shrinks :
    Reaches (Shrinks s.state) (handleToolsAdvertise link displayContract body) s := by
  unfold handleToolsAdvertise
  split
  · exact sendEvent_still.reaches (.refl _)
  · split
    · exact Shrinks.refl _
    · split
      · exact sendEvent_still.reaches (.refl _)
      · rw [reaches_read]
        split
        · exact sendEvent_still.reaches (.refl _)
        · exact reaches_update.mpr (sendEvent_still.reaches ⟨id,id,id,rfl,rfl⟩)

theorem dispatchEvent_follows (link : Link) (displayContract : Json → Except String Unit)
    (body : Object) (hl : Linked s.state) :
    Reaches (fun t => Follows s.state body t ∧ ∀ call, Invoked s.state body call →
      t.innerIdCounter = s.state.innerIdCounter + 1) (dispatchEvent link displayContract body) s := by
  by_cases hk : field body "kind" = some "tool-gate.tool.invoke"
  · rw [dispatchEvent,hk]
    exact handleToolInvoke_follows hk
  · suffices h : Reaches (Follows s.state body) (dispatchEvent link displayContract body) s from
      ⟨h,fun call h => absurd h.1 hk⟩
    unfold dispatchEvent
    split
    · exact (handleToolsAdvertise_shrinks :).follows
    · exact absurd ‹_› hk
    · exact (handleToolCancel_shrinks :).follows
    · exact handleToolPrepared_follows hl ‹_›
    · exact (handleToolStream_shrinks :).follows
    · exact (handleToolResult_shrinks :).follows
    · exact (handlePermissionResponse_shrinks hl :).follows
    · exact (handleSetMode_shrinks :).follows
    · exact (Shrinks.refl _).follows

/-! What a turn ends. -/

/-- The event ends a pending call. -/
inductive Ending (link : Link) (s : Session) (body : Object) : String → Prop
  | result {i : String} (result : field body "kind" = some "tool.result")
      (id : field body "id" = some i) : Ending link s body i
  /-- The call is denied, or cannot be decided. -/
  | denied {i : String} {call : PendingApproval} (prepared : field body "kind" = some "tool.prepared")
      (id : field body "id" = some i) (preparing : s.state.preparing.lookup i = some call)
      (deny : ∀ policy assessment reason, call.approvalPolicy = some policy →
        assess s.state.denied call body = .ok (assessment,reason) →
        verdict policy s.state.mode assessment = .deny) : Ending link s body i
  | refused {o : String} {call : PendingApproval}
      (response : field body "kind" = some "tool.permission_response")
      (id : field body "id" = some o) (awaiting : s.state.awaitingApproval.lookup o = some call)
      (refuse : field body "decision" ≠ some "approve") : Ending link s body call.innerId
  | canceled {i : String} {f : PendingForward} (cancel : field body "kind" = some "tool-gate.tool.cancel")
      (id : field body "id" = some f.outerId) (pending : s.state.pending.lookup i = some f) :
      Ending link s body i
  | progress {i : String} {f : PendingForward} {e : TransportError}
      (stream : field body "kind" = some "tool.stream") (id : field body "id" = some i)
      (pending : s.state.pending.lookup i = some f)
      (refuse : link s.history (Frame.progress f.outerId body).body = some e) : Ending link s body i

theorem lookup_foldl_erase {α β : Type} {keys : List (String × β)} {m : Table α} {j : String}
    (h : j ∈ keys.map (·.1)) : (keys.foldl (fun m e => m.erase e.1) m).lookup j = none := by
  induction keys generalizing m with
  | nil => cases h
  | cons e rest ih =>
    rw [List.foldl_cons]
    by_cases hj : j ∈ rest.map (·.1)
    · exact ih hj
    · have he : j = e.1 := (List.mem_cons.mp h).resolve_right hj
      refine Option.eq_none_iff_forall_ne_some.mpr fun a ha => ?_
      have := lookup_of_foldl_erase ha
      rw [lookup_erase_eq,if_pos he] at this
      cases this

theorem deny_releases {message : String} :
    Reaches (fun t => t.pending.lookup call.innerId = none) (deny link call message) s :=
  deny_reaches (AList.lookup_erase _ _)

theorem dispatchEvent_releases (displayContract : Json → Except String Unit)
    (hl : Linked s.state) (h : Ending link s body i) :
    Reaches (fun t => t.pending.lookup i = none) (dispatchEvent link displayContract body) s := by
  cases h with
  | result hk hid =>
    rw [dispatchEvent,hk]
    simp only
    rw [handleToolResult,hid]
    simp only
    rw [reaches_read]
    cases hp : s.state.pending.lookup i with
    | none => exact hp
    | some f => exact reaches_update.mpr (sendEvent_still.reaches (AList.lookup_erase _ _))
  | @denied i call hk hid hr hd =>
    obtain ⟨hi,-⟩ := hl.preparing hr
    rw [dispatchEvent,hk]
    simp only
    rw [handleToolPrepared,reaches_read,hid,Option.bind_some,hr]
    simp only
    rw [reaches_update,← hi]
    cases hpol : call.approvalPolicy with
    | none => exact deny_releases
    | some policy =>
      cases ha : assess s.state.denied call body with
      | error problem => exact deny_releases
      | ok verdictOf =>
        obtain ⟨assessment,reason⟩ := verdictOf
        simp only [hd _ _ _ hpol ha]
        exact deny_releases
  | @refused o call hk hid ha hd =>
    rw [dispatchEvent,hk]
    simp only
    rw [handlePermissionResponse,hid]
    simp only
    rw [reaches_read,ha]
    simp only
    rw [reaches_update,if_neg hd]
    exact deny_releases
  | @canceled i f hk hid hp =>
    rw [dispatchEvent,hk]
    simp only
    rw [handleToolCancel,hid]
    simp only
    rw [reaches_read,reaches_update]
    have hmem : i ∈ (forwardsOf s.state f.outerId).map (·.1) :=
      List.mem_map.mpr ⟨(i,f.source),mem_forwardsOf.mpr ⟨f,hp,rfl,rfl⟩,rfl⟩
    split
    · exact lookup_foldl_erase hmem
    · exact ((sendAll_still link _).bind fun _ => sendEvent_still).reaches (lookup_foldl_erase hmem)
  | @progress i f e hk hid hp hrefuse =>
    rw [dispatchEvent,hk]
    simp only
    rw [handleToolStream,hid]
    simp only
    rw [reaches_read,hp]
    simp only
    obtain ⟨outcome,hout,hs⟩ := checkedSend_apply link (.progress f.outerId body) s
    obtain rfl : outcome = some e := hout.symm.trans hrefuse
    rw [Reaches,Action.bind_apply,Action.attempt_apply,
      sendEvent_apply (Frame.terminalId_progress hk),hs]
    change Reaches (fun t => t.pending.lookup i = none)
      (if e.refusal = true then do
        sendEvent link (.cancel f.source i)
        admissionFailure link f.outerId e
      else admissionFailure link f.outerId e)
      ((s.push (.sent (.progress f.outerId body) (some e))).modify
        fun s => { s with pending := s.pending.erase i })
    split
    · exact (sendEvent_still.bind fun _ => admissionFailure_still).reaches (AList.lookup_erase _ _)
    · exact admissionFailure_still.reaches (AList.lookup_erase _ _)

end Nefor.ToolGate
