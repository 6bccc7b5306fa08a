import Nefor.ToolGate.Ledger

/-! Every handler keeps the books: a call that ends is answered once, its source hears of it, and
nothing is kept of it. -/
namespace Nefor.ToolGate
open Json (Object)
open Nefor.Action (Ends)
open Entry (invokes answers requests cancels sourceAnswers refuses ends)

variable {link : Link} {s : Session} {caller source : Option String} {e : Entry} {i o : String}
  {f : PendingForward} {call : PendingApproval} {body : Object}

/-- After a failure the books are as they were at some point of the handler. -/
structure Stopped (s : Session) : Prop where
  callers : ∃ caller, Callers s caller
  sources : ∃ source, Sources s source
  requests : Requests s

theorem Ledger.stopped (h : Ledger s caller source) : Stopped s :=
  ⟨⟨_,h.callers⟩,⟨_,h.sources⟩,h.requests⟩

/-- The handler ends with even books. -/
def Settles (m : Handler Unit) (s : Session) : Prop :=
  Ends m (fun _ s' => Ledger s' none none) (fun _ s' => Stopped s') s

/-! Sending. -/

theorem checkedSend_apply (link : Link) (frame : Frame) (s : Session) :
    ∃ outcome, link s.history frame.body = outcome ∧ checkedSend link frame s =
      (match outcome with | none => .ok () | some e => .error e,s.push (.sent frame outcome)) := by
  refine ⟨_,rfl,?_⟩
  unfold checkedSend
  cases link s.history frame.body <;> rfl

/-- A frame other than a terminal answer is tried once. -/
theorem sendEvent_apply {frame : Frame} (hf : frame.terminalId = none) (s : Session) :
    sendEvent link frame s = checkedSend link frame s := by
  obtain ⟨outcome,_,hs⟩ := checkedSend_apply link frame s
  rw [sendEvent,Action.bind_apply,Action.attempt_apply,hs]
  cases outcome with
  | none => rfl
  | some e => simp [hf]

/-- A terminal answer is replaced when it is refused. -/
theorem sendEvent_terminal (link : Link) {frame : Frame} (hf : frame.terminalId = some o) (s : Session) :
    sendEvent link frame s = (.ok (),s.push (.sent frame none)) ∨
    (∃ e, sendEvent link frame s = (.error e,s.push (.sent frame (some e)))) ∨
    ∃ e, sendEvent link frame s =
      checkedSend link (.resultError o outputFailed) (s.push (.sent frame (some e))) := by
  obtain ⟨outcome,_,hs⟩ := checkedSend_apply link frame s
  rw [sendEvent,Action.bind_apply,Action.attempt_apply,hs]
  cases outcome with
  | none => exact .inl rfl
  | some e =>
    refine .inr ?_
    by_cases he : e.refusal
    · exact .inr ⟨e,by simp [hf,he]⟩
    · exact .inl ⟨e,by simp [hf,he]⟩

/-- What is sent without a part in the books leaves them alone. -/
theorem sendEvent_quiet {frame : Frame} (h : Ledger s caller source) (hf : frame.terminalId = none)
    (hq : ∀ outcome, (Entry.sent frame outcome).Quiet) :
    Ends (sendEvent link frame) (fun _ s' => Ledger s' caller source ∧ s'.state = s.state)
      (fun _ s' => Ledger s' caller source ∧ s'.state = s.state) s := by
  obtain ⟨outcome,_,hs⟩ := checkedSend_apply link frame s
  rw [Ends,sendEvent_apply hf,hs]
  cases outcome <;> exact ⟨h.quiet (hq _),rfl⟩

/-- The frames that count even when they are refused. -/
def booked : Frame → Bool
  | .request _ _ => true
  | .result _ _ => true
  | _ => false

theorem quiet_refused {frame : Frame} (err : TransportError) (h : booked frame = false) :
    (Entry.sent frame (some err)).Quiet := by
  cases frame with
  | request phase call => cases h
  | result pending body => cases h
  | _ => exact ⟨fun _ => rfl,fun _ => rfl,fun _ _ => rfl,fun _ => rfl⟩

/-- The caller in hand is answered. -/
theorem Ledger.answered {message : String} (h : Ledger s (some o) source) :
    Ledger (s.push (.sent (.resultError o message) none)) none source where
  linked := h.linked
  callers := h.callers.answered (fun _ => rfl) fun _ => rfl
  sources := h.sources.quiet fun _ => rfl
  requests := h.requests.quiet fun _ _ => rfl

theorem checkedSend_answer {message : String} (h : Ledger s (some o) source) :
    Ends (checkedSend link (.resultError o message)) (fun _ s' => Ledger s' none source)
      (fun _ s' => Ledger s' (some o) source) s := by
  obtain ⟨outcome,_,hs⟩ := checkedSend_apply link (.resultError o message) s
  rw [Ends,hs]
  cases outcome with
  | none => exact h.answered
  | some e => exact h.quiet (quiet_refused e rfl)

theorem sendEvent_answer {message : String} (h : Ledger s (some o) source) :
    Ends (sendEvent link (.resultError o message)) (fun _ s' => Ledger s' none source)
      (fun _ s' => Ledger s' (some o) source) s := by
  have hq : ∀ e, Ledger (s.push (.sent (.resultError o message) (some e))) (some o) source :=
    fun e => h.quiet (quiet_refused e rfl)
  rcases sendEvent_terminal link (Frame.terminalId_resultError o message) s with
    hs | ⟨e,hs⟩ | ⟨e,hs⟩ <;> rw [Ends,hs]
  · exact h.answered
  · exact hq e
  · exact checkedSend_answer (hq e)

/-- Refused or not, a source's answer ends the call for its source. -/
theorem Ledger.sourceAnswered {pending : PendingForward} (outcome : Option TransportError)
    (h : Ledger s (some pending.outerId) (some i)) (hb : field body "id" = some i) :
    Ledger (s.push (.sent (.result pending body) outcome))
      (if outcome.isNone then none else some pending.outerId) none where
  linked := h.linked
  callers := by
    cases outcome with
    | none => exact h.callers.answered (fun _ => rfl) fun _ => rfl
    | some e => exact h.callers.quiet (fun _ => rfl) fun _ => rfl
  sources := h.sources.done fun j => by
    cases outcome <;> simp [ends,cancels,sourceAnswers,refuses,hb]
  requests := h.requests.quiet fun _ _ => rfl

theorem sendEvent_result {pending : PendingForward}
    (h : Ledger s (some pending.outerId) (some i)) (hb : field body "id" = some i) :
    Settles (sendEvent link (.result pending body)) s := by
  rcases sendEvent_terminal link (Frame.terminalId_result pending body) s with
    hs | ⟨e,hs⟩ | ⟨e,hs⟩ <;> rw [Settles,Ends,hs]
  · exact h.sourceAnswered none hb
  · exact (h.sourceAnswered (some e) hb).stopped
  · exact (checkedSend_answer (h.sourceAnswered (some e) hb)).mono (fun _ _ h => h)
      fun _ _ h => h.stopped

/-- The source in hand is told to drop the call. -/
theorem sendEvent_cancel {name : String} (h : Ledger s caller (some i)) :
    Ends (sendEvent link (.cancel name i)) (fun _ s' => Ledger s' caller none)
      (fun _ s' => Ledger s' caller (some i)) s := by
  obtain ⟨outcome,_,hs⟩ := checkedSend_apply link (.cancel name i) s
  rw [Ends,sendEvent_apply (Frame.terminalId_cancel name i),hs]
  cases outcome with
  | none => exact {
      linked := h.linked
      callers := h.callers.quiet (fun _ => rfl) fun _ => rfl
      sources := h.sources.done fun j => by simp [ends,cancels,sourceAnswers,refuses]
      requests := h.requests.quiet fun _ _ => rfl }
  | some e => exact h.quiet (quiet_refused e rfl)

theorem admissionFailure_settles {err : TransportError} (h : Ledger s (some o) none) :
    Settles (admissionFailure link o err) s := by
  rw [admissionFailure]
  split
  · exact (checkedSend_answer h).mono (fun _ _ h => h) fun _ _ h => h.stopped
  · exact h.stopped

/-! Taking calls out of the maps. -/

theorem lookup_erase_eq {α : Type} (m : Table α) (i j : String) :
    (m.erase i).lookup j = if j = i then none else m.lookup j := by
  by_cases h : j = i
  · subst h
    simp
  · simp [h]

theorem lookup_insert_eq {α : Type} (m : Table α) (i j : String) (a : α) :
    (m.insert i a).lookup j = if j = i then some a else m.lookup j := by
  by_cases h : j = i
  · subst h
    simp
  · simp [h]

theorem lookup_retain {m : Table PendingApproval} {keep : PendingApproval → Bool} {o : String}
    {call : PendingApproval} :
    (retain m keep).lookup o = some call ↔ m.lookup o = some call ∧ keep call = true := by
  have hm : ∀ t : Table PendingApproval, t.lookup o = some call ↔ ⟨o,call⟩ ∈ t.entries :=
    fun t => AList.mem_lookup_iff
  rw [hm,hm]
  simp [retain,List.mem_filter]

/-- A pending call is taken up by a handler. -/
theorem Ledger.take (h : Ledger s none none) (hf : s.state.pending.lookup i = some f)
    {g : GateState → GateState}
    (hp : ∀ j, (g s.state).pending.lookup j = if j = i then none else s.state.pending.lookup j)
    (hc : (g s.state).innerIdCounter = s.state.innerIdCounter)
    (hr : ∀ {j c}, (g s.state).preparing.lookup j = some c →
      j ≠ i ∧ s.state.preparing.lookup j = some c)
    (ha : ∀ {j c}, (g s.state).awaitingApproval.lookup j = some c →
      c.innerId ≠ i ∧ s.state.awaitingApproval.lookup j = some c) :
    Ledger (s.modify g) (some f.outerId) (some i) where
  linked := h.linked.erase hp hr ha
  callers := h.callers.erase h.linked hf hp
  sources := h.sources.erase hf hp hc
  requests := by
    refine h.requests.congr (fun hm => ?_) (fun hj => .inl (hr hj).2) fun hj => .inl (ha hj).2
    obtain ⟨n,hn,rfl⟩ := hm
    exact ⟨n,by rwa [Session.modify_state,hc],rfl⟩

/-- The call is decided: nothing but its forward is kept. -/
structure Decided (s : Session) (call : PendingApproval) : Prop where
  pending : s.state.pending.lookup call.innerId = some call.forward
  preparing : s.state.preparing.lookup call.innerId = none
  awaiting : ∀ {o c}, s.state.awaitingApproval.lookup o = some c → c.innerId ≠ call.innerId
  unsent : s.count (requests .invoke call.innerId) = 0

@[simp] theorem updateState_apply (g : GateState → GateState) (s : Session) :
    updateState g s = (.ok (),s.modify g) := rfl

theorem Decided.minted (hd : Decided s call) (h : Sources s source) : s.Minted call.innerId :=
  h.minted (.inr (by simp [hd.pending]))

/-- The source was asked. -/
theorem Ledger.requested {phase : Phase} (h : Ledger s none none) (hd : Decided s call)
    (hz : s.count (Entry.requests phase call.innerId) = 0) :
    Ledger (s.push (.sent (.request phase call) none)) none none where
  linked := h.linked
  callers := h.callers.quiet (fun _ => rfl) fun _ => rfl
  sources := h.sources.quiet fun _ => rfl
  requests := h.requests.requested (fun _ _ => rfl) (hd.minted h.sources) hz
    (fun _ => hd.preparing) fun _ ha => hd.awaiting ha

theorem Ledger.drop (h : Ledger s none none) (hd : Decided s call) :
    Ledger (s.modify fun s => { s with pending := s.pending.erase call.innerId })
      (some call.outerId) (some call.innerId) := by
  refine h.take hd.pending (lookup_erase_eq _ _) rfl (fun {j c} hj => ⟨?_,hj⟩)
    fun {j c} hj => ⟨hd.awaiting hj,hj⟩
  rintro rfl
  rw [hd.preparing] at hj
  cases hj

/-- The source could not be asked. -/
theorem Ledger.refused {phase : Phase} (h : Ledger s none none) (hd : Decided s call)
    (hz : s.count (Entry.requests phase call.innerId) = 0) (err : TransportError) :
    Ledger ((s.push (.sent (.request phase call) (some err))).modify
      fun s => { s with pending := s.pending.erase call.innerId }) (some call.outerId) none := by
  have hdrop := h.drop hd
  exact {
    linked := hdrop.linked
    callers := hdrop.callers.quiet (e := .sent (.request phase call) (some err))
      (fun _ => rfl) fun _ => rfl
    sources := hdrop.sources.done (e := .sent (.request phase call) (some err)) fun j => by
      simp [ends,cancels,sourceAnswers,refuses]
    requests := hdrop.requests.requested (e := .sent (.request phase call) (some err))
      (fun _ _ => rfl) (hd.minted h.sources) hz (fun _ => hd.preparing) fun _ ha => hd.awaiting ha }

theorem request_settles {phase : Phase} {accepted : Handler Unit} {t : Session}
    (ht : t = s.modify fun s => { s with pending := s.pending.insert call.innerId call.forward })
    (h : Ledger t none none) (hd : Decided t call)
    (hz : t.count (requests phase call.innerId) = 0)
    (ha : Settles accepted (t.push (.sent (.request phase call) none))) :
    Settles (request link phase call accepted) s := by
  obtain ⟨outcome,_,hs⟩ := checkedSend_apply link (.request phase call) t
  rw [Settles,request,Action.ends_bind]
  change Ends _ _ _ (s.modify fun s => { s with pending := s.pending.insert call.innerId call.forward })
  rw [← ht,Action.ends_bind,Ends,Action.attempt_apply,
    sendEvent_apply (Frame.terminalId_request phase call),hs]
  cases outcome with
  | none => exact ha
  | some e => exact admissionFailure_settles (h.refused hd hz e)

/-- The forward of a call that is still pending changes nothing. -/
theorem Ledger.again (h : Ledger s none none) (hd : Decided s call) {t : Session}
    (ht : t = s.modify fun s => { s with pending := s.pending.insert call.innerId call.forward }) :
    Ledger t none none ∧ Decided t call := by
  subst ht
  have hp : ∀ j, (s.state.pending.insert call.innerId call.forward).lookup j =
      s.state.pending.lookup j := by
    intro j
    rw [lookup_insert_eq]
    split
    · rename_i hj
      rw [hj,hd.pending]
    · rfl
  constructor
  · exact {
      linked := {
        unique := fun hj hk => h.linked.unique ((hp _).symm.trans hj) ((hp _).symm.trans hk)
        preparing := fun hc => by
          rw [Session.modify_state,hp]
          exact h.linked.preparing hc
        awaiting := fun hc => by
          rw [Session.modify_state,hp]
          exact h.linked.awaiting hc }
      callers := h.callers.congr hp
      sources := h.sources.congr hp rfl
      requests := h.requests.congr id .inl .inl }
  · exact ⟨(hp _).trans hd.pending,hd.preparing,hd.awaiting,hd.unsent⟩

/-- A call that was decided is run. -/
theorem execute_settles (h : Ledger s none none) (hd : Decided s call) :
    Settles (execute link call) s := by
  obtain ⟨ht,hdt⟩ := h.again hd rfl
  exact request_settles rfl ht hdt hdt.unsent (ht.requested hdt hdt.unsent)

/-- A call that was decided is refused. -/
theorem deny_settles {message : String} (h : Ledger s none none) (hd : Decided s call) :
    Settles (deny link call message) s := by
  rw [Settles,deny,Action.ends_bind]
  change Ends _ _ _ (s.modify fun s => { s with pending := s.pending.erase call.innerId })
  rw [Action.ends_bind]
  refine (sendEvent_answer (h.drop hd)).mono (fun _ s₁ h₁ => ?_) fun _ _ h₁ => h₁.stopped
  exact (sendEvent_cancel h₁).mono (fun _ _ h₂ => h₂) fun _ _ h₂ => h₂.stopped

theorem fail_settles {problem : String} (h : Ledger s none none) (hd : Decided s call) :
    Settles (fail link call problem) s := deny_settles h hd

end Nefor.ToolGate
