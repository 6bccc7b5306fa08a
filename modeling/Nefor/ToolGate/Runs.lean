import Nefor.ToolGate.Turns

/-! Runs of the gate. The books stay even as long as the gate runs; when it ends, the sources of the
calls that are left are told, once each. -/
namespace Nefor.ToolGate
open Json (Object)
open Nefor.Action (Ends)
open Entry (invokes answers requests cancels sourceAnswers refuses ends)

variable {link : Link} {displayContract : Json → Except String Unit} {denied : List String}
  {s : Session} {i o : String} {body : Object}

/-! Closing. -/

/-- The calls that are left have not been ended; the ids in `P` are left or ended once. -/
structure Closing (P : String → Prop) (entries : List (Σ _ : String, PendingForward)) (s : Session) :
    Prop where
  nodup : entries.NodupKeys
  left : ∀ e ∈ entries, s.count (ends e.1) = 0
  once : ∀ i, s.count (ends i) ≤ 1
  covered : ∀ i, P i → i ∈ entries.keys ∨ s.count (ends i) = 1

theorem Closing.cancel {P : String → Prop} {e : Σ _ : String, PendingForward}
    {rest : List (Σ _ : String, PendingForward)} {name : String} (h : Closing P (e :: rest) s) :
    Closing P rest (s.push (.sent (.cancel name e.1) none)) := by
  obtain ⟨hn,hnodup⟩ := List.nodupKeys_cons.mp h.nodup
  have hcount : ∀ i, (s.push (.sent (.cancel name e.1) none)).count (ends i) =
      s.count (ends i) + if e.1 = i then 1 else 0 := by
    intro i
    simp [ends,cancels,sourceAnswers,refuses]
  have hzero := h.left e List.mem_cons_self
  refine ⟨hnodup,fun e' he' => ?_,fun i => ?_,fun i hi => ?_⟩
  · have hne : e.1 ≠ e'.1 := fun he => hn (he ▸ List.mem_map_of_mem he')
    rw [hcount,if_neg hne]
    exact h.left e' (List.mem_cons_of_mem _ he')
  · rw [hcount]
    split
    · rename_i he
      rw [← he,hzero]
    · exact h.once i
  · rw [hcount]
    by_cases he : e.1 = i
    · exact .inr (by rw [if_pos he,← he,hzero])
    · rw [if_neg he]
      refine (h.covered i hi).imp_left fun hk => ?_
      exact (List.mem_cons.mp hk).resolve_left (Ne.symm he)

theorem Closing.quiet {P : String → Prop} {entries : List (Σ _ : String, PendingForward)} {e : Entry}
    (h : Closing P entries s) (he : ∀ i, e.ends i = false) : Closing P entries (s.push e) := by
  have hcount : ∀ i, (s.push e).count (ends i) = s.count (ends i) := by
    intro i
    simp [he]
  exact ⟨h.nodup,fun e he => by rw [hcount]; exact h.left e he,fun i => by rw [hcount]; exact h.once i,
    fun i hi => by rw [hcount]; exact h.covered i hi⟩

theorem cancelAll (link : Link) {P : String → Prop} {entries : List (Σ _ : String, PendingForward)}
    (h : Closing P entries s) :
    Ends (sendAll link (entries.map fun e => .cancel e.2.source e.1)) (fun _ s' => Closing P [] s')
      (fun _ s' => ∃ rest, Closing P rest s') s := by
  induction entries generalizing s with
  | nil => exact h
  | cons e rest ih =>
    obtain ⟨outcome,_,hs⟩ := checkedSend_apply link (.cancel e.2.source e.1) s
    rw [List.map_cons,sendAll_cons,Action.ends_bind,Ends,
      sendEvent_apply (Frame.terminalId_cancel _ _),hs]
    cases outcome with
    | none => exact ih h.cancel
    | some err => exact ⟨_,h.quiet (quiet_refused err rfl).ends⟩

/-- A frame that only closes. -/
def parting : Frame → Bool
  | .cancel _ _ => true
  | .goodbye => true
  | _ => false

theorem close_sends (link : Link) (result : Except TransportError Unit) (s : Session) :
    Sends parting (close link result) s := by
  rw [close,sends_read]
  have hall : Sends parting (Action.attempt
      (sendAll link (s.state.pending.entries.map fun e => .cancel e.2.source e.1))) s := by
    refine sendAll_sends (fun frame hframe => ?_) (fun frame hframe o ho => ?_) s
    · obtain ⟨e,_,rfl⟩ := List.mem_map.mp hframe
      rfl
    · obtain ⟨e,_,rfl⟩ := List.mem_map.mp hframe
      rw [Frame.terminalId_cancel] at ho
      cases ho
  refine hall.bind fun canceled s₁ _ => sends_update.mpr ?_
  split
  · exact .none rfl
  · exact .none rfl
  · exact sendEvent_sends rfl fun o ho => by rw [Frame.terminalId_goodbye] at ho; cases ho

/-- Nothing is kept. -/
def GateState.cleared (s : GateState) : GateState :=
  { s with pending := ∅, preparing := ∅, awaitingApproval := ∅ }

theorem close_cleared (result : Except TransportError Unit) (s : Session) :
    Reaches (· = s.state.cleared) (close link result) s := by
  rw [close,reaches_read]
  refine (sendAll_still link _).attempt fun canceled t ht => reaches_update.mpr ?_
  have hclear : (t.modify GateState.cleared).state = s.state.cleared := by
    rw [Session.modify_state,ht]
  split
  · exact hclear
  · exact hclear
  · exact sendEvent_still.reaches hclear

theorem close_ends (link : Link) {P : String → Prop} (result : Except TransportError Unit)
    (h : Closing P s.state.pending.entries s) :
    Ends (close link result) (fun _ s' => s'.state = s.state.cleared ∧ Closing P [] s')
      (fun _ s' => s'.state = s.state.cleared ∧ ∃ rest, Closing P rest s') s := by
  have hall := cancelAll link h
  have hstill := sendAll_still link
    (s.state.pending.entries.map fun e => .cancel e.2.source e.1) s
  rw [Ends] at hall
  rw [close,Action.ends_bind,Action.ends_read,Action.ends_bind,Ends,Action.attempt_apply]
  cases hr : sendAll link (s.state.pending.entries.map fun e => .cancel e.2.source e.1) s with
  | mk r s₁ =>
    rw [hr] at hall hstill
    have hclear : (s₁.modify GateState.cleared).state = s.state.cleared := by
      rw [Session.modify_state,hstill]
    change Ends _ _ _ s₁
    rw [Action.ends_bind]
    change Ends _ _ _ (s₁.modify GateState.cleared)
    cases result with
    | error e =>
      refine ⟨hclear,?_⟩
      cases r with
      | ok _ => exact ⟨[],hall.nodup,hall.left,hall.once,hall.covered⟩
      | error e =>
        obtain ⟨rest,hrest⟩ := hall
        exact ⟨rest,hrest.nodup,hrest.left,hrest.once,hrest.covered⟩
    | ok _ =>
      cases r with
      | error e =>
        obtain ⟨rest,hrest⟩ := hall
        exact ⟨hclear,rest,hrest.nodup,hrest.left,hrest.once,hrest.covered⟩
      | ok _ =>
        have hdone : Closing P [] (s₁.modify GateState.cleared) :=
          ⟨hall.nodup,hall.left,hall.once,hall.covered⟩
        obtain ⟨outcome,_,hs⟩ := checkedSend_apply link .goodbye (s₁.modify GateState.cleared)
        simp only
        rw [Ends,sendEvent_apply Frame.terminalId_goodbye,hs]
        cases outcome with
        | none => exact ⟨hclear,hdone.quiet fun _ => rfl⟩
        | some e => exact ⟨hclear,[],hdone.quiet fun _ => rfl⟩

/-- What holds of every session, whether it has ended or not. -/
structure Accounted (s : Session) : Prop where
  answered : ∀ o, s.count (answers o) ≤ s.count (invokes o)
  requested : ∀ phase i, s.count (requests phase i) ≤ 1
  minted : ∀ phase i, 0 < s.count (requests phase i) → s.Minted i
  ended : ∀ i, s.count (ends i) ≤ 1

theorem Stopped.accounted (h : Stopped s) : Accounted s := by
  obtain ⟨⟨caller,hc⟩,⟨source,hs⟩,hr⟩ := h
  refine ⟨fun o => (hc.balance o).le,hr.once,fun phase i hpos => ?_,hs.ends_le⟩
  by_contra hn
  rw [hr.fresh hn] at hpos
  omega

theorem Ledger.accounted {caller source : Option String} (h : Ledger s caller source) : Accounted s :=
  h.stopped.accounted

/-- The calls that are left when a handler has failed. -/
theorem Stopped.closing (h : Stopped s) : Closing (fun _ => False) s.state.pending.entries s := by
  obtain ⟨-,⟨source,hs⟩,-⟩ := h
  refine ⟨s.state.pending.nodupKeys,fun e he => ?_,hs.ends_le,fun _ => False.elim⟩
  refine hs.unended (.inr (.inr ?_))
  rw [AList.lookup_isSome]
  exact List.mem_keys.mpr ⟨e.2,he⟩

/-- The calls that are left when the gate is stopped. -/
theorem Ledger.closing (h : Ledger s none none) : Closing s.Minted s.state.pending.entries s := by
  have hclosing := h.stopped.closing
  refine ⟨hclosing.nodup,hclosing.left,hclosing.once,fun i hi => ?_⟩
  by_cases hp : (s.state.pending.lookup i).isSome
  · exact .inl (AList.lookup_isSome.mp hp)
  · refine .inr (h.sources.ended hi ?_)
    rintro (hk | hk)
    · cases hk
    · exact hp hk

/-- Frames that a count ignores do not change it. -/
theorem Sends.count_eq {α : Type} {p : Frame → Bool} {q : Entry → Bool} {m : Handler α}
    (h : Sends p m s) (hq : ∀ frame outcome, p frame → q (.sent frame outcome) = false) :
    (m s).2.count q = s.count q := by
  obtain ⟨sent,hh,hp⟩ := h
  have hzero : (sents sent).countP q = 0 := by
    refine List.countP_eq_zero.mpr fun e he => ?_
    obtain ⟨f,hf,rfl⟩ := List.mem_map.mp he
    simp [hq f.1 f.2 (hp f hf)]
  rw [Session.count,hh.history,List.countP_append,hzero,Session.count,Nat.add_zero]

/-- The books of a session, running or ended. -/
structure Books (s : Session) : Prop where
  running : s.ended = none → Ledger s none none
  accounted : Accounted s
  cleared : s.ended ≠ none → s.state.pending = ∅ ∧ s.state.preparing = ∅ ∧
    s.state.awaitingApproval = ∅
  stopped : s.ended = some (.ok ()) → ∀ i, s.Minted i → s.count (ends i) = 1

theorem finish_books {P : String → Prop} {result : Except TransportError Unit} (h : Stopped s)
    (hc : Closing P s.state.pending.entries s) (hP : result = .ok () → ∀ i, s.Minted i → P i) :
    Books (finish link result s) := by
  have hsends := close_sends link result s
  have hends := close_ends link result hc
  have hans : ∀ o, (close link result s).2.count (answers o) = s.count (answers o) := by
    intro o
    refine hsends.count_eq fun frame outcome hp => ?_
    cases frame <;> first | rfl | cases hp
  have hinv : ∀ o, (close link result s).2.count (invokes o) = s.count (invokes o) :=
    fun o => hsends.count_eq fun _ _ _ => rfl
  have hreq : ∀ phase i, (close link result s).2.count (requests phase i) =
      s.count (requests phase i) := by
    intro phase i
    refine hsends.count_eq fun frame outcome hp => ?_
    cases frame <;> first | rfl | cases hp
  have hres : (close link result s).1 = .ok () → result = .ok () := by
    intro hok
    cases result with
    | ok _ => rfl
    | error e =>
      rw [close] at hok
      cases hok
  rw [Ends] at hends
  rw [finish]
  cases hr : close link result s with
  | mk r s' =>
    rw [hr] at hends hans hinv hreq hres
    have hstate : s'.state = s.state.cleared ∧ ∃ rest, Closing P rest s' := by
      cases r with
      | ok _ => exact hends.imp_right fun h => ⟨_,h⟩
      | error e => exact hends
    obtain ⟨hstate,rest,hrest⟩ := hstate
    refine ⟨fun h => (by cases h),⟨fun o => ?_,fun phase i => ?_,fun phase i hpos => ?_,hrest.once⟩,
      fun _ => ?_,fun hok i hi => ?_⟩
    · exact (hans o).trans_le ((h.accounted.answered o).trans_eq (hinv o).symm)
    · exact (hreq phase i).trans_le (h.accounted.requested phase i)
    · obtain ⟨n,hn,rfl⟩ := h.accounted.minted phase i (hpos.trans_eq (hreq phase i))
      refine ⟨n,?_,rfl⟩
      change n < s'.state.innerIdCounter
      rwa [hstate]
    · change s'.state.pending = ∅ ∧ s'.state.preparing = ∅ ∧ s'.state.awaitingApproval = ∅
      rw [hstate]
      exact ⟨rfl,rfl,rfl⟩
    · obtain rfl : r = .ok () := Option.some.inj hok
      have hminted : s.Minted i := by
        obtain ⟨n,hn,rfl⟩ := hi
        change n < s'.state.innerIdCounter at hn
        rw [hstate] at hn
        exact ⟨n,hn,rfl⟩
      exact (hends.2.covered i (hP (hres rfl) i hminted)).resolve_left (List.not_mem_nil)

/-- The session after an event was handled. -/
def settleEvent (link : Link) (r : Except TransportError Unit) (s : Session) : Session :=
  match r with
  | .ok () => s
  | .error e => finish link (.error e) s

theorem turn_ended {r : Except TransportError Unit} (h : s.ended = some r) (input : Input) :
    turn link displayContract s input = s := by
  unfold turn
  rw [h]

theorem turn_noise (h : s.ended = none) : turn link displayContract s .noise = s := by
  unfold turn
  rw [h]

theorem turn_stop (h : s.ended = none) :
    turn link displayContract s .stop = finish link (.ok ()) s := by
  unfold turn
  rw [h]

theorem turn_fault {e : TransportError} (h : s.ended = none) :
    turn link displayContract s (.fault e) = finish link (.error e) s := by
  unfold turn
  rw [h]

theorem turn_event (h : s.ended = none) :
    turn link displayContract s (.event body) =
      settleEvent link (dispatchEvent link displayContract body (s.push (.heard body))).1
        (dispatchEvent link displayContract body (s.push (.heard body))).2 := by
  have hpush : ({ state := s.state, history := s.history ++ [.heard body] } : Session) =
      s.push (.heard body) := by rw [Session.push,h]
  unfold turn
  rw [h]
  simp only
  rw [hpush]
  cases dispatchEvent link displayContract body (s.push (.heard body)) with
  | mk r s' => cases r <;> rfl

theorem turn_books {input : Input} (h : Books s)
    (ha : ∀ body, input = .event body → s.ended = none → Apart s body)
    (hu : ∀ body, input = .event body → s.ended = none →
      Undisturbed link (s.push (.heard body)) body) :
    Books (turn link displayContract s input) := by
  cases he : s.ended with
  | some r => rwa [turn_ended he]
  | none =>
    have hl := h.running he
    cases input with
    | noise => rwa [turn_noise he]
    | stop =>
      rw [turn_stop he]
      exact finish_books hl.stopped hl.closing fun _ _ hi => hi
    | fault e =>
      rw [turn_fault he]
      exact finish_books hl.stopped hl.stopped.closing fun hok => by cases hok
    | event body =>
      have hs := dispatchEvent_settles displayContract hl (ha body rfl he)
        (hu body rfl he)
      obtain ⟨sent,hgrown,-⟩ := dispatchEvent_asks link displayContract body
        (s.push (.heard body))
      rw [turn_event he]
      rw [Settles,Ends] at hs
      cases hr : dispatchEvent link displayContract body (s.push (.heard body)) with
      | mk r s' =>
        rw [hr] at hs hgrown
        cases r with
        | error e =>
          change Books (finish link (.error e) s')
          exact finish_books hs hs.closing fun hok => by cases hok
        | ok _ =>
          have hrun : s'.ended = none := hgrown.ended.trans he
          change Books s'
          exact ⟨fun _ => hs,hs.accounted,fun h => absurd hrun h,fun h => by simp [hrun] at h⟩

/-! The history. -/

theorem parting_plain {frame : Frame} (h : parting frame) : plain frame := by
  cases frame <;> first | rfl | cases h

/-- The end of the gate adds nothing but frames that part. -/
theorem finish_grows (link : Link) (result : Except TransportError Unit) (s : Session) :
    ∃ sent, (finish link result s).history = s.history ++ sents sent ∧ ∀ e ∈ sent, plain e.1 := by
  obtain ⟨sent,hgrown,hp⟩ := close_sends link result s
  exact ⟨sent,hgrown.history,fun e he => parting_plain (hp e he)⟩

theorem finish_ended (result : Except TransportError Unit) (s : Session) :
    (finish link result s).ended ≠ none := by
  intro h
  cases h

/-- A turn hears its event, and then asks a source at most once. -/
theorem turn_asks (link : Link) (displayContract : Json → Except String Unit) (body : Object)
    (he : s.ended = none) :
    ∃ sent, (turn link displayContract s (.event body)).history =
        s.history ++ .heard body :: sents sent ∧ (∀ e ∈ sent.tail, plain e.1) ∧
      ∀ phase call out, sent.head? = some (.request phase call,out) →
        Warrant s.state body phase call := by
  obtain ⟨sent,hgrown,htail,hhead⟩ := dispatchEvent_asks link displayContract body
    (s.push (.heard body))
  have hhist : (dispatchEvent link displayContract body (s.push (.heard body))).2.history =
      s.history ++ .heard body :: sents sent := by
    rw [hgrown.history]
    exact List.append_assoc ..
  rw [turn_event he]
  cases hr : (dispatchEvent link displayContract body (s.push (.heard body))).1 with
  | ok _ => exact ⟨sent,hhist,htail,hhead⟩
  | error e =>
    obtain ⟨more,hmore,hplain⟩ := finish_grows link (.error e)
      (dispatchEvent link displayContract body (s.push (.heard body))).2
    refine ⟨sent ++ more,?_,?_,?_⟩
    · rw [settleEvent,hmore,hhist,sents_append,List.append_assoc,List.cons_append]
    · intro f hf
      cases sent with
      | nil => exact hplain f (List.mem_of_mem_tail hf)
      | cons first rest => exact (List.mem_append.mp hf).elim (htail f) (hplain f)
    · intro phase call out hf
      cases sent with
      | nil =>
        have := hplain _ (List.mem_of_head? hf)
        cases this
      | cons first rest => exact hhead phase call out hf

/-- A turn that leaves the gate running leaves what its handler leaves. -/
theorem turn_running (he : s.ended = none)
    (hr : (turn link displayContract s (.event body)).ended = none) :
    turn link displayContract s (.event body) =
      (dispatchEvent link displayContract body (s.push (.heard body))).2 := by
  rw [turn_event he] at hr ⊢
  cases hd : (dispatchEvent link displayContract body (s.push (.heard body))).1 with
  | ok _ => rfl
  | error e =>
    rw [hd] at hr
    exact absurd hr (finish_ended _ _)

/-- A caller whose call is pending after a turn was not answered in it. -/
theorem turn_unanswered {t : Session} {sent : List (Frame × Option TransportError)}
    (hs : Ledger s none none) (ha : Apart s body) (ht : Ledger t none none)
    (hgrown : t.history = s.history ++ .heard body :: sents sent) {f : PendingForward}
    (hf : t.state.pending.lookup i = some f) : (sents sent).countP (answers f.outerId) = 0 := by
  have hopen := (ht.callers.balance f.outerId).owing (.inr ⟨i,f,hf,rfl⟩)
  have hle := (hs.callers.balance f.outerId).le_succ
  have hheard : answers f.outerId (.heard body) = false := rfl
  have hsents : (sents sent).countP (invokes f.outerId) = 0 := by
    refine List.countP_eq_zero.mpr fun e he => ?_
    obtain ⟨g,-,rfl⟩ := List.mem_map.mp he
    simp [invokes]
  simp only [hgrown,List.countP_append,List.countP_cons,hheard,hsents] at hopen
  by_cases hinv : invokes f.outerId (.heard body) = true
  · have heven : s.count (invokes f.outerId) = s.count (answers f.outerId) := by
      simp only [invokes,decide_eq_true_eq] at hinv
      exact ha hinv.1 _ hinv.2
    simp only [Session.count] at heven
    simp [hinv] at hopen
    omega
  · simp [hinv] at hopen
    omega

/-! The run. -/

theorem ledger_nil : Ledger { state := { denied } } none none where
  linked := by
    constructor
    · intro i j f g h
      cases h
    · intro i call h
      cases h
    · intro o call h
      cases h
  callers := by
    constructor
    · intro o i f h
      cases h
    · intro o
      refine Balance.nil.congr ⟨False.elim,?_⟩
      rintro (h | ⟨i,f,h,-⟩) <;> cases h
  sources := by
    have hminted : ∀ i, ¬Session.Minted { state := { denied } } i := by
      rintro i ⟨n,hn,-⟩
      cases hn
    constructor
    · rintro i (h | h) <;> cases h
    · intro i h
      cases h
    · intro i h
      exact absurd h (hminted i)
    · intro i _
      rfl
  requests := by
    constructor
    · intro i _ phase
      rfl
    · intro phase i
      exact Nat.zero_le _
    · intro i call _
      rfl
    · intro o call _
      rfl

/-- The start of the gate is no part of the books. -/
theorem start_books (link : Link) (denied : List String) : Books (start link denied) := by
  have hquiet : ∀ frame : Frame, frame = .hello "0.4.0" ∨ frame = .modeChanged .safe →
      frame.terminalId = none ∧ ∀ outcome, (Entry.sent frame outcome).Quiet := by
    rintro frame (rfl | rfl)
    · refine ⟨Frame.terminalId_hello _,?_⟩
      rintro (_ | e) <;> exact ⟨fun _ => rfl,fun _ => rfl,fun _ _ => rfl,fun _ => rfl⟩
    · refine ⟨Frame.terminalId_modeChanged _,?_⟩
      rintro (_ | e) <;> exact ⟨fun _ => rfl,fun _ => rfl,fun _ _ => rfl,fun _ => rfl⟩
  have hsend : ∀ frame, frame = .hello "0.4.0" ∨ frame = .modeChanged .safe → ∀ s,
      Ledger s none none ∧ s.ended = none ∧ s.state = { denied } →
      Ends (sendEvent link frame)
        (fun _ s' => Ledger s' none none ∧ s'.ended = none ∧ s'.state = { denied })
        (fun _ s' => Ledger s' none none ∧ s'.ended = none ∧ s'.state = { denied }) s := by
    rintro frame hf s ⟨hl,he,hst⟩
    obtain ⟨ht,hq⟩ := hquiet frame hf
    obtain ⟨outcome,_,hs⟩ := checkedSend_apply link frame s
    rw [Ends,sendEvent_apply ht,hs]
    cases outcome <;> exact ⟨hl.quiet (hq _),he,hst⟩
  have hall : Ends (sendAll link [.hello "0.4.0",.modeChanged .safe])
      (fun _ s' => Ledger s' none none ∧ s'.ended = none ∧ s'.state = { denied })
      (fun _ s' => Ledger s' none none ∧ s'.ended = none ∧ s'.state = { denied })
      { state := { denied } } := by
    rw [sendAll_cons,Action.ends_bind]
    refine (hsend _ (.inl rfl) _ ⟨ledger_nil,rfl,rfl⟩).mono (fun _ s₁ h₁ => ?_) fun _ _ h₁ => h₁
    rw [sendAll_cons,Action.ends_bind]
    exact (hsend _ (.inr rfl) _ h₁).mono (fun _ _ h₂ => h₂) fun _ _ h₂ => h₂
  rw [Ends] at hall
  unfold start
  simp only
  cases hr : sendAll link [.hello "0.4.0",.modeChanged .safe] { state := { denied } } with
  | mk r s' =>
    rw [hr] at hall
    cases r with
    | ok _ =>
      obtain ⟨hl,he,-⟩ := hall
      exact ⟨fun _ => hl,hl.accounted,fun h => absurd he h,fun h => by simp [he] at h⟩
    | error e =>
      obtain ⟨hl,-,hst⟩ := hall
      have hacc := hl.accounted
      refine ⟨fun h => (by cases h),⟨hacc.answered,hacc.requested,hacc.minted,hacc.ended⟩,fun _ => ?_,
        fun h => by cases h⟩
      change s'.state.pending = ∅ ∧ s'.state.preparing = ∅ ∧ s'.state.awaitingApproval = ∅
      rw [hst]
      exact ⟨rfl,rfl,rfl⟩

section Run
variable (link displayContract denied)

/-- Every event of the run meets the condition when the gate hears it. -/
def Throughout (G : Session → Object → Prop) (inputs : List Input) : Prop :=
  ∀ pre body post, inputs = pre ++ .event body :: post →
    (run link displayContract denied pre).ended = none → G (run link displayContract denied pre) body

/-- The ids of calls that are open at the same time are distinct. -/
def DistinctIds (inputs : List Input) : Prop := Throughout link displayContract denied Apart inputs

/-- The wire never refuses the progress of a call that is still prepared or asked about. -/
def Steady (inputs : List Input) : Prop :=
  Throughout link displayContract denied
    (fun s body => Undisturbed link (s.push (.heard body)) body) inputs

end Run

variable {inputs : List Input} {input : Input}

theorem run_snoc : run link displayContract denied (inputs ++ [input]) =
    turn link displayContract (run link displayContract denied inputs) input := by
  rw [run,List.foldl_append]
  rfl

theorem Throughout.of_append {G : Session → Object → Prop} {more : List Input}
    (h : Throughout link displayContract denied G (inputs ++ more)) :
    Throughout link displayContract denied G inputs := by
  intro pre body post hi
  exact h pre body (post ++ more) (by rw [hi]; simp)

/-- A run meets the condition event by event. -/
theorem throughout_snoc {G : Session → Object → Prop} (inputs : List Input) :
    Throughout link displayContract denied G (inputs ++ [input]) ↔
      Throughout link displayContract denied G inputs ∧ ∀ body, input = .event body →
        (run link displayContract denied inputs).ended = none →
        G (run link displayContract denied inputs) body := by
  constructor
  · refine fun h => ⟨h.of_append,?_⟩
    rintro body rfl
    exact h inputs body [] rfl
  · rintro ⟨h,hlast⟩ pre body post hi
    rcases List.eq_nil_or_concat' post with rfl | ⟨post,last,rfl⟩
    · obtain ⟨rfl,hin⟩ := List.append_inj' hi rfl
      exact hlast body (List.singleton_inj.mp hin)
    · have hi' : inputs ++ [input] = (pre ++ .event body :: post) ++ [last] := by simp [hi]
      exact h pre body post (List.append_inj' hi' rfl).1

theorem throughout_nil {G : Session → Object → Prop} :
    Throughout link displayContract denied G [] := by
  intro pre body post hi
  simp at hi

theorem run_books (ha : DistinctIds link displayContract denied inputs)
    (hu : Steady link displayContract denied inputs) : Books (run link displayContract denied inputs) := by
  induction inputs using List.reverseRecOn with
  | nil => exact start_books link denied
  | append_singleton inputs input ih =>
    rw [run_snoc]
    obtain ⟨ha,hlast⟩ := (throughout_snoc _).mp ha
    obtain ⟨hu,hlast'⟩ := (throughout_snoc _).mp hu
    exact turn_books (ih ha hu) hlast hlast'

end Nefor.ToolGate
