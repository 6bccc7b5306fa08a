import Nefor.ToolGate.Decisions

/-! Every call is settled once: its caller is answered once, its source is told once, and the gate
keeps nothing of it. -/
namespace Nefor.ToolGate
open Json (Object)
open Entry (invokes answers requests cancels sourceAnswers refuses ends)

section Statement
variable (link : Link) (displayContract : Json → Except String Unit) (denied : List String)

/-- The books of a session show every call settled. -/
structure Settled (s : Session) : Prop where
  /-- No caller is answered more often than it asked. -/
  once : ∀ o, s.count (answers o) ≤ s.count (invokes o)
  /-- A caller that has been answered left nothing behind. -/
  left : ∀ o, s.count (answers o) = s.count (invokes o) →
    (∀ i f, s.state.pending.lookup i = some f → f.outerId ≠ o) ∧
    (∀ i call, s.state.preparing.lookup i = some call → call.outerId ≠ o) ∧
    ∀ o' call, s.state.awaitingApproval.lookup o' = some call → call.outerId ≠ o
  /-- What waits for a decision is pending under its inner id. -/
  linked : Linked s.state
  /-- A source is told once that its call was dropped, unless it ended the call itself or could not
  be asked. -/
  canceled : s.ended = none ∨ s.ended = some (.ok ()) → ∀ i,
    0 < s.count (requests .prepare i) + s.count (requests .invoke i) →
    s.state.pending.lookup i = none →
    s.count (cancels i) + s.count (sourceAnswers i) + s.count (refuses i) = 1
  canceledOnce : ∀ i, s.count (cancels i) ≤ 1

/-- Every call of the run is settled exactly once. -/
structure SettlesOnce (inputs : List Input) : Prop where
  settled : Settled (run link displayContract denied inputs)
  /-- The events that end a call answer its caller. -/
  answered : ∀ pre body i f, Hears link displayContract denied inputs pre body →
    Ending link ((run link displayContract denied pre).push (.heard body)) body i →
    (run link displayContract denied pre).state.pending.lookup i = some f →
    (run link displayContract denied (pre ++ [.event body])).ended = none →
    (run link displayContract denied (pre ++ [.event body])).count (answers f.outerId) =
      (run link displayContract denied (pre ++ [.event body])).count (invokes f.outerId)
  /-- A refused request answers its caller. -/
  refused : ∀ pre body phase call e rest, Hears link displayContract denied inputs pre body →
    (run link displayContract denied (pre ++ [.event body])).history =
      (run link displayContract denied pre).history ++
        .heard body :: .sent (.request phase call) (some e) :: rest →
    (run link displayContract denied (pre ++ [.event body])).ended = none →
    (run link displayContract denied (pre ++ [.event body])).count (answers call.outerId) =
      (run link displayContract denied (pre ++ [.event body])).count (invokes call.outerId)
  /-- Requests under one inner id are about one invocation. -/
  apart : ∀ phase call outcome phase' call' outcome',
    .sent (.request phase call) outcome ∈ (run link displayContract denied inputs).history →
    .sent (.request phase' call') outcome' ∈ (run link displayContract denied inputs).history →
    call.innerId = call'.innerId →
    ∃ pre body call₀, Hears link displayContract denied inputs pre body ∧
      Invoked (run link displayContract denied pre).state body call₀ ∧
      call.forward = call₀.forward ∧ call'.forward = call₀.forward

end Statement

variable {link : Link} {displayContract : Json → Except String Unit} {denied : List String}
  {inputs pre : List Input} {s : Session} {body : Object} {call : PendingApproval} {i o : String}

/-! Answers. -/

/-- A caller whose calls are not pending has been answered. -/
theorem Ledger.answered_of_closed (h : Ledger s none none)
    (hp : ∀ i f, s.state.pending.lookup i = some f → f.outerId ≠ o) :
    s.count (answers o) = s.count (invokes o) := by
  refine ((h.callers.balance o).even ?_).symm
  rintro (hc | ⟨i,f,hf,ho⟩)
  · cases hc
  · exact hp i f hf ho

/-- The three ways to end a call exclude each other. -/
theorem count_ends (i : String) (s : Session) :
    s.count (ends i) = s.count (cancels i) + s.count (sourceAnswers i) + s.count (refuses i) := by
  simp only [Session.count]
  induction s.history with
  | nil => rfl
  | cons e rest ih =>
    simp only [List.countP_cons,ih,ends]
    rcases e with body | ⟨frame,outcome⟩
    · simp [cancels,sourceAnswers,refuses]
    · cases frame <;> cases outcome <;> simp [cancels,sourceAnswers,refuses] <;> omega

theorem Books.settled (h : Books s) : Settled s := by
  have hacc := h.accounted
  refine ⟨hacc.answered,fun o ho => ?_,?_,fun hend i hreq hp => ?_,fun i => ?_⟩
  · cases hend : s.ended with
    | none =>
      have hl := h.running hend
      have hp : ∀ i f, s.state.pending.lookup i = some f → f.outerId ≠ o := by
        intro i f hf hfo
        exact (hl.callers.balance o).even_iff.mp ho.symm (.inr ⟨i,f,hf,hfo⟩)
      refine ⟨hp,fun i call hc => ?_,fun o' call hc => ?_⟩
      · exact hp _ _ (hl.linked.preparing hc).2.1
      · exact hp _ _ (hl.linked.awaiting hc).2.1
    | some r =>
      obtain ⟨hp,hr,ha⟩ := h.cleared (by rw [hend]; exact Option.some_ne_none r)
      refine ⟨fun i f hf => ?_,fun i call hc => ?_,fun o' call hc => ?_⟩
      · rw [hp] at hf
        cases hf
      · rw [hr] at hc
        cases hc
      · rw [ha] at hc
        cases hc
  · cases hend : s.ended with
    | none => exact (h.running hend).linked
    | some r =>
      obtain ⟨hp,hr,ha⟩ := h.cleared (by rw [hend]; exact Option.some_ne_none r)
      refine ⟨fun hf => ?_,fun hc => ?_,fun hc => ?_⟩
      · rw [hp] at hf
        cases hf
      · rw [hr] at hc
        cases hc
      · rw [ha] at hc
        cases hc
  · have hminted : s.Minted i := by
      by_cases hprep : 0 < s.count (requests .prepare i)
      · exact hacc.minted _ _ hprep
      · exact hacc.minted .invoke i (by omega)
    rw [← count_ends]
    rcases hend with hend | hend
    · refine (h.running hend).sources.ended hminted ?_
      rintro (hk | hk)
      · cases hk
      · simp [hp] at hk
    · exact h.stopped hend i hminted
  · have := hacc.ended i
    rw [count_ends] at this
    omega

/-! Endings. -/

theorem Ending.not_invoked (h : Ending link s body i) :
    field body "kind" ≠ some "tool-gate.tool.invoke" := by
  intro hk
  cases h with
  | result h _ => exact absurd (hk.symm.trans h) (by decide)
  | denied h _ _ _ => exact absurd (hk.symm.trans h) (by decide)
  | refused h _ _ _ => exact absurd (hk.symm.trans h) (by decide)
  | canceled h _ _ => exact absurd (hk.symm.trans h) (by decide)
  | progress h _ _ _ => exact absurd (hk.symm.trans h) (by decide)

/-- After an event that ends a call, its caller has been answered. -/
theorem turn_answered {f : PendingForward} (hs : Ledger s none none) (he : s.ended = none)
    (h : Ending link (s.push (.heard body)) body i) (hf : s.state.pending.lookup i = some f)
    (ht : Ledger (turn link displayContract s (.event body)) none none)
    (hr : (turn link displayContract s (.event body)).ended = none) :
    (turn link displayContract s (.event body)).count (answers f.outerId) =
      (turn link displayContract s (.event body)).count (invokes f.outerId) := by
  obtain ⟨hfollows,-⟩ := dispatchEvent_follows link displayContract body
    (s := s.push (.heard body)) hs.linked
  have hgone := dispatchEvent_releases displayContract
    (s := s.push (.heard body)) hs.linked h
  rw [Reaches,← turn_running he hr] at hgone
  rw [← turn_running he hr] at hfollows
  refine ht.answered_of_closed fun j g hj ho => ?_
  rcases hfollows.pending hj with hold | ⟨call,hinv,-,-⟩
  · obtain rfl := hs.linked.unique hold hf ho
    rw [hgone] at hj
    cases hj
  · exact h.not_invoked hinv.1

/-- After a request that was refused, the caller has been answered. -/
theorem turn_refused {phase : Phase} {e : TransportError} {rest : List Entry}
    (hs : Ledger s none none) (ha : Apart s body) (he : s.ended = none)
    (hh : (turn link displayContract s (.event body)).history =
      s.history ++ .heard body :: .sent (.request phase call) (some e) :: rest)
    (ht : Ledger (turn link displayContract s (.event body)) none none)
    (hr : (turn link displayContract s (.event body)).ended = none) :
    (turn link displayContract s (.event body)).count (answers call.outerId) =
      (turn link displayContract s (.event body)).count (invokes call.outerId) := by
  obtain ⟨hfollows,-⟩ := dispatchEvent_follows link displayContract body
    (s := s.push (.heard body)) hs.linked
  obtain ⟨sent,hsent,-,hhead⟩ := turn_asks link displayContract body he
  rw [← turn_running he hr] at hfollows
  have hw : Warrant s.state body phase call := by
    rw [hh] at hsent
    have hsents : .sent (.request phase call) (some e) :: rest = sents sent :=
      (List.cons_eq_cons.mp (List.append_cancel_left hsent)).2
    cases sent with
    | nil => simp [sents] at hsents
    | cons first more =>
      rw [sents_cons] at hsents
      obtain ⟨h₁,h₂⟩ := Entry.sent.inj (List.cons_eq_cons.mp hsents).1
      exact hhead phase call (some e) (congrArg some (Prod.ext h₁.symm h₂.symm))
  have hgone : (turn link displayContract s (.event body)).state.pending.lookup call.innerId = none := by
    by_contra hne
    have hzero := ht.sources.unended (.inr (.inr (Option.isSome_iff_ne_none.mpr hne)))
    refine absurd (List.countP_eq_zero.mp hzero (.sent (.request phase call) (some e)) ?_) ?_
    · rw [hh]
      simp
    · simp [ends,refuses]
  refine ht.answered_of_closed fun j g hj ho => ?_
  -- Nothing else is pending under the caller's id, whether the call is new or was decided.
  have hsame : ∀ {f}, s.state.pending.lookup call.innerId = some f → f.outerId = call.outerId →
      s.state.pending.lookup j = some g → False := by
    intro f hf hout hold
    have hji : j = call.innerId := hs.linked.unique hold hf (ho.trans hout.symm)
    rw [hji,hgone] at hj
    cases hj
  have hnew : Invoked s.state body call → False := by
    intro hinv
    rcases hfollows.pending hj with hold | ⟨call',hinv',rfl,-⟩
    · have hid := (admission_admitted hinv.2).outerId
      exact (hs.callers.balance call.outerId).even_iff.mp (ha hinv.1 _ hid) (.inr ⟨j,g,hold,ho⟩)
    · cases (Admission.admitted.inj (hinv.2.symm.trans hinv'.2))
      rw [hgone] at hj
      cases hj
  cases hw with
  | prepare hk hentry _ => exact hnew ⟨hk,hentry⟩
  | workflow hk hentry _ => exact hnew ⟨hk,hentry⟩
  | decided hk _ hprep _ _ _ =>
    obtain ⟨rfl,hp,-⟩ := hs.linked.preparing hprep
    rcases hfollows.pending hj with hold | ⟨call',hinv',-,-⟩
    · exact hsame hp rfl hold
    · exact absurd (hinv'.1.symm.trans hk) (by decide)
  | approved hk _ hawait _ =>
    obtain ⟨-,hp,-⟩ := hs.linked.awaiting hawait
    rcases hfollows.pending hj with hold | ⟨call',hinv',-,-⟩
    · exact hsame hp rfl hold
    · exact absurd (hinv'.1.symm.trans hk) (by decide)

/-! Inner ids. -/

theorem finish_counter (result : Except TransportError Unit) (s : Session) :
    (finish link result s).state.innerIdCounter = s.state.innerIdCounter := by
  have hclear : (close link result s).2.state = s.state.cleared := close_cleared result s
  change (close link result s).2.state.innerIdCounter = _
  rw [hclear]
  rfl

/-- The counter only grows, and it grows with every call that is admitted. -/
theorem turn_counter (link : Link) (displayContract : Json → Except String Unit) (input : Input)
    (h : s.ended = none → Linked s.state) :
    s.state.innerIdCounter ≤ (turn link displayContract s input).state.innerIdCounter ∧
      ∀ body call, input = .event body → s.ended = none → Invoked s.state body call →
        s.state.innerIdCounter < (turn link displayContract s input).state.innerIdCounter := by
  cases he : s.ended with
  | some r =>
    rw [turn_ended he]
    exact ⟨le_refl _,fun _ _ _ hn => by cases hn⟩
  | none =>
    cases input with
    | noise =>
      rw [turn_noise he]
      exact ⟨le_refl _,fun _ _ hn => by cases hn⟩
    | stop =>
      rw [turn_stop he,finish_counter]
      exact ⟨le_refl _,fun _ _ hn => by cases hn⟩
    | fault e =>
      rw [turn_fault he,finish_counter]
      exact ⟨le_refl _,fun _ _ hn => by cases hn⟩
    | event body =>
      obtain ⟨hfollows,hnew⟩ := dispatchEvent_follows link
        displayContract body (s := s.push (.heard body)) (h he)
      have hturn : (turn link displayContract s (.event body)).state.innerIdCounter =
          (dispatchEvent link displayContract body (s.push (.heard body))).2.state.innerIdCounter := by
        rw [turn_event he]
        cases (dispatchEvent link displayContract body (s.push (.heard body))).1 with
        | ok _ => rfl
        | error e => exact finish_counter _ _
      rw [hturn]
      refine ⟨hfollows.counter,?_⟩
      rintro _ call ⟨⟩ - hinv
      exact Nat.lt_of_succ_le (hnew call hinv).ge

theorem run_counter {more : List Input}
    (ha : DistinctIds link displayContract denied (inputs ++ more))
    (hu : Steady link displayContract denied (inputs ++ more)) :
    (run link displayContract denied inputs).state.innerIdCounter ≤
      (run link displayContract denied (inputs ++ more)).state.innerIdCounter := by
  induction more using List.reverseRecOn with
  | nil => rw [List.append_nil]
  | append_singleton more input ih =>
    rw [← List.append_assoc] at ha hu ⊢
    have hbooks := run_books ha.of_append hu.of_append
    rw [run_snoc]
    exact (ih ha.of_append hu.of_append).trans
      (turn_counter link displayContract input fun he => (hbooks.running he).linked).1

/-- Calls that are admitted at different times have different inner ids. -/
theorem admitted_apart {pre' : List Input} {body' : Object} {call' : PendingApproval}
    (ha : DistinctIds link displayContract denied inputs) (hu : Steady link displayContract denied inputs)
    (h : Hears link displayContract denied inputs pre body)
    (hinv : Invoked (run link displayContract denied pre).state body call)
    (h' : Hears link displayContract denied inputs pre' body')
    (hinv' : Invoked (run link displayContract denied pre').state body' call')
    (hi : call.innerId = call'.innerId) : ¬pre.length < pre'.length := by
  intro hlt
  obtain ⟨post,hpost⟩ := h.next
  obtain ⟨post',hpost'⟩ := h'.next
  obtain ⟨more,hmore⟩ : ∃ more, pre' = (pre ++ [Input.event body]) ++ more := by
    have hpre : pre ++ [Input.event body] <+: inputs := ⟨post,by rw [hpost]; simp⟩
    have hpre' : pre' <+: inputs := ⟨.event body' :: post',hpost'.symm⟩
    obtain ⟨more,hm⟩ := List.prefix_of_prefix_length_le hpre hpre' (by simp; omega)
    exact ⟨more,hm.symm⟩
  have hin : inputs = (pre ++ [Input.event body]) ++ more ++ (.event body' :: post') := by rw [← hmore,hpost']
  subst hin
  have hbooks := run_books ha.of_append.of_append.of_append hu.of_append.of_append.of_append
  have hgrow := (turn_counter link displayContract (.event body) fun he => (hbooks.running he).linked).2 body call rfl h.running hinv
  rw [← run_snoc] at hgrow
  have hmono := run_counter ha.of_append hu.of_append
  rw [← hmore] at hmono
  have heq := innerId_injective ((admission_admitted hinv.2).innerId.symm.trans
    (hi.trans (admission_admitted hinv'.2).innerId))
  omega

/-- Every request is about a call that was admitted. -/
theorem request_invoked {phase : Phase} {outcome : Option TransportError}
    (ha : DistinctIds link displayContract denied inputs) (hu : Steady link displayContract denied inputs)
    (h : .sent (.request phase call) outcome ∈ (run link displayContract denied inputs).history) :
    ∃ pre body call₀, Hears link displayContract denied inputs pre body ∧
      Invoked (run link displayContract denied pre).state body call₀ ∧
      call.innerId = call₀.innerId ∧ call.forward = call₀.forward := by
  obtain ⟨h₁,h₂,hsplit⟩ := List.append_of_mem h
  obtain ⟨pre,body,hhears,-,hw⟩ := run_warranted hsplit
  obtain ⟨post,rfl⟩ := hhears.next
  have ho := run_origins ha.of_append hu.of_append hhears.running
  cases hw with
  | prepare hk hentry _ => exact ⟨pre,body,call,hhears,⟨hk,hentry⟩,rfl,rfl⟩
  | workflow hk hentry _ => exact ⟨pre,body,call,hhears,⟨hk,hentry⟩,rfl,rfl⟩
  | decided _ _ hprep _ _ _ =>
    obtain ⟨pre₀,body₀,mid,hhears₀,hinv,-,-⟩ := ho.preparing hprep
    exact ⟨pre₀,body₀,call,hhears₀.append,hinv,rfl,rfl⟩
  | @approved call₀ _ _ _ hawait _ =>
    obtain ⟨⟨pre₀,body₀,mid,hhears₀,hinv,-,-⟩,-⟩ := ho.awaiting hawait
    exact ⟨pre₀,body₀,call₀,hhears₀.append,hinv,rfl,rfl⟩

/-- When no progress of an undecided call is refused, every call is settled exactly once. -/
theorem run_settlesOnce (ha : DistinctIds link displayContract denied inputs)
    (hu : Steady link displayContract denied inputs) :
    SettlesOnce link displayContract denied inputs := by
  have hbooks : ∀ {pre body}, Hears link displayContract denied inputs pre body →
      Ledger (run link displayContract denied pre) none none ∧
      Apart (run link displayContract denied pre) body ∧
      Books (run link displayContract denied (pre ++ [Input.event body])) := by
    intro pre body h
    obtain ⟨post,rfl⟩ := h.next
    refine ⟨(run_books ha.of_append hu.of_append).running h.running,ha pre body post rfl h.running,?_⟩
    rw [List.append_cons] at ha hu
    exact run_books ha.of_append hu.of_append
  refine ⟨(run_books ha hu).settled,fun pre body i f h hend hf hr => ?_,
    fun pre body phase call e rest h hh hr => ?_,fun phase call outcome phase' call' outcome' h h' hi => ?_⟩
  · obtain ⟨hs,-,hb⟩ := hbooks h
    have ht := hb.running hr
    rw [run_snoc] at ht hr ⊢
    exact turn_answered hs h.running hend hf ht hr
  · obtain ⟨hs,hap,hb⟩ := hbooks h
    have ht := hb.running hr
    rw [run_snoc] at ht hr hh ⊢
    exact turn_refused hs hap h.running hh ht hr
  · obtain ⟨pre,body,call₀,hh,hinv,hid,hf⟩ := request_invoked ha hu h
    obtain ⟨pre',body',call₀',hh',hinv',hid',hf'⟩ := request_invoked ha hu h'
    have heq : call₀.innerId = call₀'.innerId := hid.symm.trans (hi.trans hid')
    have hle := admitted_apart ha hu hh hinv hh' hinv' heq
    have hge := admitted_apart ha hu hh' hinv' hh hinv heq.symm
    obtain ⟨post,hpost⟩ := hh.next
    obtain ⟨post',hpost'⟩ := hh'.next
    obtain ⟨rfl,hrest⟩ := List.append_inj (hpost.symm.trans hpost') (by omega)
    cases (List.cons_eq_cons.mp hrest).1
    cases Admission.admitted.inj (hinv.2.symm.trans hinv'.2)
    exact ⟨pre,body,call₀,hh,hinv,hf,hf'⟩

theorem preparedRun_settlesOnce : SettlesOnce (fun _ _ => none) anyDisplay []
    [.event advertiseRead,.event invokeRead,.event preparedRead] :=
  run_settlesOnce preparedRun_distinct steady_of_open

def resultOfRead : Object := [("id",.string "gate-1"),("kind",.string "tool.result")]

/-- The caller is told that its call failed, and then what it returned. -/
theorem refusedProgress_settles_twice : DistinctIds refusesProgress anyDisplay []
      [.event advertiseRead,.event invokeRead,.event progressOfRead,.event preparedRead,
        .event resultOfRead] ∧
    ¬SettlesOnce refusesProgress anyDisplay []
      [.event advertiseRead,.event invokeRead,.event progressOfRead,.event preparedRead,
        .event resultOfRead] := by
  constructor
  · refine (throughout_snoc [.event advertiseRead,.event invokeRead,
      .event progressOfRead,.event preparedRead]).mpr ⟨refusedRun_distinct,?_⟩
    rintro body ⟨⟩ _
    exact apart_of_kind (by decide)
  · intro h
    have htwice : (run refusesProgress anyDisplay [] [.event advertiseRead,.event invokeRead,
        .event progressOfRead,.event preparedRead,.event resultOfRead]).count (answers "call-1") = 2 := by
      with_unfolding_all decide
    have hasked : (run refusesProgress anyDisplay [] [.event advertiseRead,.event invokeRead,
        .event progressOfRead,.event preparedRead,.event resultOfRead]).count (invokes "call-1") = 1 := by
      with_unfolding_all decide
    have hle := h.settled.once "call-1"
    rw [htwice,hasked] at hle
    omega

end Nefor.ToolGate
