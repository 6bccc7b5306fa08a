import Nefor.ToolGate.Runs

/-! Why a source is asked to run a call. The gate admitted the call, its caller has not been answered
since, and the decision table or the user let it run. -/
namespace Nefor.ToolGate
open Json (Object)
open Entry (invokes answers requests)

section Statement
variable (link : Link) (displayContract : Json → Except String Unit) (denied : List String)

/-- The gate hears the event after the inputs `pre`. -/
structure Hears (inputs pre : List Input) (body : Object) : Prop where
  next : ∃ post, inputs = pre ++ .event body :: post
  running : (run link displayContract denied pre).ended = none

/-- The gate may run the call, as its history stands. -/
structure Authorized (inputs : List Input) (history : List Entry) (call : PendingApproval) : Prop where
  /-- The call was admitted, and its caller has not been answered since. -/
  admission : ∃ pre body mid call₀, Hears link displayContract denied inputs pre body ∧
    field body "kind" = some "tool-gate.tool.invoke" ∧
    Admits (run link displayContract denied pre).state body call₀ ∧
    call = { call₀ with args := call.args } ∧
    history = (run link displayContract denied pre).history ++ .heard body :: mid ∧
    mid.countP (answers call.outerId) = 0
  /-- An agent's call was decided by the table, or by the user when the table said so. -/
  decision : ∀ policy, call.approvalPolicy = some policy → ∃ pre body args assessment reason,
    Hears link displayContract denied inputs pre body ∧
    field body "kind" = some "tool.prepared" ∧ field body "id" = some call.innerId ∧
    (run link displayContract denied pre).state.preparing.lookup call.innerId =
      some { call with args } ∧
    assess denied call body = .ok (assessment,reason) ∧
    (policy = .readOnly → assessment = .safe) ∧
    (verdict policy (run link displayContract denied pre).state.mode assessment = .run ∧
        history = (run link displayContract denied pre).history ++ [.heard body] ∨
      verdict policy (run link displayContract denied pre).state.mode assessment = .ask ∧
        ∃ mid response, Hears link displayContract denied inputs (pre ++ .event body :: mid) response ∧
          field response "kind" = some "tool.permission_response" ∧
          field response "id" = some call.outerId ∧ field response "decision" = some "approve" ∧
          (run link displayContract denied (pre ++ .event body :: mid)).state.awaitingApproval.lookup
            call.outerId = some { call with args } ∧
          history = (run link displayContract denied (pre ++ .event body :: mid)).history ++
            [.heard response])

/-- No call is run twice, and none that was not decided. -/
structure Gated (inputs : List Input) : Prop where
  once : ∀ i, (run link displayContract denied inputs).count (requests .invoke i) ≤ 1
  authorized : ∀ h₁ call outcome h₂, (run link displayContract denied inputs).history =
    h₁ ++ .sent (.request .invoke call) outcome :: h₂ →
      Authorized link displayContract denied inputs h₁ call

end Statement

variable {link : Link} {displayContract : Json → Except String Unit} {denied : List String}
  {inputs pre : List Input} {input : Input} {s : Session} {body : Object} {call : PendingApproval}

/-- The call was admitted in the run, and its caller has not been answered since. -/
def Entered (link : Link) (displayContract : Json → Except String Unit) (denied : List String)
    (inputs : List Input) (history : List Entry) (call : PendingApproval) : Prop :=
  ∃ pre body mid, Hears link displayContract denied inputs pre body ∧
    Invoked (run link displayContract denied pre).state body call ∧
    history = (run link displayContract denied pre).history ++ .heard body :: mid ∧
    mid.countP (answers call.outerId) = 0

/-- The table left the call to the user. -/
def Consulted (link : Link) (displayContract : Json → Except String Unit) (denied : List String)
    (inputs : List Input) (call : PendingApproval) : Prop :=
  ∃ pre body, Hears link displayContract denied inputs pre body ∧
    Asked (run link displayContract denied pre).state body call

/-- Where the calls come from that wait for a decision. -/
structure Origins (link : Link) (displayContract : Json → Except String Unit) (denied : List String)
    (inputs : List Input) (s : Session) : Prop where
  preparing : ∀ {i call}, s.state.preparing.lookup i = some call →
    Entered link displayContract denied inputs s.history call
  awaiting : ∀ {o call}, s.state.awaitingApproval.lookup o = some call →
    Entered link displayContract denied inputs s.history call ∧
      Consulted link displayContract denied inputs call
  denied : s.state.denied = denied

theorem Hears.append {rest : List Input} (h : Hears link displayContract denied inputs pre body) :
    Hears link displayContract denied (inputs ++ rest) pre body := by
  obtain ⟨post,hi⟩ := h.next
  exact ⟨⟨post ++ rest,by rw [hi]; simp⟩,h.running⟩

theorem Hears.snoc (h : Hears link displayContract denied inputs pre body) (input : Input) :
    Hears link displayContract denied (inputs ++ [input]) pre body := h.append

theorem Hears.last (h : (run link displayContract denied inputs).ended = none) (body : Object) :
    Hears link displayContract denied (inputs ++ [.event body]) inputs body := ⟨⟨[],rfl⟩,h⟩

theorem Entered.snoc {history : List Entry}
    (h : Entered link displayContract denied inputs history call) (input : Input) (more : List Entry)
    (hm : more.countP (answers call.outerId) = 0) :
    Entered link displayContract denied (inputs ++ [input]) (history ++ more) call := by
  obtain ⟨pre,body,mid,hhears,hinv,hh,hmid⟩ := h
  refine ⟨pre,body,mid ++ more,hhears.snoc input,hinv,?_,?_⟩
  · rw [hh,List.append_assoc,List.cons_append]
  · rw [List.countP_append,hmid,hm]

theorem Consulted.snoc (h : Consulted link displayContract denied inputs call) (input : Input) :
    Consulted link displayContract denied (inputs ++ [input]) call := by
  obtain ⟨pre,body,hhears,hasked⟩ := h
  exact ⟨pre,body,hhears.snoc input,hasked⟩

theorem start_history (link : Link) (denied : List String) :
    ∃ sent, (start link denied).history = sents sent ∧ (∀ e ∈ sent, plain e.1) ∧
      ∃ s, (start link denied).state = s ∧ s.preparing = ∅ ∧ s.awaitingApproval = ∅ ∧
        s.denied = denied := by
  have hsends : Sends plain (sendAll link [.hello "0.4.0",.modeChanged .safe])
      { state := { denied } } := by
    refine sendAll_sends (fun frame hf => ?_) (fun frame hf o ho => ?_) _ <;>
      rcases List.mem_cons.mp hf with rfl | hf
    · rfl
    · cases List.mem_singleton.mp hf
      rfl
    · rw [Frame.terminalId_hello] at ho
      cases ho
    · cases List.mem_singleton.mp hf
      rw [Frame.terminalId_modeChanged] at ho
      cases ho
  have hstill := sendAll_still link [.hello "0.4.0",.modeChanged .safe]
    { state := { denied } }
  obtain ⟨sent,hgrown,hplain⟩ := hsends
  have hhist := hgrown.history
  refine ⟨sent,?_⟩
  unfold start
  simp only
  cases hr : sendAll link [.hello "0.4.0",.modeChanged .safe] { state := { denied } } with
  | mk r s' =>
    rw [hr] at hhist hstill
    cases r with
    | ok _ => exact ⟨hhist,hplain,_,hstill,rfl,rfl,rfl⟩
    | error e => exact ⟨hhist,hplain,_,hstill,rfl,rfl,rfl⟩

theorem start_origins : Origins link displayContract denied [] (start link denied) := by
  obtain ⟨sent,-,-,s,hs,hr,ha,hd⟩ := start_history link denied
  refine ⟨fun h => ?_,fun h => ?_,by rw [hs,hd]⟩
  · rw [hs,hr] at h
    cases h
  · rw [hs,ha] at h
    cases h

theorem run_origins (ha : DistinctIds link displayContract denied inputs)
    (hu : Steady link displayContract denied inputs)
    (hr : (run link displayContract denied inputs).ended = none) :
    Origins link displayContract denied inputs (run link displayContract denied inputs) := by
  induction inputs using List.reverseRecOn with
  | nil => exact start_origins
  | append_singleton inputs input ih =>
    have hbooks := run_books ha hu
    have hbooks₀ := run_books (Throughout.of_append ha) (Throughout.of_append hu)
    rw [run_snoc] at hr hbooks ⊢
    cases he : (run link displayContract denied inputs).ended with
    | some r =>
      rw [turn_ended he,he] at hr
      cases hr
    | none =>
      have ih := ih (Throughout.of_append ha) (Throughout.of_append hu) he
      cases input with
      | stop =>
        rw [turn_stop he] at hr
        exact absurd hr (finish_ended _ _)
      | fault e =>
        rw [turn_fault he] at hr
        exact absurd hr (finish_ended _ _)
      | noise =>
        rw [turn_noise he]
        refine ⟨fun h => ?_,fun h => ?_,ih.denied⟩
        · simpa using (ih.preparing h).snoc .noise [] rfl
        · obtain ⟨h₁,h₂⟩ := ih.awaiting h
          exact ⟨by simpa using h₁.snoc .noise [] rfl,h₂.snoc .noise⟩
      | event body =>
        have hl := hbooks₀.running he
        have hl' := hbooks.running hr
        obtain ⟨sent,hhist,-,-⟩ := turn_asks link displayContract body he
        obtain ⟨hf,-⟩ := dispatchEvent_follows link displayContract body
          (s := (run link displayContract denied inputs).push (.heard body)) hl.linked
        rw [← turn_running he hr] at hf
        -- An answer in this turn would close the call.
        have hquiet : ∀ {i c}, (turn link displayContract (run link displayContract denied inputs)
            (.event body)).state.pending.lookup i = some (PendingApproval.forward c) →
            (.heard body :: sents sent : List Entry).countP (answers c.outerId) = 0 := by
          intro i c hc
          have := turn_unanswered hl (((throughout_snoc _).mp ha).2 body rfl he) hl' hhist hc
          rw [List.countP_cons_of_neg]
          · exact this
          · exact Bool.false_ne_true
        refine ⟨fun {i c} hc => ?_,fun {o c} hc => ?_,hf.denied.trans ih.denied⟩
        · have hp := (hl'.linked.preparing hc).2.1
          rcases hf.preparing hc with hold | hnew
          · rw [hhist]
            exact (ih.preparing hold).snoc _ _ (hquiet hp)
          · refine ⟨inputs,body,sents sent,.last he body,hnew,hhist,?_⟩
            have := hquiet hp
            rwa [List.countP_cons_of_neg Bool.false_ne_true] at this
        · have hp := (hl'.linked.awaiting hc).2.1
          rw [hhist]
          rcases hf.awaiting hc with hold | hnew
          · obtain ⟨h₁,h₂⟩ := ih.awaiting hold
            exact ⟨h₁.snoc _ _ (hquiet hp),h₂.snoc _⟩
          · obtain ⟨i,-,hprep⟩ := hnew.preparing
            exact ⟨(ih.preparing hprep).snoc _ _ (hquiet hp),inputs,body,.last he body,hnew⟩

/-- Plain frames are no requests. -/
theorem no_request {sent : List (Frame × Option TransportError)} {phase : Phase}
    {outcome : Option TransportError} {l r : List Entry} (hp : ∀ e ∈ sent, plain e.1)
    (h : sents sent = l ++ .sent (.request phase call) outcome :: r) : False := by
  have hmem : Entry.sent (.request phase call) outcome ∈ sents sent := by simp [h]
  obtain ⟨e,he,heq⟩ := List.mem_map.mp hmem
  have hplain := hp e he
  rw [(Entry.sent.inj heq).1] at hplain
  cases hplain

/-- A request after a turn is an earlier one or the first thing sent in the turn. -/
theorem request_of_turn {history h₁ h₂ : List Entry}
    {sent : List (Frame × Option TransportError)} {phase : Phase} {outcome : Option TransportError}
    (hp : ∀ e ∈ sent.tail, plain e.1)
    (h : history ++ .heard body :: sents sent = h₁ ++ .sent (.request phase call) outcome :: h₂) :
    (∃ more, history = h₁ ++ .sent (.request phase call) outcome :: more) ∨
      h₁ = history ++ [.heard body] ∧ sent.head? = some (.request phase call,outcome) := by
  refine (append_eq_cases h).imp_right ?_
  rintro ⟨mid,rfl,hs⟩
  cases mid with
  | nil => cases hs
  | cons e mid =>
    obtain ⟨rfl,hsents⟩ : .heard body = e ∧
        sents sent = mid ++ Entry.sent (.request phase call) outcome :: h₂ := List.cons_eq_cons.mp hs
    cases sent with
    | nil => simp [sents] at hsents
    | cons first rest =>
      rw [sents_cons] at hsents
      cases mid with
      | nil =>
        obtain ⟨hfirst,-⟩ := List.cons_eq_cons.mp hsents
        obtain ⟨h₁,h₂⟩ := Entry.sent.inj hfirst
        exact ⟨rfl,congrArg some (Prod.ext h₁ h₂)⟩
      | cons e mid => exact (no_request hp (List.cons_eq_cons.mp hsents).2).elim

/-- Every request of the run is the first thing sent in a turn that had a reason for it. -/
theorem run_warranted {phase : Phase} {outcome : Option TransportError} {h₁ h₂ : List Entry}
    (h : (run link displayContract denied inputs).history =
      h₁ ++ .sent (.request phase call) outcome :: h₂) :
    ∃ pre body, Hears link displayContract denied inputs pre body ∧
      h₁ = (run link displayContract denied pre).history ++ [.heard body] ∧
      Warrant (run link displayContract denied pre).state body phase call := by
  induction inputs using List.reverseRecOn generalizing h₂ with
  | nil =>
    obtain ⟨sent,hs,hp,-⟩ := start_history link denied
    change (start link denied).history = _ at h
    exact (no_request hp (hs.symm.trans h)).elim
  | append_singleton inputs input ih =>
    -- What this turn adds without a request was asked for before it.
    have hold : (∃ more, (run link displayContract denied inputs).history =
        h₁ ++ Entry.sent (.request phase call) outcome :: more) →
        ∃ pre body, Hears link displayContract denied (inputs ++ [input]) pre body ∧
          h₁ = (run link displayContract denied pre).history ++ [Entry.heard body] ∧
          Warrant (run link displayContract denied pre).state body phase call := by
      rintro ⟨more,hm⟩
      obtain ⟨pre,body,hhears,hh⟩ := ih hm
      exact ⟨pre,body,hhears.snoc input,hh⟩
    have hplain : ∀ result, finish link result (run link displayContract denied inputs) =
        run link displayContract denied (inputs ++ [input]) → ∃ more,
          (run link displayContract denied inputs).history =
            h₁ ++ Entry.sent (.request phase call) outcome :: more := by
      intro result hres
      obtain ⟨sent,hs,hp⟩ := finish_grows link result
        (run link displayContract denied inputs)
      rw [hres,h] at hs
      refine (append_eq_cases hs.symm).resolve_right ?_
      rintro ⟨mid,-,hmid⟩
      exact no_request hp hmid
    cases he : (run link displayContract denied inputs).ended with
    | some r =>
      rw [run_snoc,turn_ended he] at h
      exact hold ⟨h₂,h⟩
    | none =>
      cases input with
      | noise =>
        refine hold ⟨h₂,?_⟩
        rwa [run_snoc,turn_noise he] at h
      | stop => exact hold (hplain _ (by rw [run_snoc,turn_stop he]))
      | fault e => exact hold (hplain _ (by rw [run_snoc,turn_fault he]))
      | event body =>
        obtain ⟨sent,hs,htail,hhead⟩ := turn_asks link displayContract body he
        rw [run_snoc,hs] at h
        rcases request_of_turn htail h with hm | ⟨rfl,hfirst⟩
        · exact hold hm
        · exact ⟨inputs,body,.last he body,rfl,hhead _ _ _ hfirst⟩

/-- A call that waited in the run is admitted, also when the event is heard that lets it run. -/
theorem Entered.admission {history : List Entry} {rest : List Input}
    (h : Entered link displayContract denied inputs history call) (body : Object) :
    ∃ pre body₀ mid call₀, Hears link displayContract denied (inputs ++ rest) pre body₀ ∧
      field body₀ "kind" = some "tool-gate.tool.invoke" ∧
      Admits (run link displayContract denied pre).state body₀ call₀ ∧
      call = { call₀ with args := call.args } ∧
      history ++ [.heard body] = (run link displayContract denied pre).history ++ .heard body₀ :: mid ∧
      mid.countP (answers call.outerId) = 0 := by
  obtain ⟨pre,body₀,mid,hhears,⟨hk,hentry⟩,hh,hmid⟩ := h
  refine ⟨pre,body₀,mid ++ [Entry.heard body],call,hhears.append,hk,admission_admitted hentry,rfl,?_,?_⟩
  · rw [hh,List.append_assoc,List.cons_append]
  · rw [List.countP_append,hmid]
    rfl

/-- When no progress of an undecided call is refused, nothing runs that was not decided. -/
theorem run_gated (ha : DistinctIds link displayContract denied inputs)
    (hu : Steady link displayContract denied inputs) : Gated link displayContract denied inputs := by
  refine ⟨(run_books ha hu).accounted.requested .invoke,fun h₁ call outcome h₂ hsplit => ?_⟩
  obtain ⟨pre,body,hhears,rfl,hw⟩ := run_warranted hsplit
  obtain ⟨post,rfl⟩ := hhears.next
  have hrun := hhears.running
  have ho := run_origins (Throughout.of_append ha) (Throughout.of_append hu) hrun
  have hl := (run_books (Throughout.of_append ha) (Throughout.of_append hu)).running hrun
  cases hw with
  | workflow hk hentry hpol =>
    refine ⟨⟨pre,body,[],call,hhears,hk,admission_admitted hentry,rfl,rfl,rfl⟩,fun policy hp => ?_⟩
    rw [hpol] at hp
    cases hp
  | @decided _ i policy assessment reason hk hid hprep hpol hassess hrunv =>
    refine ⟨(ho.preparing hprep).admission body,fun policy' hp => ?_⟩
    cases hpol.symm.trans hp
    obtain ⟨hi,-⟩ := hl.linked.preparing hprep
    rw [ho.denied] at hassess
    subst hi
    refine ⟨pre,body,call.args,assessment,reason,hhears,hk,hid,hprep,hassess,?_,.inl ⟨hrunv,rfl⟩⟩
    rintro rfl
    exact verdict_readOnly (by rw [hrunv]; decide)
  | @approved call₀ o hk hid hawait happrove =>
    obtain ⟨hin,pre₁,body₁,hhears₁,hasked⟩ := ho.awaiting hawait
    obtain ⟨pre₀,body₀,mid,call',hh₀,hk₀,hadm₀,hcall,hhist,hmid⟩ := hin.admission body
    refine ⟨⟨pre₀,body₀,mid,call',hh₀,hk₀,hadm₀,by rw [hcall],hhist,hmid⟩,fun policy hp => ?_⟩
    obtain ⟨post₁,rfl⟩ := hhears₁.next
    have ho₁ := run_origins (Throughout.of_append (Throughout.of_append ha))
      (Throughout.of_append (Throughout.of_append hu)) hhears₁.running
    have hl₁ := (run_books (Throughout.of_append (Throughout.of_append ha))
      (Throughout.of_append (Throughout.of_append hu))).running hhears₁.running
    obtain ⟨hk₁,⟨i,hid₁,hprep⟩,policy',assessment,reason,hpol,hassess,hask⟩ := hasked
    cases hpol.symm.trans hp
    obtain ⟨hi,-⟩ := hl₁.linked.preparing hprep
    obtain ⟨hout,-⟩ := hl.linked.awaiting hawait
    rw [ho₁.denied] at hassess
    subst hi hout
    refine ⟨pre₁,body₁,call₀.args,assessment,reason,hhears₁.append,hk₁,hid₁,hprep,hassess,?_,
      .inr ⟨hask,post₁,body,hhears,hk,hid,happrove,hawait,rfl⟩⟩
    rintro rfl
    exact verdict_readOnly (by rw [hask]; decide)

/-! A tool that is read, prepared and run, and one whose progress does not fit the wire. -/

def advertiseRead : Object := [("kind",.string "tool-gate.tools.advertise"),
  ("source",.string "basic-tools"),
  ("tools",.array [.object [("display",.object []),("name",.string "read")]])]

def invokeRead : Object := [("approval_policy",.string "Default"),("id",.string "call-1"),
  ("kind",.string "tool-gate.tool.invoke"),("name",.string "read")]

def progressOfRead : Object := [("id",.string "gate-1"),("kind",.string "tool.stream")]

def preparedRead : Object :=
  [("decision",.string "safe"),("id",.string "gate-1"),("kind",.string "tool.prepared")]

def anyDisplay (_ : Json) : Except String Unit := .ok ()

/-- Progress frames are too large for this wire. -/
def refusesProgress : Link := fun _ body =>
  if field body "kind" = some "tool.stream" then some .frameTooLarge else none

/-- Only an invocation can come under an id that is in use. -/
theorem apart_of_kind (h : field body "kind" ≠ some "tool-gate.tool.invoke") : Apart s body :=
  fun hk => absurd hk h

theorem readRun_distinct (link : Link) (hfresh : (run link anyDisplay [] [.event advertiseRead]).count
      (invokes "call-1") = (run link anyDisplay [] [.event advertiseRead]).count (answers "call-1")) :
    DistinctIds link anyDisplay [] [.event advertiseRead,.event invokeRead] := by
  refine (throughout_snoc [.event advertiseRead]).mpr ⟨?_,?_⟩
  · refine (throughout_snoc []).mpr ⟨throughout_nil,?_⟩
    rintro body ⟨⟩ _
    exact apart_of_kind (by decide)
  · rintro body ⟨⟩ _ _ o ho
    have hid : field invokeRead "id" = some "call-1" := by decide
    cases hid.symm.trans ho
    exact hfresh

theorem preparedRun_distinct : DistinctIds (fun _ _ => none) anyDisplay []
    [.event advertiseRead,.event invokeRead,.event preparedRead] := by
  refine (throughout_snoc [.event advertiseRead,.event invokeRead]).mpr
    ⟨readRun_distinct _ (by with_unfolding_all decide),?_⟩
  rintro body ⟨⟩ _
  exact apart_of_kind (by decide)

/-- A wire that takes everything never refuses progress. -/
theorem steady_of_open : Steady (fun _ _ => none) displayContract denied inputs := by
  intro pre body post _ _ _ i f _ _ _ e he
  cases he

theorem refusedRun_distinct : DistinctIds refusesProgress anyDisplay []
    [.event advertiseRead,.event invokeRead,.event progressOfRead,.event preparedRead] := by
  refine (throughout_snoc [.event advertiseRead,.event invokeRead,
    .event progressOfRead]).mpr ⟨?_,?_⟩
  · refine (throughout_snoc [.event advertiseRead,.event invokeRead]).mpr
      ⟨readRun_distinct _ (by with_unfolding_all decide),?_⟩
    rintro body ⟨⟩ _
    exact apart_of_kind (by decide)
  · rintro body ⟨⟩ _
    exact apart_of_kind (by decide)

/-- The call is prepared and then run. -/
theorem preparedRun_gated :
    Gated (fun _ _ => none) anyDisplay [] [.event advertiseRead,.event invokeRead,.event preparedRead] :=
  run_gated preparedRun_distinct steady_of_open

/-- What an entry has to do with the first call: it comes in, is answered or is run. -/
def roleOf (e : Entry) : Nat :=
  if invokes "call-1" e then 1 else if answers "call-1" e then 2 else match e with
    | .sent (.request .invoke call) _ => if call.outerId = "call-1" then 3 else 0
    | _ => 0

theorem roleOf_eq_three {e : Entry} (h : roleOf e = 3) :
    ∃ call outcome, e = .sent (.request .invoke call) outcome ∧ call.outerId = "call-1" := by
  unfold roleOf at h
  split at h
  · cases h
  · split at h
    · cases h
    · split at h
      · rename_i call outcome _ _
        by_cases ho : call.outerId = "call-1"
        · exact ⟨call,outcome,rfl,ho⟩
        · rw [if_neg ho] at h
          cases h
      · cases h

/-- Between the only invocation and what is run comes an answer. -/
theorem answered_between {l r : List Nat} (h : l ++ 1 :: r = [0,0,0,0,1,0,0,0,0,2,0]) : 2 ∈ r := by
  simp only [List.append_eq_cons_iff,List.cons_eq_append_iff] at h
  simp at h
  simp [h.2]

/-- The call is run after its caller was told that it failed. -/
theorem refusedProgress_not_gated : DistinctIds refusesProgress anyDisplay []
      [.event advertiseRead,.event invokeRead,.event progressOfRead,.event preparedRead] ∧
    ¬Gated refusesProgress anyDisplay []
      [.event advertiseRead,.event invokeRead,.event progressOfRead,.event preparedRead] := by
  refine ⟨refusedRun_distinct,fun h => ?_⟩
  have hroles : (run refusesProgress anyDisplay [] [.event advertiseRead,.event invokeRead,
      .event progressOfRead,.event preparedRead]).history.map roleOf =
      [0,0,0,0,1,0,0,0,0,2,0] ++ [3] := by with_unfolding_all decide
  obtain ⟨h₁,h₂,hsplit,hh₁,hh₂⟩ := List.map_eq_append_iff.mp hroles
  obtain ⟨e,rest,rfl,he,hrest⟩ := List.map_eq_cons_iff.mp hh₂
  obtain ⟨call,outcome,rfl,ho⟩ := roleOf_eq_three he
  obtain ⟨pre,body,mid,call₀,-,hk,hadm,hcall,rfl,hmid⟩ := (h.authorized _ _ _ _ hsplit).admission
  have hid : field body "id" = some "call-1" := by
    rw [hadm.outerId,← ho,hcall]
  have hone : roleOf (.heard body) = 1 := by simp [roleOf,invokes,hk,hid]
  have hnone : 2 ∉ mid.map roleOf := by
    intro hmem
    obtain ⟨e,he,hrole⟩ := List.mem_map.mp hmem
    have hans := List.countP_eq_zero.mp hmid e he
    rw [ho] at hans
    unfold roleOf at hrole
    split at hrole
    · cases hrole
    · split at hrole
      · split at hrole <;> cases hrole
      · cases hrole
  rw [List.map_append,List.map_cons,hone] at hh₁
  exact hnone (answered_between hh₁)

end Nefor.ToolGate
