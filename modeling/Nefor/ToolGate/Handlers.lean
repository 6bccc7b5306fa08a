import Nefor.ToolGate.Settlement

/-! Every handler of the gate settles what it takes up. -/
namespace Nefor.ToolGate
open Json (Object)
open Nefor.Action (Ends)
open Entry (invokes answers)

variable {link : Link} {displayContract : Json → Except String Unit} {s : Session} {i o : String}
  {f : PendingForward} {call : PendingApproval} {body : Object}

/-! Invocations. -/

/-- The call that an invocation is admitted as. -/
structure Admits (s : GateState) (body : Object) (call : PendingApproval) : Prop where
  outerId : field body "id" = some call.outerId
  innerId : call.innerId = innerId (s.innerIdCounter+1)
  name : field body "name" = some call.name
  allowed : ∃ allowedNames, toolNameList body "allowlist" = .ok allowedNames ∧
    ∀ names ∈ allowedNames, call.name ∈ names
  owner : s.toolOwner.lookup call.name = some call.source
  routed : ∀ provider, s.toolExecution.lookup call.name ≠ some (.providerNative provider)
  policy : match call.approvalPolicy with
    | none => body.get "workflow_node" = some (.bool true)
    | some policy => (field body "approval_policy").bind ApprovalPolicy.parse = some policy

theorem admission_admitted (h : admission s.state body = .admitted call) : Admits s.state body call := by
  unfold admission at h
  cases hid : field body "id" with
  | none => simp [hid] at h
  | some outerId =>
  cases hname : field body "name" with
  | none => simp [hid,hname] at h
  | some name =>
  cases hallow : toolNameList body "allowlist" with
  | error message => simp [hid,hname,hallow] at h
  | ok allowedNames =>
  cases hlocal : toolNameList body "request_local_tools" with
  | error message => simp [hid,hname,hallow,hlocal] at h
  | ok requestLocalTools =>
  simp only [hid,hname,hallow,hlocal] at h
  split at h
  · cases h
  · rename_i source hs
    obtain ⟨hs,hallowed⟩ := Option.filter_eq_some_iff.mp hs
    split at h
    · cases h
    · rename_i hrouted
      have hmem : ∀ names ∈ allowedNames, name ∈ names := by
        intro names hn
        cases hn
        simpa using hallowed
      split at h
      · rename_i hnode
        split at h
        · cases h
        · cases h
          exact ⟨hid,rfl,hname,⟨_,hallow,hmem⟩,hs,hrouted,hnode⟩
      · cases h
      · split at h
        · cases h
        · rename_i policy hpolicy
          split at h
          · cases h
          · cases h
            exact ⟨hid,rfl,hname,⟨_,hallow,hmem⟩,hs,hrouted,hpolicy⟩

theorem admission_rejected {message : String} (h : admission s.state body = .rejected o message) :
    field body "id" = some o := by
  unfold admission at h
  cases hid : field body "id" with
  | none => simp [hid] at h
  | some outerId =>
    simp only [hid] at h
    repeat' first | (cases h; rfl) | cases h | split at h

theorem admission_dropped (h : admission s.state body = .dropped) : field body "id" = none := by
  unfold admission at h
  cases hid : field body "id" with
  | none => rfl
  | some outerId =>
    simp only [hid] at h
    repeat' first | cases h | split at h

/-- A new call is forwarded under the next inner id. -/
theorem Ledger.forwarded (h : Ledger s (some call.outerId) none)
    (hi : call.innerId = innerId (s.state.innerIdCounter+1)) {t : Session}
    (ht : t = (s.modify fun s => { s with innerIdCounter := s.innerIdCounter+1 }).modify
      fun s => { s with pending := s.pending.insert call.innerId call.forward }) :
    Ledger t none none ∧ Decided t call ∧
      ∀ phase, t.count (Entry.requests phase call.innerId) = 0 := by
  subst ht
  have hnew : ¬s.Minted call.innerId := hi ▸ Sources.not_minted_next s
  have hp : s.state.pending.lookup call.innerId = none := by
    refine Option.eq_none_iff_forall_ne_some.mpr fun f hf => hnew (h.sources.minted (.inr ?_))
    simp [hf]
  have hr : s.state.preparing.lookup call.innerId = none := by
    refine Option.eq_none_iff_forall_ne_some.mpr fun c hc => ?_
    simp [(h.linked.preparing hc).2.1] at hp
  have ha : ∀ {o c}, s.state.awaitingApproval.lookup o = some c → c.innerId ≠ call.innerId := by
    intro o c hc he
    rw [← he,(h.linked.awaiting hc).2.1] at hp
    cases hp
  have hz : ∀ phase, s.count (Entry.requests phase call.innerId) = 0 := h.requests.fresh hnew
  have hlook : ∀ {j g}, (s.state.pending.insert call.innerId call.forward).lookup j = some g →
      j = call.innerId ∧ g = call.forward ∨ s.state.pending.lookup j = some g := by
    intro j g hj
    rw [lookup_insert_eq] at hj
    split at hj
    · cases hj
      exact .inl ⟨‹_›,rfl⟩
    · exact .inr hj
  have hkeep : ∀ {j}, j ≠ call.innerId →
      (s.state.pending.insert call.innerId call.forward).lookup j = s.state.pending.lookup j := by
    intro j hj
    rw [lookup_insert_eq,if_neg hj]
  refine ⟨⟨⟨?_,?_,?_⟩,?_,?_,?_⟩,⟨?_,hr,ha,hz _⟩,hz⟩
  · intro j k g g' hj hk he
    rcases hlook hj with ⟨rfl,rfl⟩ | hj <;> rcases hlook hk with ⟨rfl,rfl⟩ | hk
    · rfl
    · exact absurd he.symm (h.callers.apart rfl hk)
    · exact absurd he (h.callers.apart rfl hj)
    · exact h.linked.unique hj hk he
  · intro j c hc
    have hne : j ≠ call.innerId := by
      rintro rfl
      rw [Session.modify_state,Session.modify_state,hr] at hc
      cases hc
    obtain ⟨hi',hl,hpol⟩ := h.linked.preparing hc
    exact ⟨hi',(hkeep hne).trans hl,hpol⟩
  · intro j c hc
    obtain ⟨ho,hl,hpol,hn⟩ := h.linked.awaiting hc
    exact ⟨ho,(hkeep (ha hc)).trans hl,hpol,hn⟩
  · refine Callers.insert (f := call.forward) (i := call.innerId) ?_ hp fun j => lookup_insert_eq _ _ _ _
    exact h.callers.congr fun _ => rfl
  · refine Sources.insert (f := call.forward) (i := call.innerId) ?_ (fun j => lookup_insert_eq _ _ _ _) rfl
    rw [hi]
    exact h.sources.mint rfl rfl
  · refine (h.requests.congr (g := fun s => { s with innerIdCounter := s.innerIdCounter+1 })
      ?_ .inl .inl).congr (fun hm => hm) .inl .inl
    rintro j ⟨n,hn,rfl⟩
    exact ⟨n,Nat.lt_succ_of_lt hn,rfl⟩
  · rw [Session.modify_state,lookup_insert_eq,if_pos rfl]

/-- A prepared call waits under its inner id. -/
theorem Ledger.preparing (h : Ledger s none none) (hd : Decided s call)
    (hp : call.approvalPolicy.isSome) :
    Ledger (s.modify fun s => { s with preparing := s.preparing.insert call.innerId call })
      none none := by
  have hlook : ∀ {j c}, (s.state.preparing.insert call.innerId call).lookup j = some c →
      j = call.innerId ∧ c = call ∨ s.state.preparing.lookup j = some c := by
    intro j c hj
    rw [lookup_insert_eq] at hj
    split at hj
    · cases hj
      exact .inl ⟨‹_›,rfl⟩
    · exact .inr hj
  exact {
    linked := {
      unique := h.linked.unique
      preparing := by
        intro j c hc
        rcases hlook hc with ⟨rfl,rfl⟩ | hc
        · exact ⟨rfl,hd.pending,hp⟩
        · exact h.linked.preparing hc
      awaiting := by
        intro j c hc
        obtain ⟨ho,hl,hpol,hn⟩ := h.linked.awaiting hc
        refine ⟨ho,hl,hpol,?_⟩
        rw [Session.modify_state,lookup_insert_eq,if_neg (hd.awaiting hc)]
        exact hn }
    callers := h.callers.congr fun _ => rfl
    sources := h.sources.congr (fun _ => rfl) rfl
    requests := h.requests.congr id
      (fun {j c} hc => by
        rcases hlook hc with ⟨rfl,rfl⟩ | hc
        · exact .inr hd.unsent
        · exact .inl hc) .inl }

theorem handleToolInvoke_settles (h : Ledger s (field body "id") none) :
    Settles (handleToolInvoke link body) s := by
  rw [Settles,handleToolInvoke,Action.ends_bind,Action.ends_read]
  cases hentry : admission s.state body with
  | dropped => simpa [hentry,admission_dropped hentry] using h
  | rejected o message =>
    rw [admission_rejected hentry] at h
    exact (sendEvent_answer h).mono (fun _ _ h => h) fun _ _ h => h.stopped
  | admitted call =>
    have hc := admission_admitted hentry
    rw [hc.outerId] at h
    obtain ⟨ht,hd,hz⟩ := h.forwarded hc.innerId rfl
    simp only
    rw [Action.ends_bind]
    change Ends _ _ _ (s.modify fun s => { s with innerIdCounter := s.innerIdCounter+1 })
    split
    · exact request_settles rfl ht hd (hz _) (ht.requested hd (hz _))
    · rename_i hp
      refine request_settles rfl ht hd (hz _) ?_
      refine (ht.requested hd (hz _)).preparing ?_ (Option.isSome_iff_ne_none.mpr hp)
      exact ⟨hd.pending,hd.preparing,hd.awaiting,by simp [hz,Entry.requests]⟩

/-! Decisions. -/

/-- The source has prepared the call. -/
theorem Ledger.prepared (h : Ledger s none none) (hc : s.state.preparing.lookup i = some call) :
    Ledger (s.modify fun s => { s with preparing := s.preparing.erase i }) none none ∧
      Decided (s.modify fun s => { s with preparing := s.preparing.erase i }) call := by
  obtain ⟨hi,hl,hpol⟩ := h.linked.preparing hc
  have hlook : ∀ {j c}, (s.state.preparing.erase i).lookup j = some c →
      s.state.preparing.lookup j = some c := by
    intro j c hj
    rw [lookup_erase_eq] at hj
    split at hj
    · cases hj
    · exact hj
  constructor
  · exact {
      linked := {
        unique := h.linked.unique
        preparing := fun hj => h.linked.preparing (hlook hj)
        awaiting := by
          intro j c hj
          obtain ⟨ho,hl,hpol,hn⟩ := h.linked.awaiting hj
          refine ⟨ho,hl,hpol,?_⟩
          rw [Session.modify_state,lookup_erase_eq,hn,ite_self] }
      callers := h.callers.congr fun _ => rfl
      sources := h.sources.congr (fun _ => rfl) rfl
      requests := h.requests.congr id (fun hj => .inl (hlook hj)) .inl }
  · subst hi
    refine ⟨hl,?_,?_,h.requests.unprepared hc⟩
    · rw [Session.modify_state,lookup_erase_eq,if_pos rfl]
    · intro j c hj he
      have hn := (h.linked.awaiting hj).2.2.2
      rw [he,hc] at hn
      cases hn

/-- The user is asked about a call. -/
theorem Ledger.asked (h : Ledger s none none) (hd : Decided s call) (hp : call.approvalPolicy.isSome) :
    Ledger (s.modify fun s =>
      { s with awaitingApproval := s.awaitingApproval.insert call.outerId call }) none none := by
  have hlook : ∀ {o c}, (s.state.awaitingApproval.insert call.outerId call).lookup o = some c →
      o = call.outerId ∧ c = call ∨ s.state.awaitingApproval.lookup o = some c := by
    intro o c hc
    rw [lookup_insert_eq] at hc
    split at hc
    · cases hc
      exact .inl ⟨‹_›,rfl⟩
    · exact .inr hc
  exact {
    linked := {
      unique := h.linked.unique
      preparing := h.linked.preparing
      awaiting := by
        intro o c hc
        rcases hlook hc with ⟨rfl,rfl⟩ | hc
        · exact ⟨rfl,hd.pending,hp,hd.preparing⟩
        · exact h.linked.awaiting hc }
    callers := h.callers.congr fun _ => rfl
    sources := h.sources.congr (fun _ => rfl) rfl
    requests := h.requests.congr id .inl fun {o c} hc => by
      rcases hlook hc with ⟨rfl,rfl⟩ | hc
      · exact .inr hd.unsent
      · exact .inl hc }

theorem handleToolPrepared_settles (h : Ledger s none none) :
    Settles (handleToolPrepared link body) s := by
  rw [Settles,handleToolPrepared,Action.ends_bind,Action.ends_read]
  cases hc : (field body "id").bind s.state.preparing.lookup with
  | none => exact h
  | some call =>
    obtain ⟨i,hi,hc⟩ := Option.bind_eq_some_iff.mp hc
    obtain ⟨ht,hd⟩ := h.prepared hc
    simp only [hi,Option.getD_some]
    rw [Action.ends_bind]
    change Ends _ _ _ (s.modify fun s => { s with preparing := s.preparing.erase i })
    cases hp : call.approvalPolicy with
    | none => exact fail_settles ht hd
    | some policy =>
      cases ha : assess s.state.denied call body with
      | error problem => exact fail_settles ht hd
      | ok verdictOf =>
        obtain ⟨assessment,reason⟩ := verdictOf
        simp only
        cases verdict policy s.state.mode assessment with
        | run => exact execute_settles ht hd
        | deny => exact deny_settles ht hd
        | ask =>
          simp only
          rw [Action.ends_bind]
          change Ends _ _ _ ((s.modify fun s => { s with preparing := s.preparing.erase i }).modify
            fun s => { s with awaitingApproval := s.awaitingApproval.insert call.outerId call })
          refine (sendEvent_quiet (ht.asked hd (by simp [hp]))
            (Frame.terminalId_permissionRequest call policy reason) fun outcome => ?_).mono
            (fun _ _ h => h.1) fun _ _ h => h.1.stopped
          cases outcome <;> exact ⟨fun _ => rfl,fun _ => rfl,fun _ _ => rfl,fun _ => rfl⟩

/-- The user has answered. -/
theorem Ledger.responded (h : Ledger s none none) (hc : s.state.awaitingApproval.lookup o = some call) :
    Ledger (s.modify fun s => { s with awaitingApproval := s.awaitingApproval.erase o }) none none ∧
      Decided (s.modify fun s => { s with awaitingApproval := s.awaitingApproval.erase o }) call := by
  obtain ⟨ho,hl,hpol,hn⟩ := h.linked.awaiting hc
  have hlook : ∀ {j c}, (s.state.awaitingApproval.erase o).lookup j = some c →
      j ≠ o ∧ s.state.awaitingApproval.lookup j = some c := by
    intro j c hj
    rw [lookup_erase_eq] at hj
    split at hj
    · cases hj
    · exact ⟨‹_›,hj⟩
  constructor
  · exact {
      linked := ⟨h.linked.unique,h.linked.preparing,fun hj => h.linked.awaiting (hlook hj).2⟩
      callers := h.callers.congr fun _ => rfl
      sources := h.sources.congr (fun _ => rfl) rfl
      requests := h.requests.congr id .inl fun hj => .inl (hlook hj).2 }
  · refine ⟨hl,hn,?_,h.requests.unapproved hc⟩
    intro j c hj he
    obtain ⟨hne,hj⟩ := hlook hj
    obtain ⟨hcj,hlj,-⟩ := h.linked.awaiting hj
    rw [he,hl] at hlj
    have hout : call.outerId = c.outerId := congrArg PendingForward.outerId (Option.some.inj hlj)
    exact hne (by rw [← hcj,← hout,ho])

theorem handlePermissionResponse_settles (h : Ledger s none none) :
    Settles (handlePermissionResponse link body) s := by
  unfold Settles handlePermissionResponse
  cases hid : field body "id" with
  | none => exact h
  | some o =>
    simp only
    rw [Action.ends_bind,Action.ends_read]
    cases hc : s.state.awaitingApproval.lookup o with
    | none => exact h
    | some call =>
      obtain ⟨ht,hd⟩ := h.responded hc
      simp only
      rw [Action.ends_bind]
      change Ends _ _ _ (s.modify fun s => { s with awaitingApproval := s.awaitingApproval.erase o })
      split
      · exact execute_settles ht ⟨hd.pending,hd.preparing,hd.awaiting,hd.unsent⟩
      · exact deny_settles ht hd

/-! Endings. -/

theorem mem_forwardsOf {s : GateState} {e : String × String} :
    e ∈ forwardsOf s o ↔ ∃ f, s.pending.lookup e.1 = some f ∧ f.outerId = o ∧ f.source = e.2 := by
  have hm : ∀ i f, s.pending.lookup i = some f ↔ ⟨i,f⟩ ∈ s.pending.entries :=
    fun _ _ => AList.mem_lookup_iff
  simp only [forwardsOf,List.mem_mergeSort,List.mem_map,List.mem_filter,decide_eq_true_eq,hm]
  constructor
  · rintro ⟨⟨i,f⟩,⟨he,ho⟩,rfl⟩
    exact ⟨f,he,ho,rfl⟩
  · rintro ⟨f,he,ho,hs⟩
    exact ⟨⟨e.1,f⟩,⟨he,ho⟩,Prod.ext rfl hs⟩

/-- A caller's id has at most one forward. -/
theorem forwardsOf_eq (h : Linked s.state) :
    (∀ j f, s.state.pending.lookup j = some f → f.outerId ≠ o) ∧ forwardsOf s.state o = [] ∨
    ∃ i f, s.state.pending.lookup i = some f ∧ f.outerId = o ∧
      forwardsOf s.state o = [(i,f.source)] := by
  have hnodup : ((forwardsOf s.state o).map (·.1)).Nodup := by
    refine List.Perm.nodup_iff ((List.mergeSort_perm _ _).map _) |>.mpr ?_
    rw [List.map_map]
    exact (s.state.pending.nodupKeys.sublist List.filter_sublist :)
  cases hf : forwardsOf s.state o with
  | nil =>
    refine .inl ⟨fun j f hj ho => ?_,rfl⟩
    have hmem : (j,f.source) ∈ forwardsOf s.state o := mem_forwardsOf.mpr ⟨f,hj,ho,rfl⟩
    simp [hf] at hmem
  | cons e rest =>
    refine .inr ?_
    obtain ⟨f,hl,ho,hs⟩ := mem_forwardsOf.mp (hf ▸ List.mem_cons_self : e ∈ forwardsOf s.state o)
    refine ⟨e.1,f,hl,ho,?_⟩
    cases rest with
    | nil => rw [hs]
    | cons e' rest =>
      obtain ⟨f',hl',ho',-⟩ := mem_forwardsOf.mp (hf ▸ by simp : e' ∈ forwardsOf s.state o)
      rw [hf] at hnodup
      have := h.unique hl hl' (ho.trans ho'.symm)
      simp [this] at hnodup

theorem sendAll_nil (s : Session) : sendAll link [] s = (.ok (),s) := rfl

theorem sendAll_cons (frame : Frame) (rest : List Frame) :
    sendAll link (frame :: rest) = (do sendEvent link frame; sendAll link rest) := rfl

theorem handleToolCancel_settles (h : Ledger s none none) :
    Settles (handleToolCancel link body) s := by
  unfold Settles handleToolCancel
  cases hid : field body "id" with
  | none => exact h
  | some o =>
    simp only
    rw [Action.ends_bind,Action.ends_read,Action.ends_bind]
    rcases forwardsOf_eq h.linked (o := o) with ⟨hnone,hf⟩ | ⟨i,f,hl,ho,hf⟩
    · have hawait : s.state.awaitingApproval.lookup o = none := by
        refine Option.eq_none_iff_forall_ne_some.mpr fun c hc => ?_
        obtain ⟨hco,hl,-⟩ := h.linked.awaiting hc
        exact hnone _ _ hl hco
      have hlook : ∀ j, (s.state.awaitingApproval.erase o).lookup j =
          s.state.awaitingApproval.lookup j := by
        intro j
        rw [lookup_erase_eq]
        split
        · rename_i hj
          rw [hj,hawait]
        · rfl
      simp only [hf,hawait,List.foldl_nil,List.isEmpty_nil,Option.isSome_none,Bool.not_false,
        Bool.and_self,if_true]
      exact {
        linked := ⟨h.linked.unique,h.linked.preparing,
          fun hj => h.linked.awaiting ((hlook _).symm.trans hj)⟩
        callers := h.callers.congr (g := fun s => { s with
          awaitingApproval := s.awaitingApproval.erase o }) fun _ => rfl
        sources := h.sources.congr (g := fun s => { s with
          awaitingApproval := s.awaitingApproval.erase o }) (fun _ => rfl) rfl
        requests := h.requests.congr (g := fun s => { s with
          awaitingApproval := s.awaitingApproval.erase o }) id .inl
            fun hj => .inl ((hlook _).symm.trans hj) }
    · subst ho
      simp only [hf,List.foldl_cons,List.foldl_nil,List.isEmpty_cons,Bool.and_false,
        Bool.false_eq_true,if_false,List.map_cons,List.map_nil]
      change Ends _ _ _ (s.modify fun s => { s with
        awaitingApproval := s.awaitingApproval.erase f.outerId
        pending := s.pending.erase i
        preparing := s.preparing.erase i })
      have ht : Ledger (s.modify fun s => { s with
          awaitingApproval := s.awaitingApproval.erase f.outerId
          pending := s.pending.erase i
          preparing := s.preparing.erase i }) (some f.outerId) (some i) := by
        refine h.take hl (lookup_erase_eq _ _) rfl (fun {j c} hj => ?_) fun {j c} hj => ?_
        · rw [lookup_erase_eq] at hj
          split at hj
          · cases hj
          · exact ⟨‹_›,hj⟩
        · rw [lookup_erase_eq] at hj
          split at hj
          · cases hj
          · rename_i hne
            refine ⟨?_,hj⟩
            rintro rfl
            obtain ⟨hco,hlc,-⟩ := h.linked.awaiting hj
            have hout : f.outerId = c.outerId :=
              congrArg PendingForward.outerId (Option.some.inj (hl.symm.trans hlc))
            exact hne (by rw [← hco,hout])
      rw [Action.ends_bind,sendAll_cons,Action.ends_bind]
      refine (sendEvent_cancel ht).mono (fun _ s₁ h₁ => ?_) fun _ _ h₁ => h₁.stopped
      exact (sendEvent_answer h₁).mono (fun _ _ h₂ => h₂) fun _ _ h₂ => h₂.stopped

theorem handleToolResult_settles (h : Ledger s none none) :
    Settles (handleToolResult link body) s := by
  unfold Settles handleToolResult
  cases hid : field body "id" with
  | none => exact h
  | some i =>
    simp only
    rw [Action.ends_bind,Action.ends_read]
    cases hl : s.state.pending.lookup i with
    | none => exact h
    | some f =>
      simp only
      rw [Action.ends_bind]
      change Ends _ _ _ (s.modify fun s => { s with
        pending := s.pending.erase i
        preparing := s.preparing.erase i
        awaitingApproval := retain s.awaitingApproval fun call => call.innerId ≠ i })
      refine sendEvent_result (i := i) ?_ hid
      refine h.take hl (lookup_erase_eq _ _) rfl (fun {j c} hj => ?_) fun {j c} hj => ?_
      · rw [lookup_erase_eq] at hj
        split at hj
        · cases hj
        · exact ⟨‹_›,hj⟩
      · obtain ⟨hj,hne⟩ := lookup_retain.mp hj
        exact ⟨by simpa using hne,hj⟩

/-- The call is still being prepared, or the user is being asked about it. -/
def Undecided (s : GateState) (i : String) : Prop :=
  (s.preparing.lookup i).isSome ∨
    ∃ o call, s.awaitingApproval.lookup o = some call ∧ call.innerId = i

/-- The wire does not refuse the progress of an undecided call. -/
def Undisturbed (link : Link) (s : Session) (body : Object) : Prop :=
  field body "kind" = some "tool.stream" → ∀ i f, field body "id" = some i →
    s.state.pending.lookup i = some f → Undecided s.state i →
    ∀ e, link s.history (Frame.progress f.outerId body).body = some e → e.refusal = false

theorem handleToolStream_settles (h : Ledger s none none) (hu : Undisturbed link s body)
    (hk : field body "kind" = some "tool.stream") : Settles (handleToolStream link body) s := by
  unfold Settles handleToolStream
  cases hid : field body "id" with
  | none => exact h
  | some i =>
    simp only
    rw [Action.ends_bind,Action.ends_read]
    cases hl : s.state.pending.lookup i with
    | none => exact h
    | some f =>
      simp only
      have hterm : (Frame.progress f.outerId body).terminalId = none := Frame.terminalId_progress hk
      obtain ⟨outcome,hout,hs⟩ := checkedSend_apply link (.progress f.outerId body) s
      rw [Action.ends_bind,Ends,Action.attempt_apply,sendEvent_apply hterm,hs]
      have hq : Ledger (s.push (.sent (.progress f.outerId body) outcome)) none none := by
        refine h.quiet ?_
        cases outcome <;> exact ⟨fun _ => rfl,fun _ => rfl,fun _ _ => rfl,fun _ => rfl⟩
      cases outcome with
      | none => exact hq
      | some e =>
        change Ends _ _ _ (s.push (.sent (.progress f.outerId body) (some e)))
        rw [Action.ends_bind]
        change Ends _ _ _ ((s.push (.sent (.progress f.outerId body) (some e))).modify
          fun s => { s with pending := s.pending.erase i })
        by_cases he : e.refusal = true
        · have hdecided : ¬Undecided s.state i := fun hun => by simp [hu hk i f hid hl hun e hout] at he
          have ht : Ledger ((s.push (.sent (.progress f.outerId body) (some e))).modify
              fun s => { s with pending := s.pending.erase i }) (some f.outerId) (some i) := by
            refine hq.take hl (lookup_erase_eq _ _) rfl (fun {j c} hj => ⟨?_,hj⟩)
              fun {j c} hj => ⟨fun hi => hdecided (.inr ⟨j,c,hj,hi⟩),hj⟩
            rintro rfl
            exact hdecided (.inl (Option.isSome_of_mem hj))
          rw [if_pos he,Action.ends_bind]
          refine (sendEvent_cancel ht).mono (fun _ s₁ h₁ => ?_) fun _ _ h₁ => h₁.stopped
          exact admissionFailure_settles h₁
        · rw [if_neg he,admissionFailure,if_neg he,Action.ends_fail]
          exact {
            callers := ⟨_,hq.callers.erase hq.linked hl (lookup_erase_eq _ _)⟩
            sources := ⟨_,hq.sources.erase hl (lookup_erase_eq _ _) rfl⟩
            requests := hq.requests.congr id .inl .inl }

/-! Changes that concern no call. -/

theorem Ledger.unmoved (h : Ledger s none none) {g : GateState → GateState}
    (hp : (g s.state).pending = s.state.pending) (hr : (g s.state).preparing = s.state.preparing)
    (ha : (g s.state).awaitingApproval = s.state.awaitingApproval)
    (hc : (g s.state).innerIdCounter = s.state.innerIdCounter) : Ledger (s.modify g) none none where
  linked := by
    obtain ⟨hu,hp',ha'⟩ := h.linked
    constructor <;> simp only [Session.modify_state,hp,hr,ha]
    · exact hu
    · exact hp'
    · exact ha'
  callers := h.callers.congr fun _ => by rw [hp]
  sources := h.sources.congr (fun _ => by rw [hp]) hc
  requests := by
    refine h.requests.congr (fun hm => ?_) (fun hj => .inl (hr ▸ hj)) fun hj => .inl (ha ▸ hj)
    obtain ⟨n,hn,rfl⟩ := hm
    exact ⟨n,by rwa [Session.modify_state,hc],rfl⟩

/-- Output that belongs to no call. -/
theorem sendEvent_settles {frame : Frame} (h : Ledger s none none) (hf : frame.terminalId = none)
    (hq : ∀ outcome, (Entry.sent frame outcome).Quiet) : Settles (sendEvent link frame) s :=
  (sendEvent_quiet h hf hq).mono (fun _ _ h => h.1) fun _ _ h => h.1.stopped

theorem handleSetMode_settles (h : Ledger s none none) : Settles (handleSetMode link body) s := by
  unfold Settles handleSetMode
  cases (field body "mode").bind GateMode.parse with
  | none => exact h
  | some target =>
    simp only
    rw [Action.ends_bind]
    change Ends _ _ _ (s.modify fun s => { s with mode := target })
    refine sendEvent_settles (h.unmoved rfl rfl rfl rfl) (Frame.terminalId_modeChanged target) ?_
    rintro (_ | e) <;> exact ⟨fun _ => rfl,fun _ => rfl,fun _ _ => rfl,fun _ => rfl⟩

theorem advertiseError_settles {source message : String} (h : Ledger s none none) :
    Settles (sendEvent link (.advertiseError source message)) s := by
  refine sendEvent_settles h (Frame.terminalId_advertiseError source message) ?_
  rintro (_ | e) <;> exact ⟨fun _ => rfl,fun _ => rfl,fun _ _ => rfl,fun _ => rfl⟩

theorem handleToolsAdvertise_settles (h : Ledger s none none) :
    Settles (handleToolsAdvertise link displayContract body) s := by
  unfold handleToolsAdvertise
  split
  · exact advertiseError_settles h
  · split
    · exact h
    · split
      · exact advertiseError_settles h
      · rename_i source _ _ items _ _ tools _
        rw [Settles,Action.ends_bind,Action.ends_read]
        cases validateUniqueToolNames source tools s.state with
        | error e => exact advertiseError_settles h
        | ok _ =>
          simp only
          generalize (if tools.isEmpty = true then s.state.advertised.erase source
            else s.state.advertised.insert source tools) = advertised
          rw [Action.ends_bind]
          change Ends _ _ _ (s.modify fun s => { s with advertised }.rebuildOwnerMap)
          refine sendEvent_settles (h.unmoved rfl rfl rfl rfl) (Frame.terminalId_toolRegister _) ?_
          rintro (_ | e) <;> exact ⟨fun _ => rfl,fun _ => rfl,fun _ _ => rfl,fun _ => rfl⟩

/-! Events. -/

/-- An invocation comes under an id that no open call has. -/
def Apart (s : Session) (body : Object) : Prop :=
  field body "kind" = some "tool-gate.tool.invoke" → ∀ o, field body "id" = some o →
    s.count (invokes o) = s.count (answers o)

theorem Ledger.heard (h : Ledger s none none) (hk : field body "kind" ≠ some "tool-gate.tool.invoke") :
    Ledger (s.push (.heard body)) none none :=
  h.quiet ⟨fun _ => by simp [invokes,hk],fun _ => rfl,fun _ _ => rfl,fun _ => rfl⟩

theorem Ledger.invoked (h : Ledger s none none) (ha : Apart s body)
    (hk : field body "kind" = some "tool-gate.tool.invoke") :
    Ledger (s.push (.heard body)) (field body "id") none where
  linked := h.linked
  callers := by
    cases hid : field body "id" with
    | none => exact h.callers.quiet (fun _ => by simp [invokes,hid]) fun _ => rfl
    | some o => exact h.callers.invoked hk hid (ha hk o hid)
  sources := h.sources.quiet fun _ => rfl
  requests := h.requests.quiet fun _ _ => rfl

theorem dispatchEvent_settles (displayContract : Json → Except String Unit)
    (h : Ledger s none none) (ha : Apart s body)
    (hu : Undisturbed link (s.push (.heard body)) body) :
    Settles (dispatchEvent link displayContract body) (s.push (.heard body)) := by
  by_cases hk : field body "kind" = some "tool-gate.tool.invoke"
  · rw [dispatchEvent,hk]
    exact handleToolInvoke_settles (h.invoked ha hk)
  · have hs := h.heard hk
    unfold dispatchEvent
    split
    · exact handleToolsAdvertise_settles hs
    · exact absurd ‹_› hk
    · exact handleToolCancel_settles hs
    · exact handleToolPrepared_settles hs
    · exact handleToolStream_settles hs hu ‹_›
    · exact handleToolResult_settles hs
    · exact handlePermissionResponse_settles hs
    · exact handleSetMode_settles hs
    · exact hs

end Nefor.ToolGate
