import Nefor.Ncp.Acts

/-! Every turn of the loop is a sequence of moves, and what is moved by each. -/
namespace Nefor.Ncp
open Relation (ReflTransGen)

namespace ConnectionRecord

/-- A connection is closed once. -/
def close (now : Nat) (record : ConnectionRecord) : ConnectionRecord :=
  if record.closing then record
  else { record with closing := true, closeDeadline := some (now + 2000) }

def fail (now : Nat) (record : ConnectionRecord) : ConnectionRecord :=
  { record with transportFailure := some now, closing := true, closeDeadline := some (now + 2000) }

end ConnectionRecord

namespace Broker
variable {w : World} {b : Broker} {id : ConnectionId} {record : ConnectionRecord}

/-! What the acts do to the table. -/

theorem forceClose_connsById : (b.forceClose w id).connsById =
    Function.update b.connsById id ((b.connsById id).map (·.close (w.now b.history))) := by
  unfold forceClose
  cases hr : b.connsById id with
  | none => exact (Function.update_eq_self_iff.mpr hr.symm).symm
  | some record =>
    simp only [Option.map_some,ConnectionRecord.close]
    split
    · rw [← hr,Function.update_eq_self]
    · split <;> simp [update,hr]

theorem fireTerminate_connsById : (b.fireTerminate id).connsById =
    Function.update b.connsById id
      ((b.connsById id).map fun record => { record with terminate := false }) := by
  unfold fireTerminate
  cases hr : b.connsById id with
  | none => exact (Function.update_eq_self_iff.mpr hr.symm).symm
  | some record =>
    simp only [Option.map_some]
    split
    · simp [update,hr]
    · rename_i hterm
      have hsame : { record with terminate := false } = record := by
        cases record
        simp_all
      rw [hsame,← hr,Function.update_eq_self]

theorem expire_connsById : (b.expire id).connsById = Function.update b.connsById id
    ((b.connsById id).map fun record =>
      { record with closeDeadline := none, terminate := false }) := by
  rw [expire,fireTerminate_connsById,update_self,update,Function.update_idem,Option.map_map]
  rfl

theorem recordFailure_connsById {name : PluginName} {phase kind : String} :
    (b.recordFailure w id name phase kind).connsById =
      Function.update b.connsById id ((b.connsById id).map (·.fail (w.now b.history))) := rfl

theorem handleExit_connsById {outcome : ExitOutcome} : (b.handleExit w id outcome).connsById =
    Function.update b.connsById id ((b.connsById id).map fun record =>
      { record with pendingExit := some outcome }.close (w.now b.history)) := by
  rw [handleExit,forceClose_connsById,update_self,update,Function.update_idem,Option.map_map]
  rfl

theorem reportExit_connsById {name : PluginName} {outcome : ExitOutcome} :
    (b.reportExit id name outcome).connsById = Function.update b.connsById id none := by
  unfold reportExit
  simp only [queue_connsById]
  split <;> rfl

theorem dispatchTail_connsById : (dispatchTail w b).connsById = b.connsById := by
  obtain ⟨h,hb,-⟩ := dispatchTail_spoken w b
  rw [hb]
  rfl

/-- A drain moves the cursor and lets Lua speak. -/
theorem drainPendingDispatch_eq (w : World) (b : Broker) : ∃ count h,
    drainPendingDispatch w b = Broker.hear { b with mirroredCount := count } h := by
  have hrounds : ∀ (rounds : Nat) (b : Broker), ∃ count h,
      drainRounds w rounds b = Broker.hear { b with mirroredCount := count } h := by
    intro rounds
    induction rounds with
    | zero => exact fun b => ⟨b.mirroredCount,[],(hear_nil b).symm⟩
    | succ rounds ih =>
      intro b
      rw [drainRounds]
      split
      · exact ⟨b.mirroredCount,[],(hear_nil b).symm⟩
      · obtain ⟨first,hfirst,-⟩ := dispatchTail_spoken w b
        obtain ⟨count,more,hmore⟩ := ih (dispatchTail w b)
        refine ⟨count,first ++ more,hmore.trans ?_⟩
        rw [hfirst]
        exact hear_hear { b with mirroredCount := count } first more
  exact hrounds 8 b

theorem drainEngineEnvelopes_connsById : (drainEngineEnvelopes w b).connsById = b.connsById := by
  unfold drainEngineEnvelopes
  split
  · rfl
  · obtain ⟨count,h,heq⟩ := drainPendingDispatch_eq w b.publishEngineEnvelopes
    rw [heq]
    rfl

theorem drainEngineEnvelopes_order : (drainEngineEnvelopes w b).order = b.order := by
  unfold drainEngineEnvelopes
  split
  · rfl
  · obtain ⟨count,h,heq⟩ := drainPendingDispatch_eq w b.publishEngineEnvelopes
    rw [heq]
    rfl

theorem drainEngineEnvelopes_pending : (drainEngineEnvelopes w b).pendingEngineEnvelopes = [] := by
  unfold drainEngineEnvelopes
  split
  · assumption
  · obtain ⟨count,h,heq⟩ := drainPendingDispatch_eq w b.publishEngineEnvelopes
    rw [heq]
    rfl

theorem forceClose_grows : b.history <+: (b.forceClose w id).history := by
  unfold forceClose
  split
  · exact List.prefix_refl _
  · split
    · exact List.prefix_refl _
    · simp only
      split
      · exact List.prefix_append _ _
      · exact List.prefix_refl _

theorem fireTerminate_grows : b.history <+: (b.fireTerminate id).history := by
  unfold fireTerminate
  split
  · exact List.prefix_refl _
  · split
    · exact List.prefix_append _ _
    · exact List.prefix_refl _

theorem reportExit_history {name : PluginName} {outcome : ExitOutcome} :
    (b.reportExit id name outcome).history = b.history := by
  unfold reportExit
  simp only [queue_history]
  split <;> rfl

theorem reportExit_conns {name : PluginName} {outcome : ExitOutcome} :
    (b.reportExit id name outcome).conns = b.conns.filter (· ≠ name) := by
  unfold reportExit
  simp only [queue_conns]
  split <;> rfl

theorem reportExit_order {name : PluginName} {outcome : ExitOutcome} :
    (b.reportExit id name outcome).order = b.order := by
  unfold reportExit
  simp only [queue_order]
  split <;> rfl

theorem reportExit_pending {name : PluginName} {outcome : ExitOutcome} :
    (b.reportExit id name outcome).pendingEngineEnvelopes =
      b.pendingEngineEnvelopes ++ [.processTerminated name outcome] := by
  unfold reportExit
  simp only [queue_pending]
  split <;> rfl

theorem remove_of_none (h : b.connsById id = none) : b.remove id = b := by
  unfold remove
  rw [← h,Function.update_eq_self]

/-! A condition on a record. -/

/-- The connection is gone, or its record meets the condition. -/
def Holds (P : ConnectionRecord → Prop) (b : Broker) (id : ConnectionId) : Prop :=
  ∀ record, b.connsById id = some record → P record

variable {P : ConnectionRecord → Prop} {b' : Broker} {other : ConnectionId}

theorem Holds.change {f : ConnectionRecord → ConnectionRecord} (h : Holds P b other)
    (hb : b'.connsById = Function.update b.connsById id ((b.connsById id).map f))
    (hf : ∀ record, P record → P (f record)) : Holds P b' other := by
  intro record hr
  rw [hb] at hr
  by_cases ho : other = id
  · subst ho
    rw [Function.update_self] at hr
    obtain ⟨old,hold,rfl⟩ := Option.map_eq_some_iff.mp hr
    exact hf old (h old hold)
  · rw [Function.update_of_ne ho] at hr
    exact h record hr

theorem Holds.drop (h : Holds P b other)
    (hb : b'.connsById = Function.update b.connsById id none) : Holds P b' other := by
  intro record hr
  rw [hb] at hr
  by_cases ho : other = id
  · subst ho
    simp at hr
  · rw [Function.update_of_ne ho] at hr
    exact h record hr

theorem Holds.same (h : Holds P b other) (hb : b'.connsById = b.connsById) : Holds P b' other := by
  intro record hr
  rw [hb] at hr
  exact h record hr

/-- Only a connection that is closing has a deadline, or a transport that failed. -/
def Coherent (b : Broker) : Prop :=
  ∀ id, Holds (fun record =>
    (record.closeDeadline.isSome ∨ record.transportFailure.isSome) → record.closing) b id

end Broker
open Broker

variable {w : World} {b b' : Broker} {id : ConnectionId}

theorem passBatch_connsById {first : ConnectionId × ConnectionInbound}
    (h : tryRecv w b = some (first,b')) : (passBatch w first b').connsById = b.connsById := by
  obtain ⟨left,spoken,hpass,-,-⟩ := passBatch_eq h
  rw [hpass]
  rfl

namespace Act

/-- What holds of a record keeps holding when the changes of a record keep it. -/
theorem holds {P : ConnectionRecord → Prop} {other : ConnectionId} (h : Act w b b')
    (hclose : ∀ now record, P record → P (record.close now))
    (hfail : ∀ now record, P record → P (record.fail now))
    (hexpire : ∀ record, P record → P { record with closeDeadline := none, terminate := false })
    (hfire : ∀ record, P record → P { record with terminate := false })
    (hb : Holds P b other) : Holds P b' other := by
  cases h with
  | enter call h =>
    obtain ⟨h,he,-⟩ := enter_spoken w call b
    exact hb.same (by rw [he]; rfl)
  | dispatchTail h => exact hb.same dispatchTail_connsById
  | publishEngineEnvelopes => exact hb
  | queue fact h => exact hb
  | shutdownRequested request => exact hb
  | forceClose id h => exact hb.change forceClose_connsById fun record hp => hclose _ record hp
  | recordFailure phase kind hr hf =>
    exact hb.change recordFailure_connsById fun record hp => hfail _ record hp
  | remove hr hw hc => exact hb.drop rfl
  | expire id => exact hb.change expire_connsById hexpire
  | fireTerminate id => exact hb.change fireTerminate_connsById hfire
  | discard hr hw hs => exact hb.drop rfl
  | reportExit hr he => exact hb.drop reportExit_connsById
  | waits tasks => exact hb

theorem coherent (h : Act w b b') (hb : b.Coherent) : b'.Coherent := by
  intro id
  refine h.holds ?_ ?_ ?_ ?_ (hb id)
  · intro now record hp
    unfold ConnectionRecord.close
    split
    · exact hp
    · exact fun _ => rfl
  · exact fun _ _ _ _ => rfl
  · exact fun record hp hd => hp (hd.imp_left Bool.noConfusion)
  · exact fun _ hp => hp

/-- What has happened stays in the history. -/
theorem grows (h : Act w b b') : b.history <+: b'.history := by
  cases h with
  | enter call h =>
    obtain ⟨h,he,-⟩ := enter_spoken w call b
    exact ⟨h,by rw [he]; rfl⟩
  | dispatchTail h =>
    obtain ⟨h,he,-⟩ := dispatchTail_spoken w b
    exact ⟨h,by rw [he]; rfl⟩
  | publishEngineEnvelopes => exact ⟨_,rfl⟩
  | queue fact h => exact List.prefix_refl _
  | shutdownRequested request => exact List.prefix_append _ _
  | forceClose id h => exact forceClose_grows
  | recordFailure phase kind hr hf => exact List.prefix_append _ _
  | remove hr hw hc => exact List.prefix_refl _
  | expire id => exact fireTerminate_grows (b := b.update id _)
  | fireTerminate id => exact fireTerminate_grows
  | discard hr hw hs => exact List.prefix_refl _
  | reportExit hr he =>
    rw [reportExit_history]
  | waits tasks => exact List.prefix_append _ _

end Act

abbrev Acts (w : World) : Broker → Broker → Prop := ReflTransGen (Act w)

namespace Acts

theorem grows (h : Acts w b b') : b.history <+: b'.history := by
  induction h with
  | refl => exact List.prefix_refl _
  | tail _ h ih => exact ih.trans h.grows

theorem coherent (h : Acts w b b') (hb : b.Coherent) : b'.Coherent := by
  induction h with
  | refl => exact hb
  | tail _ h ih => exact h.coherent ih

/-- A walk over a list, with what every step of it needs. -/
theorem foldl {α : Type} {f : Broker → α → Broker} {P : Broker → α → Prop} {items : List α}
    (hf : ∀ b, ∀ item ∈ items, P b item → Acts w b (f b item) ∧
      ∀ other ∈ items, P b other → P (f b item) other)
    (hp : ∀ item ∈ items, P b item) : Acts w b (items.foldl f b) := by
  induction items generalizing b with
  | nil => exact .refl
  | cons item rest ih =>
    obtain ⟨hstep,hkeep⟩ := hf b item List.mem_cons_self (hp item List.mem_cons_self)
    refine hstep.trans (ih ?_ ?_)
    · intro b other ho hb
      obtain ⟨hs,hk⟩ := hf b other (List.mem_cons_of_mem _ ho) hb
      exact ⟨hs,fun more hm => hk more (List.mem_cons_of_mem _ hm)⟩
    · intro other ho
      exact hkeep other (List.mem_cons_of_mem _ ho) (hp other (List.mem_cons_of_mem _ ho))

/-- A walk that needs nothing but what has happened. -/
theorem foldl_of_history {α : Type} {f : Broker → α → Broker} {P : History → α → Prop}
    {items : List α} (hf : ∀ b, ∀ item ∈ items, P b.history item → Acts w b (f b item))
    (hm : ∀ h k item, h <+: k → P h item → P k item) (hp : ∀ item ∈ items, P b.history item) :
    Acts w b (items.foldl f b) := by
  refine foldl (P := fun b item => P b.history item) ?_ hp
  intro b item hi hb
  exact ⟨hf b item hi hb,fun other _ ho => hm _ _ other (hf b item hi hb).grows ho⟩

theorem drainRounds (w : World) (rounds : Nat) (b : Broker) : Acts w b (drainRounds w rounds b) := by
  induction rounds generalizing b with
  | zero => exact .refl
  | succ rounds ih =>
    rw [Broker.drainRounds]
    split
    · exact .refl
    · rename_i hlen
      exact .head (.dispatchTail b (Nat.lt_of_not_le hlen)) (ih _)

theorem drainPendingDispatch (w : World) (b : Broker) : Acts w b (drainPendingDispatch w b) :=
  drainRounds w 8 b

theorem drainEngineEnvelopes (w : World) (b : Broker) : Acts w b (drainEngineEnvelopes w b) := by
  unfold Broker.drainEngineEnvelopes
  split
  · exact .refl
  · exact .head (.publishEngineEnvelopes b) (drainPendingDispatch w _)

theorem transportFailed (w : World) (b : Broker) (id : ConnectionId) (phase kind : String) :
    Acts w b (b.transportFailed w id phase kind) := by
  unfold Broker.transportFailed
  cases hr : b.connsById id with
  | none => exact .refl
  | some record =>
    simp only
    split
    · exact .refl
    · rename_i hfail
      have hrecord : Acts w b (Broker.drainEngineEnvelopes w
          (b.recordFailure w id record.name phase kind)) :=
        .head (.recordFailure phase kind hr (by simpa using hfail)) (drainEngineEnvelopes w _)
      split
      · exact hrecord
      · rename_i hwatch
        have hfailed : (Broker.drainEngineEnvelopes w
            (b.recordFailure w id record.name phase kind)).connsById id =
              some (record.fail (w.now b.history)) := by
          rw [drainEngineEnvelopes_connsById,recordFailure_connsById,Function.update_self,hr]
          rfl
        exact hrecord.tail (.remove hfailed (Bool.eq_false_iff.mpr hwatch) rfl)

theorem handleReaderClosed (w : World) {b : Broker} {id : ConnectionId} {reason : ReaderEnd}
    (h : .received id (.closed reason) ∈ b.history) :
    Acts w b (b.handleReaderClosed w id reason) := by
  cases reason with
  | eof =>
    unfold Broker.handleReaderClosed
    have hclose : Acts w b (b.forceClose w id) := .single (.forceClose b id (.inl h))
    simp only
    cases hr : (b.forceClose w id).connsById id with
    | none => exact hclose
    | some record =>
      simp only
      split
      · exact hclose
      · rename_i hwatch
        refine hclose.tail (.remove hr (by simpa using hwatch) ?_)
        rw [forceClose_connsById,Function.update_self] at hr
        obtain ⟨old,-,rfl⟩ := Option.map_eq_some_iff.mp hr
        unfold ConnectionRecord.close
        split
        · assumption
        · rfl
  | ioError => exact transportFailed w b id _ _
  | invalidUtf8 => exact transportFailed w b id _ _
  | lineTooLong => exact transportFailed w b id _ _

theorem observeLossesAndLocalDeadlines (w : World) {b : Broker} (h : b.Coherent) :
    Acts w b (b.observeLossesAndLocalDeadlines w) := by
  unfold Broker.observeLossesAndLocalDeadlines
  simp only
  -- What is removed has no watcher and was closing all along.
  refine ((foldl (P := fun _ _ => True) ?_ fun _ _ => trivial).trans
    (foldl (P := Holds fun record => record.hasWatcher = false ∧ record.closing) ?_ ?_)).trans
      (foldl (P := fun _ _ => True) ?_ fun _ _ => trivial)
  · exact fun b id _ _ => ⟨.single (.expire b id),fun _ _ _ => trivial⟩
  · intro b id _ hb
    refine ⟨?_,fun other _ ho => ho.drop rfl⟩
    cases hr : b.connsById id with
    | none =>
      rw [remove_of_none hr]
    | some record => exact .single (.remove hr (hb record hr).1 (hb record hr).2)
  · intro id hid
    have hexpire : ∀ (ids : List ConnectionId) (b : Broker),
        Holds (fun record => record.hasWatcher = false ∧ record.closing) b id →
        Holds (fun record => record.hasWatcher = false ∧ record.closing) (ids.foldl Broker.expire b) id := by
      intro ids
      induction ids with
      | nil => exact fun _ hb => hb
      | cons first rest ih =>
        intro b hb
        exact ih _ (hb.change expire_connsById fun _ hp => hp)
    apply hexpire
    intro record hr
    obtain ⟨hdue,hwatch⟩ := List.mem_filter.mp hid
    have hdue := (List.mem_filter.mp hdue).2
    simp only [hr,Option.any_some,Bool.not_eq_true'] at hdue hwatch
    refine ⟨hwatch,h id record hr (.inl ?_)⟩
    cases hd : record.closeDeadline with
    | none => simp [hd] at hdue
    | some deadline => rfl
  · exact fun b loss _ _ => ⟨.single (.queue b _ (.inr ⟨_,_,rfl⟩)),fun _ _ _ => trivial⟩

theorem accountExit (w : World) {b : Broker} {id : ConnectionId}
    (h : Holds (fun record => record.pendingExit.isSome) b id) : Acts w b (b.accountExit w id) := by
  unfold Broker.accountExit
  cases hr : b.connsById id with
  | none => exact .refl
  | some record =>
    obtain ⟨outcome,ho⟩ := Option.isSome_iff_exists.mp (h record hr)
    simp only [ho]
    exact .head (.reportExit hr (.inl ho)) (drainEngineEnvelopes w _)

theorem accountFinishedExits (w : World) (b : Broker) : Acts w b (b.accountFinishedExits w) := by
  unfold Broker.accountFinishedExits
  refine foldl (P := Holds fun record => record.pendingExit.isSome) ?_ ?_
  · intro b id _ hb
    refine ⟨accountExit w hb,fun other _ ho => ?_⟩
    unfold Broker.accountExit
    split
    · exact ho
    · split
      · exact ho.drop rfl
      · exact ho.drop (drainEngineEnvelopes_connsById.trans reportExit_connsById)
  · intro id hid record hr
    have hany := (List.mem_filter.mp hid).2
    simp only [hr,Option.any_some,Bool.and_eq_true] at hany
    exact hany.1

theorem beginShutdown (w : World) {b : Broker}
    (h : ∃ request, .shutdownRequested request ∈ b.history) : Acts w b (b.beginShutdown w) := by
  have hlua : Acts w b (Broker.drainPendingDispatch w (enter w .shutdown b)) :=
    .head (.enter b _ (.inr (.inr rfl))) (drainPendingDispatch w _)
  refine hlua.trans (foldl_of_history
    (P := fun h _ => ∃ request, .shutdownRequested request ∈ h) ?_ ?_ ?_)
  · exact fun b id _ hb => .single (.forceClose b id (.inr hb))
  · exact fun _ _ _ hk ⟨request,hm⟩ => ⟨request,hk.subset hm⟩
  · exact fun _ _ => h.imp fun _ hm => hlua.grows.subset hm

theorem forceTerminateAll (w : World) {b : Broker}
    (h : ∃ request, .shutdownRequested request ∈ b.history) : Acts w b b.forceTerminateAll := by
  unfold Broker.forceTerminateAll
  simp only
  have hfire : ∀ (ids : List ConnectionId) (b : Broker), Acts w b (ids.foldl Broker.fireTerminate b) ∧
      ∀ id, Holds (fun record => record.hasWatcher = false) b id →
        Holds (fun record => record.hasWatcher = false) (ids.foldl Broker.fireTerminate b) id := by
    intro ids
    induction ids with
    | nil => exact fun b => ⟨.refl,fun _ hb => hb⟩
    | cons first rest ih =>
      intro b
      obtain ⟨hacts,hkeep⟩ := ih (b.fireTerminate first)
      exact ⟨.head (.fireTerminate b first) hacts,
        fun id hb => hkeep id (hb.change fireTerminate_connsById fun _ hp => hp)⟩
  obtain ⟨hacts,hkeep⟩ := hfire b.ids b
  refine hacts.trans (foldl (P := fun b id =>
    (∃ request, .shutdownRequested request ∈ b.history) ∧
      Holds (fun record => record.hasWatcher = false) b id) ?_ ?_)
  · rintro b id _ ⟨hs,hb⟩
    unfold Broker.discard
    cases hr : b.connsById id with
    | none => exact ⟨.refl,fun _ _ ho => ho⟩
    | some record =>
      exact ⟨.single (.discard hr (hb record hr) hs),fun _ _ ho => ⟨ho.1,ho.2.drop rfl⟩⟩
  · intro id hid
    refine ⟨h.imp fun _ hm => hacts.grows.subset hm,hkeep id ?_⟩
    intro record hr
    simpa [hr] using (List.mem_filter.mp hid).2

theorem accountUnreapedProcesses (w : World) {b : Broker}
    (h : ∃ request, .shutdownRequested request ∈ b.history) :
    Acts w b (b.accountUnreapedProcesses w) := by
  refine Relation.ReflTransGen.trans ?_ (drainEngineEnvelopes w _)
  refine foldl_of_history (P := fun h _ => ∃ request, .shutdownRequested request ∈ h) ?_ ?_ ?_
  · intro b id _ hb
    unfold Broker.accountUnreaped
    cases hr : b.connsById id with
    | none => exact .refl
    | some record => exact .single (.reportExit hr (.inr hb))
  · exact fun _ _ _ hk ⟨request,hm⟩ => ⟨request,hk.subset hm⟩
  · exact fun _ _ => h

theorem handleRuntimeCallbacks (w : World) (b : Broker) : Acts w b (b.handleRuntimeCallbacks w) := by
  have hmore : ∀ (more : Nat) (b : Broker), Acts w b (moreCallbacks w more b) := by
    intro more
    induction more with
    | zero => exact fun _ => .refl
    | succ more ih =>
      intro b
      rw [moreCallbacks]
      split
      · exact .head (.enter b _ (.inr (.inl rfl))) (ih _)
      · exact .refl
  exact .head (.enter b _ (.inr (.inl rfl))) ((hmore _ _).trans (drainPendingDispatch w _))

theorem handleReadersClosed (w : World) {b : Broker} {closers : List (ConnectionId × ReaderEnd)}
    (h : ∀ item ∈ closers, .received item.1 (.closed item.2) ∈ b.history) :
    Acts w b (closers.foldl (fun b item => b.handleReaderClosed w item.1 item.2) b) :=
  foldl_of_history (P := fun h item => .received item.1 (.closed item.2) ∈ h)
    (fun _ _ _ hb => handleReaderClosed w hb) (fun _ _ _ hk hm => hk.subset hm) h

/-- A reader that is torn down after a tick was received in it. -/
theorem sort_closed {connsById : ConnectionId → Option ConnectionRecord}
    {messages : List (ConnectionId × ConnectionInbound)} {start : Batch}
    {item : ConnectionId × ReaderEnd} (h : item ∈ (messages.foldl (sort connsById) start).closed) :
    item ∈ start.closed ∨ (item.1,ConnectionInbound.closed item.2) ∈ messages := by
  induction messages generalizing start with
  | nil => exact .inl h
  | cons message rest ih =>
    rcases ih h with hs | hm
    · unfold sort at hs
      split at hs
      · exact .inl hs
      · split at hs
        · split at hs
          · exact .inl hs
          · exact .inl hs
        · rename_i reason hreason
          rcases List.mem_append.mp hs with hs | hs
          · exact .inl hs
          · cases List.mem_singleton.mp hs
            right
            rw [← hreason]
            exact List.mem_cons_self
    · exact .inr (List.mem_cons_of_mem _ hm)

/-- A tick is over when the lines were passed and the readers that ended are torn down. -/
theorem handleInboundTick (w : World) {b b' : Broker} {first : ConnectionId × ConnectionInbound}
    (h : tryRecv w b = some (first,b')) :
    Acts w (b'.passBatch w first) (b'.handleInboundTick w first) := by
  have hdrain := drainPendingDispatch w (b'.passBatch w first)
  refine hdrain.trans (handleReadersClosed w fun item hi => hdrain.grows.subset ?_)
  obtain hn | hm := sort_closed hi
  · cases hn
  · obtain ⟨left,spoken,heq,-,-⟩ := passBatch_eq h
    rw [heq]
    simp only [hear_history,List.mem_append]
    exact .inr (.inl (List.mem_map_of_mem (f := fun m => Event.received m.1 m.2) hm))

end Acts

namespace Move

theorem grows (h : Move w b b') : b.history <+: b'.history := by
  cases h with
  | act h => exact h.grows
  | tick h =>
    refine List.IsPrefix.trans ?_ (Acts.handleInboundTick w h).grows
    obtain ⟨left,spoken,hpass,-,-⟩ := passBatch_eq h
    exact ⟨_,by rw [hpass]; rfl⟩
  | exit id outcome =>
    exact (List.prefix_append _ _).trans (forceClose_grows (b := (b.note _).update id _))

theorem coherent (h : Move w b b') (hb : b.Coherent) : b'.Coherent := by
  cases h with
  | act h => exact h.coherent hb
  | tick h => exact (Acts.handleInboundTick w h).coherent fun id => (hb id).same (passBatch_connsById h)
  | exit id outcome =>
    intro other
    refine Holds.change (b := b.note (.exited id outcome)) (hb other) handleExit_connsById ?_
    intro record hp
    unfold ConnectionRecord.close
    split
    · exact hp
    · exact fun _ => rfl

end Move

abbrev Moves (w : World) : Broker → Broker → Prop := ReflTransGen (Move w)

theorem Acts.moves (h : Acts w b b') : Moves w b b' := by
  induction h with
  | refl => exact .refl
  | tail _ h ih => exact ih.tail (.act h)

namespace Moves

theorem grows (h : Moves w b b') : b.history <+: b'.history := by
  induction h with
  | refl => exact List.prefix_refl _
  | tail _ h ih => exact ih.trans h.grows

theorem coherent (h : Moves w b b') (hb : b.Coherent) : b'.Coherent := by
  induction h with
  | refl => exact hb
  | tail _ h ih => exact h.coherent ih

end Moves

/-! Turns. -/
namespace Loop
variable {s : Loop}

theorem takeInbound_moves (w : World) (more : Nat) (b : Broker) : Moves w b (takeInbound w more b) := by
  induction more generalizing b with
  | zero => exact .refl
  | succ more ih =>
    rw [takeInbound]
    cases hr : tryRecv w b with
    | none => exact .refl
    | some got => exact .head (.tick hr) (ih _)

theorem drainNotices_moves (w : World) (b : Broker) : Moves w b (drainNotices w b) := by
  unfold drainNotices
  split
  · refine (takeInbound_moves w _ b).trans
      (Acts.foldl (P := fun _ _ => True) ?_ fun _ _ => trivial).moves
    exact fun b notice _ _ => ⟨Acts.transportFailed w b _ _ _,fun _ _ _ => trivial⟩
  · exact .refl

theorem settle_moves (w : World) {b : Broker} (h : b.Coherent) : Moves w b (settle w b) := by
  have hnotices := drainNotices_moves w b
  refine hnotices.trans (Acts.observeLossesAndLocalDeadlines w (hnotices.coherent h)).moves |>.trans ?_
  exact (Acts.accountFinishedExits w _).moves.trans (Acts.drainEngineEnvelopes w _).moves

/-- A shutdown is under way only after it was asked for. -/
def Asked (s : Loop) : Prop :=
  s.shutdownGrace.isSome ∨ s.shutdownDeadline.isSome ∨ s.forcedExitDeadline.isSome →
    ∃ request, .shutdownRequested request ∈ s.broker.history

theorem Asked.grows {b : Broker} (h : s.Asked) (hb : s.broker.history <+: b.history) :
    Asked { s with broker := b } :=
  fun hs => (h hs).imp fun _ hm => hb.subset hm

theorem expireGrace_moves (w : World) (h : s.Asked) :
    Moves w s.broker (expireGrace w s).broker ∧ (expireGrace w s).Asked := by
  unfold expireGrace
  split
  · rename_i hdeadline
    have hs : ∃ request, .shutdownRequested request ∈ s.broker.history := by
      apply h
      cases hd : s.shutdownDeadline with
      | none => simp [hd] at hdeadline
      | some deadline => exact .inr (.inl rfl)
    have hmoves := (Acts.forceTerminateAll w hs).moves
    exact ⟨hmoves,fun _ => hs.imp fun _ hm => hmoves.grows.subset hm⟩
  · exact ⟨.refl,h⟩

theorem runTask_moves (w : World) (s : Loop) : Moves w s.broker (runTask w s).broker := by
  unfold runTask
  split
  · exact .head (.act (.enter s.broker _ (.inl rfl))) (Acts.drainPendingDispatch w _).moves
  · exact .refl

theorem select_moves (w : World) (h : s.Asked) :
    Moves w s.broker (select w s).broker ∧ (select w s).Asked := by
  have hsame : ∀ b, Moves w s.broker b → Moves w s.broker { s with broker := b }.broker ∧
      Asked { s with broker := b } := fun b hb => ⟨hb,h.grows hb.grows⟩
  unfold select
  simp only
  split
  · split
    · exact hsame _ (Acts.handleRuntimeCallbacks w _).moves
    · exact ⟨.refl,h⟩
  · split
    · exact ⟨.refl,h⟩
    · rename_i hr
      exact hsame _ (.single (.tick hr))
  · exact hsame _ (Acts.transportFailed w _ _ _ _).moves
  · exact hsame _ (.single (.exit _ _ _))
  · split
    · exact hsame _ (.head (.act (.queue _ _ (.inl rfl))) (Acts.drainEngineEnvelopes w _).moves)
    · exact ⟨.refl,h⟩
  · split
    · rename_i request _ _
      have hask : .shutdownRequested request ∈ (s.broker.note (.shutdownRequested request)).history := by
        simp
      have hmoves := (Acts.beginShutdown w ⟨request,hask⟩).moves
      exact ⟨.head (.act (.shutdownRequested _ request)) hmoves,fun _ => ⟨request,hmoves.grows.subset hask⟩⟩
    · exact ⟨.refl,h⟩
  · exact ⟨.refl,h⟩

theorem await_moves (w : World) (h : s.Asked) :
    Moves w s.broker (await w s).broker ∧ (await w s).Asked := by
  unfold await
  split
  · exact ⟨.refl,h⟩
  · split
    · exact ⟨.refl,h⟩
    · have hwait : ∀ tasks, Move w s.broker (s.broker.note (.waits tasks)) :=
        fun tasks => .act (.waits s.broker tasks)
      obtain ⟨hmoves,hasked⟩ := select_moves w (h.grows (hwait _).grows)
      exact ⟨.head (hwait _) hmoves,hasked⟩

theorem turn_moves (w : World) (hc : s.broker.Coherent) (h : s.Asked) :
    Moves w s.broker (turn w s).broker ∧ (turn w s).Asked := by
  unfold turn
  split
  · exact ⟨.refl,h⟩
  · have hsettle := settle_moves w hc
    obtain ⟨hexpire,hasked⟩ := expireGrace_moves w (h.grows hsettle.grows)
    simp only
    split
    · rename_i hdeadline
      have hs : ∃ request, .shutdownRequested request ∈
          (expireGrace w { s with broker := settle w s.broker }).broker.history := by
        apply hasked
        cases hd : (expireGrace w { s with broker := settle w s.broker }).forcedExitDeadline with
        | none => simp [hd] at hdeadline
        | some deadline => exact .inr (.inr rfl)
      have hmoves := (Acts.accountUnreapedProcesses w hs).moves
      exact ⟨hsettle.trans (hexpire.trans hmoves),
        fun _ => hs.imp fun _ hm => hmoves.grows.subset hm⟩
    · have htask := runTask_moves w (expireGrace w { s with broker := settle w s.broker })
      have hasked' : (runTask w (expireGrace w { s with broker := settle w s.broker })).Asked := by
        unfold runTask at htask ⊢
        split
        · rename_i ht
          rw [if_pos ht] at htask
          exact hasked.grows htask.grows
        · exact hasked
      obtain ⟨hawait,hasked''⟩ := await_moves w hasked'
      exact ⟨hsettle.trans (hexpire.trans (htask.trans hawait)),hasked''⟩

end Loop

end Nefor.Ncp
