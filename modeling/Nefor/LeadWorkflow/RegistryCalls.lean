import Nefor.LeadWorkflow.Settlement

/-! What each call to the registry does to the runs and to those that wait for them. -/
namespace Nefor.LeadWorkflow
open Nefor.Lua

theorem good_new (terminalLimit tombstoneLimit : Nat) : Good (Registry.new terminalLimit tombstoneLimit) := by
  refine ⟨Tables.new terminalLimit tombstoneLimit,?_,?_⟩
  · intro sessionId
    exact Nat.zero_le _
  · constructor
    · intro firing id
      simp [Registry.new]
    · intro run
      exact List.nodup_nil

section Calls
variable {r : Registry} {id : String} {run : Nat} {f : Run → Run} {ended : String → Prop}

theorem heap_modify (other : Nat) : (r.modify run f).heap other = if other = run then f (r.heap run) else r.heap other := by
  simp only [Registry.modify,Function.update_apply]

/-- The fields that a change of a run leaves as they are, when it does not end the run. -/
structure Quiet (old new : Run) : Prop where
  runId : new.runId = old.runId
  sessionId : new.sessionId = old.sessionId
  phase : new.phase = .terminal ↔ old.phase = .terminal
  canonical : new.canonical = old.canonical
  relayDelivered : old.relayDelivered = true → new.relayDelivered = true

theorem Quiet.heap (h : Quiet (r.heap run) (f (r.heap run))) (other : Nat) :
    Quiet (r.heap other) ((r.modify run f).heap other) := by
  rw [heap_modify]
  split
  · next heq =>
    rw [heq]
    exact h
  · exact ⟨rfl,rfl,Iff.rfl,rfl,fun hdelivered => hdelivered⟩

theorem grows_heap {heap : Nat → Run} {waiterRuns : AList fun _ : String => String}
    (h : ∀ k, Quiet (r.heap k) (heap k)) : Grows r { r with heap := heap, waiterRuns := waiterRuns } := by
  constructor
  · exact Nat.le_refl _
  · exact ⟨rfl,rfl⟩
  · exact fun k _ => (h k).sessionId
  · exact fun k _ hk => ⟨(h k).phase.mpr hk,(h k).canonical⟩
  · exact fun k _ hk => (h k).relayDelivered hk
  · exact fun k _ hk => ⟨fun hphase => hk.1 ((h k).phase.mp hphase),hk.2⟩

theorem limited_heap {heap : Nat → Run} {waiterRuns : AList fun _ : String => String} (hlimited : Limited r)
    (h : ∀ k, Quiet (r.heap k) (heap k)) : Limited { r with heap := heap, waiterRuns := waiterRuns } := by
  intro sessionId
  simp only [(h _).sessionId]
  exact hlimited sessionId

/-- A call that changes no more than a run which goes on, or which has ended. -/
theorem advance_modify (hgood : Good r) (h : Quiet (r.heap run) (f (r.heap run)))
    (hwaiters : (f (r.heap run)).waiters = (r.heap run).waiters) : Advance ended r [] (r.modify run f) := by
  have hsame : ∀ k, ((r.modify run f).heap k).waiters = (r.heap k).waiters := by
    intro k
    rw [heap_modify]
    split
    · next heq =>
      rw [heq]
      exact hwaiters
    · rfl
  refine ⟨⟨?_,limited_heap hgood.limited h.heap,?_⟩,grows_heap h.heap,?_⟩
  · exact hgood.tables.of_heap (fun k => (h.heap k).runId) (fun k => (h.heap k).phase)
  · constructor
    · intro firing other
      simp only [hsame]
      exact hgood.waiting.waiters firing other
    · intro k
      rw [hsame]
      exact hgood.waiting.once k
  · intro firing
    exact Fate.same rfl fun _ _ _ hactive => hactive

theorem advance_markRunning (hgood : Good r) (id : String) : Advance ended r (r.markRunning id).2.settlements (r.markRunning id).1 := by
  unfold Registry.markRunning
  split
  · exact Advance.refl hgood
  · split
    · exact Advance.refl hgood
    · next hphase =>
      dsimp only
      apply advance_modify hgood
      · exact ⟨rfl,rfl,by simp [not_not.mp hphase],rfl,fun h => h⟩
      · rfl

theorem advance_markTerminating (hgood : Good r) (id : String) (reason : LuaValue) :
    Advance ended r (r.markTerminating id reason).2.settlements (r.markTerminating id reason).1 := by
  unfold Registry.markTerminating
  split
  · exact Advance.refl hgood
  · next run hrun =>
    split
    · exact Advance.refl hgood
    · have hphase := ((hgood.tables.active id run).mp hrun).2
      dsimp only
      apply advance_modify hgood
      · exact ⟨rfl,rfl,by simp [hphase],rfl,fun h => h⟩
      · rfl

theorem advance_claimDelivery (hgood : Good r) (id : String) : Advance ended r (r.claimDelivery id).2.settlements (r.claimDelivery id).1 := by
  unfold Registry.claimDelivery
  split
  · exact Advance.refl hgood
  · split
    · exact Advance.refl hgood
    · dsimp only
      apply advance_modify hgood
      · exact ⟨rfl,rfl,Iff.rfl,rfl,fun _ => rfl⟩
      · rfl

theorem advance_reject (hgood : Good r) (id message : String) :
    Advance ended r (r.reject id message).2.settlements (r.reject id message).1 := by
  unfold Registry.reject
  split
  · exact Advance.refl hgood
  · next run hrun =>
    split
    · exact Advance.refl hgood
    · dsimp only [Answer.settlements]
      apply advance_finish hgood hrun
      · exact ⟨fun _ => rfl,fun _ => rfl,fun _ => rfl⟩
      · rfl

theorem advance_settle (tostring : LuaValue → String) (hgood : Good r) (id : String) (body : LuaValue) :
    Advance ended r (r.settle tostring id body).2.settlements (r.settle tostring id body).1 := by
  unfold Registry.settle
  split
  · next run status hrun hstatus =>
    split
    · exact Advance.refl hgood
    · dsimp only [Answer.settlements]
      apply advance_finish hgood hrun
      · exact ⟨fun _ => rfl,fun _ => rfl,fun _ => rfl⟩
      · rfl
  · exact Advance.refl hgood

theorem advance_loseRun (tostring : LuaValue → String) (reason : LuaValue) (ids : List String) (hgood : Good r)
    (lost : List Nat) (settlements : List (String × LuaValue)) :
    ∃ out, (ids.foldl (Registry.loseRun tostring reason) (r,lost,settlements)).2.2 = settlements ++ out ∧
      Advance ended r out (ids.foldl (Registry.loseRun tostring reason) (r,lost,settlements)).1 := by
  induction ids generalizing r lost settlements with
  | nil => exact ⟨[],(List.append_nil _).symm,Advance.refl hgood⟩
  | cons id rest ih =>
    rw [List.foldl_cons,Registry.loseRun]
    split
    · exact ih hgood lost settlements
    · next run hrun =>
      let outcome := typedError "await_run_authority_lost"
        (tostring (reason.orElse (.str "MAG execution authority was lost"))) id (.str "unknown") (r.heap run).labels
      let lose := fun run : Run => { run with
        status := "unknown"
        terminalStatus := .str "authority_lost"
        canonical := outcome
        canonicalBody := .nil
        error := .str (tostring (reason.orElse (.str "MAG execution authority was lost"))) }
      have hfinish : Advance ended r ((sorted (r.heap run).waiters).map fun firing => (firing,outcome))
          (r.finish id run lose) :=
        advance_finish (f := lose) hgood hrun ⟨fun _ => rfl,fun _ => rfl,fun _ => rfl⟩ rfl
      obtain ⟨out,hout,hadvance⟩ := ih hfinish.good (lost ++ [run])
        (settlements ++ (sorted (r.heap run).waiters).map fun firing => (firing,outcome))
      refine ⟨_,?_,hfinish.trans hadvance⟩
      rw [← List.append_assoc]
      exact hout

theorem advance_loseAuthority (tostring : LuaValue → String) (hgood : Good r) (reason : LuaValue) :
    Advance ended r (r.loseAuthority tostring reason).2.settlements (r.loseAuthority tostring reason).1 := by
  obtain ⟨out,hout,hadvance⟩ := advance_loseRun tostring reason (sorted r.activeRuns.keys) hgood [] []
  change Advance ended r ((sorted r.activeRuns.keys).foldl (Registry.loseRun tostring reason) (r,[],[])).2.2 _
  rw [hout,List.nil_append]
  exact hadvance

/-- The runs that a session still has. -/
def Ending (ended : String → Prop) (r : Registry) (id : String) : Prop :=
  ∀ run, r.runs.lookup id = some run → ended (r.heap run).sessionId

theorem ending_expire (htables : Tables r) (hrun : r.runs.lookup id = some run) {other : String}
    (h : Ending ended r other) : Ending ended (r.expire run) other := by
  have hexpired := htables.expired_expire hrun
  intro k hk
  rw [hexpired.heap]
  exact h k (hexpired.runs other k hk)

theorem advance_endRun (ids : List String) (hgood : Good r) (hended : ∀ id ∈ ids, Ending ended r id)
    (active : List String) (settlements : List (String × LuaValue)) :
    ∃ out, (ids.foldl Registry.endRun (r,active,settlements)).2.2 = settlements ++ out ∧
      Advance ended r out (ids.foldl Registry.endRun (r,active,settlements)).1 := by
  induction ids generalizing r active settlements with
  | nil => exact ⟨[],(List.append_nil _).symm,Advance.refl hgood⟩
  | cons id rest ih =>
    obtain ⟨hid,hrest⟩ := List.forall_mem_cons.mp hended
    rw [List.foldl_cons,Registry.endRun]
    split
    · exact ih hgood hrest active settlements
    · next run hrun =>
      split
      · next hphase =>
        have hexpire : Advance ended r [] (r.expire run) := advance_expire hgood hrun hphase
        obtain ⟨out,hout,hadvance⟩ := ih hexpire.good
          (fun other hother => ending_expire hgood.tables hrun (hrest other hother)) active settlements
        exact ⟨out,hout,hexpire.trans hadvance⟩
      · next hphase =>
        have hdrop := advance_drop hgood hrun hphase (hid run hrun)
        obtain ⟨out,hout,hadvance⟩ := ih hdrop.good
          (fun other hother => ending_expire (hgood.tables.of_heap (fun _ => rfl) (fun _ => Iff.rfl)) hrun
            (hrest other hother)) (active ++ [id])
          (settlements ++ (sorted (r.heap run).waiters).map fun firing => (firing,sessionEnded id))
        refine ⟨_,?_,hdrop.trans hadvance⟩
        rw [← List.append_assoc]
        exact hout

theorem endSession_eq (r : Registry) (sessionId : LuaValue) :
    ∃ ids : List String, (∀ id ∈ ids, Ending (fun session => sessionId = .str session) r id) ∧
      r.endSession sessionId = ((ids.foldl Registry.endRun (r,[],[])).1,
        .ended (ids.foldl Registry.endRun (r,[],[])).2.1 (ids.foldl Registry.endRun (r,[],[])).2.2) := by
  refine ⟨_,?_,rfl⟩
  intro id hid run hrun
  have hmem := (List.mem_filter.mp (mem_sorted.mp hid)).2
  rw [hrun] at hmem
  cases sessionId with
  | str session =>
    have heq : (r.heap run).sessionId = session := by simpa [LuaValue.rawEq] using hmem
    rw [heq]
  | _ => simp [LuaValue.rawEq] at hmem

theorem advance_endSession (hgood : Good r) (sessionId : LuaValue) :
    Advance (fun session => sessionId = .str session) r (r.endSession sessionId).2.settlements
      (r.endSession sessionId).1 := by
  obtain ⟨ids,hended,heq⟩ := endSession_eq r sessionId
  obtain ⟨out,hout,hadvance⟩ := advance_endRun ids hgood hended [] []
  rw [heq]
  dsimp only [Answer.settlements]
  rw [hout,List.nil_append]
  exact hadvance

/-! A new run. -/

theorem advance_register_run (hgood : Good r) {new : Run} (hid : r.runs.lookup new.runId = none)
    (hstone : r.tombstones.lookup new.runId = none) (hphase : new.phase ≠ .terminal) (hnew : new.waiters = []) :
    Advance ended r [] { r with
      heap := Function.update r.heap r.registered new
      registered := r.registered + 1
      runs := r.runs.insert new.runId r.registered
      activeRuns := r.activeRuns.insert new.runId r.registered } := by
  have hold : ∀ k < r.registered, Function.update r.heap r.registered new k = r.heap k := by
    intro k hk
    rw [Function.update_apply,if_neg (by omega)]
  have hactive : ∀ other k, r.activeRuns.lookup other = some k → k < r.registered ∧ other ≠ new.runId := by
    intro other k hk
    have hrun := ((hgood.tables.active other k).mp hk).1
    refine ⟨(hgood.tables.known other k hrun).1,?_⟩
    rintro rfl
    rw [hid] at hrun
    cases hrun
  refine ⟨⟨hgood.tables.register hid hstone hphase,?_,?_⟩,?_,?_⟩
  · intro sessionId
    dsimp only
    apply le_trans (le_of_eq _) (hgood.limited sessionId)
    congr 1
    apply List.filter_congr
    intro k hk
    simp only [hold k (hgood.tables.known _ k ((hgood.tables.completed k).mp hk).1).1]
  · constructor
    · intro firing other
      dsimp only
      rw [hgood.waiting.waiters firing other,lookup_insert_ite]
      constructor
      · rintro ⟨k,hk,hmem⟩
        refine ⟨k,?_,?_⟩
        · rw [if_neg (hactive other k hk).2]
          exact hk
        · rw [hold k (hactive other k hk).1]
          exact hmem
      · rintro ⟨k,hk,hmem⟩
        split at hk
        · cases hk
          rw [Function.update_self,hnew] at hmem
          cases hmem
        · rw [hold k (hactive other k hk).1] at hmem
          exact ⟨k,hk,hmem⟩
    · intro k
      dsimp only
      rw [Function.update_apply]
      split
      · rw [hnew]
        exact List.nodup_nil
      · exact hgood.waiting.once k
  · constructor
    · exact Nat.le_succ _
    · exact ⟨rfl,rfl⟩
    · intro k hk
      dsimp only
      rw [hold k hk]
    · intro k hk hterminal
      dsimp only
      rw [hold k hk]
      exact ⟨hterminal,rfl⟩
    · intro k hk hdelivered
      dsimp only
      rw [hold k hk]
      exact hdelivered
    · intro k hk hdropped
      refine ⟨?_,fun other => ?_⟩
      · dsimp only
        rw [hold k hk]
        exact hdropped.1
      · dsimp only
        rw [lookup_insert_ite]
        split
        · intro heq
          cases heq
          exact Nat.lt_irrefl _ hk
        · exact hdropped.2 other
  · intro firing
    apply Fate.same
    · rfl
    · intro other k _ hk
      dsimp only
      rw [lookup_insert_ite,if_neg (hactive other k hk).2]
      exact hk

theorem advance_link (hgood : Good r) (hrun : r.runs.lookup id = some run) (hid : r.runDispatchers.lookup id = none)
    (dispatcher : String) :
    Advance ended r [] { r with
      dispatcherRuns := r.dispatcherRuns.insert dispatcher
        (insert id ((r.dispatcherRuns.lookup dispatcher).getD ∅))
      runDispatchers := r.runDispatchers.insert id dispatcher } := by
  refine ⟨⟨hgood.tables.link hrun hid dispatcher,hgood.limited,?_⟩,?_,?_⟩
  · exact ⟨hgood.waiting.waiters,hgood.waiting.once⟩
  · exact ⟨Nat.le_refl _,⟨rfl,rfl⟩,fun _ _ => rfl,fun _ _ h => ⟨h,rfl⟩,fun _ _ h => h,fun _ _ h => h⟩
  · exact fun _ => Fate.same rfl fun _ _ _ hactive => hactive

theorem advance_register (hgood : Good r) (spec : Spec) (minted : String) :
    Advance ended r (r.register spec minted).2.settlements (r.register spec minted).1 := by
  unfold Registry.register
  split
  · next sessionId hsession =>
    dsimp only
    generalize spec.runId.getD minted = runId
    split
    · exact Advance.refl hgood
    · split
      · exact Advance.refl hgood
      · split
        · exact Advance.refl hgood
        · next hfree =>
          rw [Bool.or_eq_true,not_or,Bool.not_eq_true,Bool.not_eq_true,Option.isSome_eq_false_iff,
            Option.isSome_eq_false_iff,Option.isNone_iff_eq_none,Option.isNone_iff_eq_none] at hfree
          obtain ⟨hid,hstone⟩ := hfree
          have hnew : Advance ended r [] { r with
              heap := Function.update r.heap r.registered
                { runId := runId, runName := spec.runName, sessionId := sessionId, dispatcherId := spec.dispatcherId }
              registered := r.registered + 1
              runs := r.runs.insert runId r.registered
              activeRuns := r.activeRuns.insert runId r.registered } :=
            advance_register_run hgood hid hstone (by simp) rfl
          have hunowned : r.runDispatchers.lookup runId = none := by
            cases howner : r.runDispatchers.lookup runId with
            | none => rfl
            | some owner =>
              obtain ⟨k,hk⟩ := hgood.tables.dispatched runId owner howner
              rw [hid] at hk
              cases hk
          split
          · exact hnew
          · split
            · exact hnew
            · exact hnew.trans (advance_link hnew.good (lookup_insert_ite _ _ _ _ |>.trans (if_pos rfl)) hunowned _)
          · exact hnew
  · exact Advance.refl hgood

/-! A call begins to wait, or no longer waits. -/

theorem lookup_ok {sessionId : LuaValue} (h : r.lookup id sessionId = .ok run) : r.runs.lookup id = some run := by
  unfold Registry.lookup at h
  dsimp only at h
  split at h
  · cases h
  · split at h
    · next k hk =>
      split at h
      · cases h
        exact hk
      · cases h
    · split at h <;> cases h
    · cases h

theorem authorize_ok {sessionId dispatcherId : LuaValue} (h : r.authorize id sessionId dispatcherId = .ok run) :
    r.runs.lookup id = some run := by
  unfold Registry.authorize at h
  cases hlookup : r.lookup id sessionId with
  | error err =>
    rw [hlookup] at h
    cases h
  | ok k =>
    rw [hlookup] at h
    dsimp only [bind,Except.bind] at h
    split at h
    · cases h
    · cases h
      exact lookup_ok hlookup

theorem await_cases (r : Registry) (id : String) (sessionId : LuaValue) (firing : String) (dispatcherId : LuaValue) :
    (∃ value, r.await id sessionId firing dispatcherId = (r,.immediate value)) ∨
    ∃ run, r.runs.lookup id = some run ∧ (r.heap run).phase ≠ .terminal ∧
      r.await id sessionId firing dispatcherId =
        ({ r.modify run (fun run => { run with waiters := run.waiters.insert firing }) with
          waiterRuns := r.waiterRuns.insert firing id },.waiting run) := by
  unfold Registry.await
  cases hauthorize : r.authorize id sessionId dispatcherId with
  | error err => exact Or.inl ⟨err,rfl⟩
  | ok run =>
    by_cases hphase : (r.heap run).phase = .terminal
    · exact Or.inl ⟨(r.heap run).canonical,if_pos hphase⟩
    · exact Or.inr ⟨run,authorize_ok hauthorize,hphase,if_neg hphase⟩

/-- A call is written to a run and to the table of the calls, or taken from both. -/
theorem good_waiters {waiterRuns : AList fun _ : String => String} {waiters : List String} {firing : String}
    (hgood : Good r) (hactive : r.activeRuns.lookup id = some run) (hnodup : waiters.Nodup)
    (hold : r.waiterRuns.lookup firing = none ∨ r.waiterRuns.lookup firing = some id)
    (hnew : ∀ other, waiterRuns.lookup firing = some other ↔ other = id ∧ firing ∈ waiters)
    (hcalls : ∀ call, call ≠ firing → waiterRuns.lookup call = r.waiterRuns.lookup call)
    (hwaiters : ∀ call, call ≠ firing → (call ∈ waiters ↔ call ∈ (r.heap run).waiters)) :
    Good { r.modify run (fun run => { run with waiters := waiters }) with waiterRuns := waiterRuns } := by
  have hquiet : ∀ k, Quiet (r.heap k) ((r.modify run fun run => { run with waiters := waiters }).heap k) :=
    Quiet.heap ⟨rfl,rfl,Iff.rfl,rfl,fun h => h⟩
  refine ⟨hgood.tables.of_heap (fun k => (hquiet k).runId) (fun k => (hquiet k).phase),
    limited_heap (r := r) hgood.limited hquiet,?_,?_⟩
  · intro call other
    dsimp only
    by_cases hcall : call = firing
    · subst hcall
      rw [hnew]
      constructor
      · rintro ⟨rfl,hmem⟩
        refine ⟨run,hactive,?_⟩
        rw [heap_modify,if_pos rfl]
        exact hmem
      · rintro ⟨k,hk,hmem⟩
        by_cases heq : other = id
        · subst heq
          have hrun : k = run := Option.some.inj (hk.symm.trans hactive)
          rw [heap_modify,if_pos hrun] at hmem
          exact ⟨rfl,hmem⟩
        · rw [heap_modify,if_neg (Release.run_ne hgood hactive hk heq)] at hmem
          have hlookup := (hgood.waiting.waiters call other).mpr ⟨k,hk,hmem⟩
          grind
    · rw [hcalls call hcall,hgood.waiting.waiters call other]
      have hmem : ∀ k, call ∈ ((r.modify run fun run => { run with waiters := waiters }).heap k).waiters ↔
          call ∈ (r.heap k).waiters := by
        intro k
        rw [heap_modify]
        split
        · next heq =>
          rw [heq]
          exact hwaiters call hcall
        · exact Iff.rfl
      simp only [hmem]
      exact Iff.rfl
  · intro k
    dsimp only
    rw [heap_modify]
    split
    · exact hnodup
    · exact hgood.waiting.once k

theorem advance_await (hgood : Good r) {firing : String} (hfresh : r.waiterRuns.lookup firing = none)
    (id : String) (sessionId dispatcherId : LuaValue) :
    Good (r.await id sessionId firing dispatcherId).1 ∧ Grows r (r.await id sessionId firing dispatcherId).1 ∧
      ∀ call, call ≠ firing → Fate ended r (r.await id sessionId firing dispatcherId).2.settlements
        (r.await id sessionId firing dispatcherId).1 call := by
  cases await_cases r id sessionId firing dispatcherId with
  | inl himmediate =>
    obtain ⟨value,heq⟩ := himmediate
    rw [heq]
    exact ⟨hgood,Grows.refl r,fun call _ => (Advance.refl hgood).fate call⟩
  | inr hwaiting =>
    obtain ⟨run,hrun,hphase,heq⟩ := hwaiting
    rw [heq]
    have hactive := (hgood.tables.active id run).mpr ⟨hrun,hphase⟩
    refine ⟨?_,grows_heap (Quiet.heap ⟨rfl,rfl,Iff.rfl,rfl,fun h => h⟩),?_⟩
    · apply good_waiters hgood hactive ((hgood.waiting.once run).insert) (Or.inl hfresh)
      · intro other
        rw [AList.lookup_insert]
        simp [eq_comm]
      · intro call hcall
        exact AList.lookup_insert_ne hcall
      · intro call hcall
        simp [hcall]
    · intro call hcall
      exact Fate.same (AList.lookup_insert_ne hcall) fun _ _ _ hactive => hactive

/-- The call waits from now on. -/
theorem waits_await {firing : String} {sessionId dispatcherId : LuaValue} (hgood : Good r)
    (h : (r.await id sessionId firing dispatcherId).2 = .waiting run) :
    Waits (r.await id sessionId firing dispatcherId).1 firing id run := by
  cases await_cases r id sessionId firing dispatcherId with
  | inl himmediate =>
    obtain ⟨value,heq⟩ := himmediate
    rw [heq] at h
    cases h
  | inr hwaiting =>
    obtain ⟨k,hk,hphase,heq⟩ := hwaiting
    rw [heq] at h ⊢
    cases h
    exact ⟨AList.lookup_insert _,(hgood.tables.active id run).mpr ⟨hk,hphase⟩⟩

theorem detach_idle {firing : String} (h : r.waiterRuns.lookup firing = none) :
    r.detachWaiter firing = (r,.flag false) := by
  unfold Registry.detachWaiter
  rw [h]

theorem detach_waits {firing : String} (hgood : Good r) (h : Waits r firing id run) :
    r.detachWaiter firing = ({ r.modify run (fun run => { run with waiters := run.waiters.erase firing }) with
      waiterRuns := r.waiterRuns.erase firing },.flag true) := by
  unfold Registry.detachWaiter
  rw [h.1]
  dsimp only
  rw [((hgood.tables.active id run).mp h.2).1]
  rfl

/-- The call that is detached no longer waits, and is told nothing. -/
theorem detach_silent (hgood : Good r) (firing : String) :
    (r.detachWaiter firing).1.waiterRuns.lookup firing = none ∧
      told (r.detachWaiter firing).2.settlements firing = [] := by
  cases hfiring : r.waiterRuns.lookup firing with
  | none =>
    rw [detach_idle hfiring]
    exact ⟨hfiring,rfl⟩
  | some id =>
    obtain ⟨run,hactive,_⟩ := (hgood.waiting.waiters firing id).mp hfiring
    rw [detach_waits hgood ⟨hfiring,hactive⟩]
    exact ⟨AList.lookup_erase _ _,rfl⟩

theorem advance_detach (hgood : Good r) (firing : String) :
    Good (r.detachWaiter firing).1 ∧ Grows r (r.detachWaiter firing).1 ∧
      ∀ call, call ≠ firing → Fate ended r (r.detachWaiter firing).2.settlements (r.detachWaiter firing).1 call := by
  cases hfiring : r.waiterRuns.lookup firing with
  | none =>
    rw [detach_idle hfiring]
    exact ⟨hgood,Grows.refl r,fun call _ => (Advance.refl hgood).fate call⟩
  | some id =>
    obtain ⟨run,hactive,hmem⟩ := (hgood.waiting.waiters firing id).mp hfiring
    rw [detach_waits hgood ⟨hfiring,hactive⟩]
    refine ⟨?_,grows_heap (Quiet.heap ⟨rfl,rfl,Iff.rfl,rfl,fun h => h⟩),?_⟩
    · apply good_waiters hgood hactive ((hgood.waiting.once run).erase firing) (Or.inr hfiring)
      · intro other
        rw [AList.lookup_erase]
        simp [(hgood.waiting.once run).mem_erase_iff]
      · intro call hcall
        exact AList.lookup_erase_ne hcall
      · intro call hcall
        exact List.mem_erase_of_ne hcall
    · intro call hcall
      exact Fate.same (AList.lookup_erase_ne hcall) fun _ _ _ hactive => hactive

end Calls

end Nefor.LeadWorkflow
