import Nefor.LeadWorkflow.RegistryCalls

/-! Every call to the registry keeps its tables coherent, and a call that waits is told once. -/
namespace Nefor.LeadWorkflow
open Nefor.Lua

/-- The call that begins to wait. -/
def Op.awaits : Op → Option String
  | await _ _ firingId _ => some firingId
  | _ => none

def Op.Ends : Op → String → Prop
  | endSession sessionId, session => sessionId = .str session
  | _, _ => False

/-- The run whose delivery is claimed. -/
def Op.delivers (r : Registry) : Op → List Nat
  | claimDelivery runId =>
    match r.runs.lookup runId, (r.claimDelivery runId).2 with
    | some run, .flag true => [run]
    | _, _ => []
  | _ => []

/-- All that the calls settle, in their order. -/
def settlements (tostring : LuaValue → String) : Registry → List Op → List (String × LuaValue)
  | _, [] => []
  | r, op :: rest => (op.run tostring r).2.settlements ++ settlements tostring (op.run tostring r).1 rest

def delivered (tostring : LuaValue → String) : Registry → List Op → List Nat
  | _, [] => []
  | r, op :: rest => op.delivers r ++ delivered tostring (op.run tostring r).1 rest

section Runs
variable (tostring : LuaValue → String) {r : Registry} {ops : List Op}

theorem advance_step (hgood : Good r) {op : Op} (hfresh : ∀ firing, op.awaits = some firing → r.waiterRuns.lookup firing = none) :
    Good (op.run tostring r).1 ∧ Grows r (op.run tostring r).1 ∧
      ∀ firing, op.awaits ≠ some firing → op ≠ .detachWaiter firing →
        Fate op.Ends r (op.run tostring r).2.settlements (op.run tostring r).1 firing := by
  have hadvance : ∀ {out r'}, Advance op.Ends r out r' → Good r' ∧ Grows r r' ∧
      ∀ firing, op.awaits ≠ some firing → op ≠ .detachWaiter firing → Fate op.Ends r out r' firing :=
    fun h => ⟨h.good,h.grows,fun firing _ _ => h.fate firing⟩
  cases op with
  | register spec minted => exact hadvance (advance_register hgood spec minted)
  | markRunning id => exact hadvance (advance_markRunning hgood id)
  | markTerminating id reason => exact hadvance (advance_markTerminating hgood id reason)
  | await id sessionId firing dispatcherId =>
    obtain ⟨hnext,hgrows,hfate⟩ := advance_await hgood (hfresh firing rfl) id sessionId dispatcherId
    refine ⟨hnext,hgrows,fun call hcall _ => hfate call ?_⟩
    rintro rfl
    exact hcall rfl
  | detachWaiter firing =>
    obtain ⟨hnext,hgrows,hfate⟩ := advance_detach hgood firing
    refine ⟨hnext,hgrows,fun call _ hcall => hfate call ?_⟩
    rintro rfl
    exact hcall rfl
  | reject id message => exact hadvance (advance_reject hgood id message)
  | settle id body => exact hadvance (advance_settle tostring hgood id body)
  | claimDelivery id => exact hadvance (advance_claimDelivery hgood id)
  | loseAuthority reason => exact hadvance (advance_loseAuthority tostring hgood reason)
  | endSession sessionId => exact hadvance (advance_endSession hgood sessionId)

/-- No call that still begins to wait is in the table, and each begins once. -/
structure Fresh (r : Registry) (ops : List Op) : Prop where
  idle : ∀ firing ∈ ops.filterMap Op.awaits, r.waiterRuns.lookup firing = none
  once : (ops.filterMap Op.awaits).Nodup

theorem mem_awaits {op : Op} {firing : String} :
    firing ∈ (op :: ops).filterMap Op.awaits ↔ op.awaits = some firing ∨ firing ∈ ops.filterMap Op.awaits := by
  simp [List.mem_filterMap]

/-- A call that is not in the table is told nothing, and only its own call puts it there. -/
theorem idle_step (hgood : Good r) {op : Op} (hfresh : ∀ firing, op.awaits = some firing → r.waiterRuns.lookup firing = none)
    {firing : String} (hother : op.awaits ≠ some firing) (hidle : r.waiterRuns.lookup firing = none) :
    (op.run tostring r).1.waiterRuns.lookup firing = none ∧ told (op.run tostring r).2.settlements firing = [] := by
  by_cases hdetach : op = .detachWaiter firing
  · subst hdetach
    exact detach_silent hgood firing
  · exact ((advance_step tostring hgood hfresh).2.2 firing hother hdetach).idle hidle

theorem Fresh.step {op : Op} (h : Fresh r (op :: ops)) (hgood : Good r) : Fresh (op.run tostring r).1 ops := by
  have honce := h.once
  have hfresh : ∀ firing, op.awaits = some firing → r.waiterRuns.lookup firing = none :=
    fun firing hfiring => h.idle firing (mem_awaits.mpr (Or.inl hfiring))
  constructor
  · intro firing hfiring
    have hother : op.awaits ≠ some firing := by
      intro heq
      rw [List.filterMap_cons_some heq] at honce
      exact (List.nodup_cons.mp honce).1 hfiring
    exact (idle_step tostring hgood hfresh hother (h.idle firing (mem_awaits.mpr (Or.inr hfiring)))).1
  · cases hop : op.awaits with
    | none => rwa [List.filterMap_cons_none hop] at honce
    | some firing =>
      rw [List.filterMap_cons_some hop] at honce
      exact (List.nodup_cons.mp honce).2

theorem Fresh.first {op : Op} (h : Fresh r (op :: ops)) :
    ∀ firing, op.awaits = some firing → r.waiterRuns.lookup firing = none :=
  fun firing hfiring => h.idle firing (mem_awaits.mpr (Or.inl hfiring))

theorem good_run (hgood : Good r) (hfresh : Fresh r ops) :
    Good (runAll tostring r ops) ∧ Grows r (runAll tostring r ops) := by
  induction ops generalizing r with
  | nil => exact ⟨hgood,Grows.refl r⟩
  | cons op rest ih =>
    obtain ⟨hnext,hgrows,_⟩ := advance_step tostring hgood hfresh.first
    obtain ⟨hlast,hrest⟩ := ih hnext (hfresh.step tostring hgood)
    exact ⟨hlast,hgrows.trans hrest⟩

theorem idle_run (hgood : Good r) (hfresh : Fresh r ops) {firing : String} (hnot : firing ∉ ops.filterMap Op.awaits)
    (hidle : r.waiterRuns.lookup firing = none) :
    (runAll tostring r ops).waiterRuns.lookup firing = none ∧ told (settlements tostring r ops) firing = [] := by
  induction ops generalizing r with
  | nil => exact ⟨hidle,rfl⟩
  | cons op rest ih =>
    rw [mem_awaits,not_or] at hnot
    obtain ⟨hidle_next,htold⟩ := idle_step tostring hgood hfresh.first hnot.1 hidle
    obtain ⟨hidle_last,htold_rest⟩ := ih (advance_step tostring hgood hfresh.first).1 (hfresh.step tostring hgood) hnot.2 hidle_next
    refine ⟨hidle_last,?_⟩
    rw [settlements,told_append,htold,htold_rest,List.append_nil]

/-- What became of a call that waited: it still waits, it was detached, or it was told once. -/
inductive Became (tostring : LuaValue → String) (r : Registry) (ops : List Op) (firing id : String) (run : Nat) : Prop
  | waits (still : Waits (runAll tostring r ops) firing id run) (silent : told (settlements tostring r ops) firing = [])
  | detached (done rest : List Op) (split : ops = done ++ .detachWaiter firing :: rest)
      (before : Waits (runAll tostring r done) firing id run) (silent : told (settlements tostring r ops) firing = [])
  | settled (outcome : LuaValue) (once : told (settlements tostring r ops) firing = [outcome])
      (settles : Settles (fun session => ∃ op ∈ ops, op.Ends session) (runAll tostring r ops) id run outcome)

theorem Settles.mono {ended ended' : String → Prop} {id : String} {run : Nat} {outcome : LuaValue}
    (h : Settles ended r id run outcome) (hended : ∀ session, ended session → ended' session) :
    Settles ended' r id run outcome := by
  obtain ⟨hrun,h⟩ := h
  refine ⟨hrun,h.imp_right ?_⟩
  rintro ⟨houtcome,hsession,hdropped⟩
  exact ⟨houtcome,hended _ hsession,hdropped⟩

theorem became_run (hgood : Good r) (hfresh : Fresh r ops) {firing id : String} {run : Nat}
    (hnot : firing ∉ ops.filterMap Op.awaits) (hwaits : Waits r firing id run) :
    Became tostring r ops firing id run := by
  induction ops generalizing r with
  | nil => exact .waits hwaits rfl
  | cons op rest ih =>
    rw [mem_awaits,not_or] at hnot
    obtain ⟨hnext,hgrows,hfate⟩ := advance_step tostring hgood hfresh.first
    have hfresh_next := hfresh.step tostring hgood
    by_cases hdetach : op = .detachWaiter firing
    · subst hdetach
      obtain ⟨hidle,htold⟩ := detach_silent hgood firing
      have hsilent : told (settlements tostring r (.detachWaiter firing :: rest)) firing = [] := by
        rw [settlements,told_append]
        change told (r.detachWaiter firing).2.settlements firing ++ _ = []
        rw [htold,(idle_run tostring hnext hfresh_next hnot.2 hidle).2]
        rfl
      exact .detached [] rest rfl hwaits hsilent
    · cases (hfate firing hnot.1 hdetach).waits id run hwaits with
      | inl hstill =>
        obtain ⟨hwaits_next,htold⟩ := hstill
        have hsame : told (settlements tostring r (op :: rest)) firing =
            told (settlements tostring (op.run tostring r).1 rest) firing := by
          rw [settlements,told_append,htold,List.nil_append]
        cases ih hnext hfresh_next hnot.2 hwaits_next with
        | waits still silent => exact .waits still (hsame.trans silent)
        | detached done after split before silent =>
          exact .detached (op :: done) after (by rw [split]; rfl) before (hsame.trans silent)
        | settled outcome once settles =>
          refine .settled outcome (hsame.trans once) (settles.mono ?_)
          rintro session ⟨other,hother,hends⟩
          exact ⟨other,List.mem_cons_of_mem _ hother,hends⟩
      | inr hgone =>
        obtain ⟨hidle,outcome,htold,hsettles⟩ := hgone
        have honce : told (settlements tostring r (op :: rest)) firing = [outcome] := by
          rw [settlements,told_append,htold,(idle_run tostring hnext hfresh_next hnot.2 hidle).2]
          rfl
        have hlast := hsettles.grows (good_run tostring hnext hfresh_next).2
        exact .settled outcome honce (hlast.mono fun session hsession => ⟨op,List.mem_cons_self,hsession⟩)

theorem delivers_cases {op : Op} {run : Nat} (h : run ∈ op.delivers r) :
    op.delivers r = [run] ∧ (r.heap run).relayDelivered = false ∧
      ((op.run tostring r).1.heap run).relayDelivered = true ∧ ∃ id, r.runs.lookup id = some run := by
  cases op with
  | claimDelivery id =>
    unfold Op.delivers at h ⊢
    change _ ∧ _ ∧ ((r.claimDelivery id).1.heap run).relayDelivered = true ∧ _
    dsimp only at h ⊢
    cases hrun : r.runs.lookup id with
    | none =>
      rw [hrun] at h
      cases h
    | some k =>
      by_cases hclaimed : (r.heap k).phase ≠ .terminal ∨ (r.heap k).relayDelivered
      · have hflag : r.claimDelivery id = (r,.flag false) := by
          unfold Registry.claimDelivery
          rw [hrun]
          exact if_pos hclaimed
        rw [hrun,hflag] at h
        cases h
      · have hflag : r.claimDelivery id =
            (r.modify k fun run => { run with relayDelivered := true },.flag true) := by
          unfold Registry.claimDelivery
          rw [hrun]
          exact if_neg hclaimed
        rw [hrun,hflag] at h
        cases List.mem_singleton.mp h
        rw [not_or,Bool.not_eq_true] at hclaimed
        rw [hflag]
        refine ⟨rfl,hclaimed.2,?_,id,hrun⟩
        rw [heap_modify,if_pos rfl]
  | _ => cases h

theorem delivered_run (hgood : Good r) (hfresh : Fresh r ops) : (delivered tostring r ops).Nodup ∧
    ∀ run ∈ delivered tostring r ops, run < r.registered → (r.heap run).relayDelivered = false := by
  induction ops generalizing r with
  | nil => exact ⟨List.nodup_nil,by simp [delivered]⟩
  | cons op rest ih =>
    obtain ⟨hnext,hgrows,_⟩ := advance_step tostring hgood hfresh.first
    obtain ⟨honce,hundelivered⟩ := ih hnext (hfresh.step tostring hgood)
    rw [delivered]
    constructor
    · apply List.Nodup.append _ honce
      · intro run hfirst hlater
        obtain ⟨_,_,hclaimed,id,hrun⟩ := delivers_cases tostring hfirst
        have hlt := Nat.lt_of_lt_of_le (hgood.tables.known id run hrun).1 hgrows.registered
        rw [hundelivered run hlater hlt] at hclaimed
        cases hclaimed
      · cases hfirst : op.delivers r with
        | nil => exact List.nodup_nil
        | cons run others =>
          have hmem : run ∈ op.delivers r := by
            rw [hfirst]
            exact List.mem_cons_self
          rw [← hfirst,(delivers_cases tostring hmem).1]
          exact List.nodup_singleton run
    · intro run hrun hlt
      cases List.mem_append.mp hrun with
      | inl hfirst => exact (delivers_cases tostring hfirst).2.1
      | inr hlater =>
        have hnot := hundelivered run hlater (Nat.lt_of_lt_of_le hlt hgrows.registered)
        cases hdelivered : (r.heap run).relayDelivered with
        | false => rfl
        | true =>
          rw [hgrows.delivered run hlt hdelivered] at hnot
          cases hnot

end Runs

/-- What the tables say about each other. -/
structure Coherent (terminalLimit tombstoneLimit : Nat) (r : Registry) : Prop where
  active : ∀ id run, r.activeRuns.lookup id = some run ↔ r.runs.lookup id = some run ∧ (r.heap run).phase ≠ .terminal
  disjoint : ∀ id run, r.runs.lookup id = some run → r.tombstones.lookup id = none
  terminalRuns : ∀ sessionId, (r.completedRuns.filter fun run => (r.heap run).sessionId = sessionId).length ≤ terminalLimit
  tombstones : r.tombstones.keys.length ≤ tombstoneLimit
  completedOnce : r.completedRuns.Nodup
  completed : ∀ run, run ∈ r.completedRuns ↔ ∃ id, r.runs.lookup id = some run ∧ (r.heap run).phase = .terminal
  orderOnce : r.terminalOrder.Nodup
  order : ∀ id, id ∈ r.terminalOrder ↔ ∃ run, r.runs.lookup id = some run ∧ (r.heap run).phase = .terminal
  dispatchers : ∀ id dispatcher, r.runDispatchers.lookup id = some dispatcher ↔
    ∃ owned, r.dispatcherRuns.lookup dispatcher = some owned ∧ id ∈ owned
  dispatched : ∀ id dispatcher, r.runDispatchers.lookup id = some dispatcher → ∃ run, r.runs.lookup id = some run

theorem Good.coherent {r : Registry} (h : Good r) : Coherent r.terminalLimit r.tombstoneLimit r := by
  have hcompleted : ∀ run, run ∈ r.completedRuns ↔ ∃ id, r.runs.lookup id = some run ∧ (r.heap run).phase = .terminal := by
    intro run
    rw [h.tables.completed run]
    constructor
    · exact fun hrun => ⟨_,hrun⟩
    · rintro ⟨id,hrun,hphase⟩
      rw [(h.tables.known id run hrun).2]
      exact ⟨hrun,hphase⟩
  constructor
  · exact h.tables.active
  · exact h.tables.disjoint
  · exact h.limited
  · have hperm : r.tombstones.keys.Perm r.tombstoneOrder := by
      have hkeys : r.tombstones.keys.Nodup := r.tombstones.nodupKeys
      rw [List.perm_ext_iff_of_nodup hkeys h.tables.stones.nodup]
      intro id
      rw [h.tables.stones.listed,← AList.mem_keys,← AList.lookup_isSome,Option.isSome_iff_ne_none]
    rw [hperm.length_eq]
    exact h.tables.few
  · exact h.tables.completedOnce
  · exact hcompleted
  · exact h.tables.order_nodup
  · intro id
    rw [h.tables.order,List.mem_map]
    constructor
    · rintro ⟨run,hrun,rfl⟩
      exact ⟨run,(h.tables.completed run).mp hrun⟩
    · rintro ⟨run,hrun,hphase⟩
      exact ⟨run,(hcompleted run).mpr ⟨id,hrun,hphase⟩,(h.tables.known id run hrun).2⟩
  · exact h.tables.dispatchers
  · exact h.tables.dispatched

theorem Fresh.append (tostring : LuaValue → String) {r : Registry} {done rest : List Op} (hgood : Good r)
    (h : Fresh r (done ++ rest)) : Fresh (runAll tostring r done) rest ∧ Fresh r done := by
  induction done generalizing r with
  | nil => exact ⟨h,fun _ hfiring => by simp at hfiring,List.nodup_nil⟩
  | cons op done ih =>
    obtain ⟨hnext,_⟩ := advance_step tostring hgood h.first
    obtain ⟨hrest,_⟩ := ih hnext (h.step tostring hgood)
    refine ⟨hrest,?_,?_⟩
    · intro firing hfiring
      apply h.idle
      rw [List.filterMap_append]
      exact List.mem_append_left _ hfiring
    · have honce := h.once
      rw [List.filterMap_append] at honce
      exact (List.nodup_append.mp honce).1

/-- Over any calls in which no firing awaits twice: the tables stay coherent, a run is delivered at
most once, a terminal run stays so, and a call that waits is told once. -/
theorem registry_runs (tostring : LuaValue → String) (terminalLimit tombstoneLimit : Nat) (ops : List Op)
    (honce : (ops.filterMap Op.awaits).Nodup) :
    Coherent terminalLimit tombstoneLimit (runAll tostring (.new terminalLimit tombstoneLimit) ops) ∧
    (delivered tostring (.new terminalLimit tombstoneLimit) ops).Nodup ∧
    ∀ done rest, ops = done ++ rest →
      let r := runAll tostring (.new terminalLimit tombstoneLimit) done
      (∀ run < r.registered, (r.heap run).phase = .terminal →
        ((runAll tostring r rest).heap run).phase = .terminal ∧
          ((runAll tostring r rest).heap run).canonical = (r.heap run).canonical) ∧
      ∀ id sessionId firing dispatcherId after run, rest = .await id sessionId firing dispatcherId :: after →
        (r.await id sessionId firing dispatcherId).2 = .waiting run →
        Became tostring (r.await id sessionId firing dispatcherId).1 after firing id run := by
  have hnew := good_new terminalLimit tombstoneLimit
  have hfresh : Fresh (Registry.new terminalLimit tombstoneLimit) ops := ⟨fun _ _ => rfl,honce⟩
  obtain ⟨hgood,hgrows⟩ := good_run tostring hnew hfresh
  refine ⟨?_,(delivered_run tostring hnew hfresh).1,?_⟩
  · have hcoherent := hgood.coherent
    rwa [hgrows.limits.1,hgrows.limits.2] at hcoherent
  · rintro done rest rfl r
    obtain ⟨hrest,hdone⟩ := hfresh.append tostring hnew
    have hr : Good r := (good_run tostring hnew hdone).1
    constructor
    · exact (good_run tostring hr hrest).2.terminal
    · rintro id sessionId firing dispatcherId after run rfl hwaiting
      have hnext : Good (r.await id sessionId firing dispatcherId).1 := (advance_step tostring hr hrest.first).1
      have hafter : Fresh (r.await id sessionId firing dispatcherId).1 after := hrest.step tostring hr
      have hnot : firing ∉ after.filterMap Op.awaits := (List.nodup_cons.mp hrest.once).1
      exact became_run tostring hnext hafter hnot (waits_await hr hwaiting)

/-- A call waits for a run of the session "s". -/
def awaited : List Op :=
  [.register ⟨some "mag-run-a",.str "s",.str "scan",.nil⟩ "mag-run-b",.await "mag-run-a" (.str "s") "f" .nil]

theorem registry_runs_awaited : Became (fun _ => "") (runAll (fun _ => "") (.new 1 1) awaited)
    [.endSession (.str "s")] "f" "mag-run-a" 0 :=
  ((registry_runs (fun _ => "") 1 1 (awaited ++ [Op.endSession (.str "s")]) (by decide)).2.2
    (awaited.take 1) _ rfl).2 "mag-run-a" (.str "s") "f" .nil _ 0 rfl rfl

/-- The session ends, and the call is told so; its run has no canonical outcome. -/
theorem awaited_endSession_not_canonical :
    ((runAll (fun _ => "") (.new 1 1) (awaited.take 1)).await "mag-run-a" (.str "s") "f" .nil).2 = .waiting 0 ∧
    told (settlements (fun _ => "") (.new 1 1) (awaited ++ [.endSession (.str "s")])) "f" ≠
      [((runAll (fun _ => "") (.new 1 1) (awaited ++ [.endSession (.str "s")])).heap 0).canonical] := by
  refine ⟨rfl,?_⟩
  change [sessionEnded "mag-run-a"] ≠ [.nil]
  simp [sessionEnded,typedError,LuaValue.record]

end Nefor.LeadWorkflow
