import Nefor.Ncp.Turns

/-! The start of a run. -/
namespace Nefor.Ncp
open Broker

/-- What has happened when the loop is entered. -/
inductive Early (routed opened : List PluginName) : Event → Prop
  | loaded (target : Option PluginName) (payload : String) :
      Early routed opened (.published (.step target payload))
  | cli (name : String) (args : List String) :
      Early routed opened (.entered (.cli name args) routed opened)
  | lua {event : Event} (h : ByLua routed event) : Early routed opened event

/-- The record of a connection that was just attached. -/
def Connection.record (c : Connection) : ConnectionRecord :=
  ⟨c.name,false,none,none,c.hasWatcher,none,c.terminate⟩

namespace Setup
variable {setup : Setup}

/-- The broker as the loop finds it. -/
structure Started (setup : Setup) (b : Broker) : Prop where
  attached : ∀ c ∈ setup.connections, b.connsById c.id = some c.record
  others : ∀ id, id ∉ setup.connections.map (·.id) → b.connsById id = none
  inbound : ∀ c ∈ setup.connections, b.inbound c.id = runReader c.output
  order : b.order = setup.connections.map (·.id)
  conns : ∀ name, name ∈ b.conns ↔ name ∈ setup.connections.map (·.name)
  pending : b.pendingEngineEnvelopes =
    setup.failures.map fun failure => .processTerminated failure.1 (.spawnFailure failure.2)
  mirrored : b.mirroredCount = 0
  log : b.eventLog = published b.history
  early : ∀ e ∈ b.history, Early b.conns b.opened e

theorem attach_started (cs : List Connection) (b : Broker) (hids : (cs.map (·.id)).Nodup) :
    (∀ c ∈ cs, (cs.foldl attachTransport b).connsById c.id = some c.record) ∧
    (∀ id, id ∉ cs.map (·.id) → (cs.foldl attachTransport b).connsById id = b.connsById id) ∧
    (∀ c ∈ cs, (cs.foldl attachTransport b).inbound c.id = runReader c.output) ∧
    (∀ id, id ∉ cs.map (·.id) → (cs.foldl attachTransport b).inbound id = b.inbound id) ∧
    (cs.foldl attachTransport b).order = b.order ++ cs.map (·.id) ∧
    (∀ name, name ∈ (cs.foldl attachTransport b).conns ↔ name ∈ b.conns ∨ name ∈ cs.map (·.name)) ∧
    (cs.foldl attachTransport b).pendingEngineEnvelopes = b.pendingEngineEnvelopes ∧
    (cs.foldl attachTransport b).mirroredCount = b.mirroredCount ∧
    (cs.foldl attachTransport b).eventLog = b.eventLog ∧
    (cs.foldl attachTransport b).history = b.history := by
  induction cs generalizing b with
  | nil => simp
  | cons c rest ih =>
    rw [List.map_cons,List.nodup_cons] at hids
    obtain ⟨htable,hother,hin,hinother,horder,hconns,hpending,hmirror,hlog,hhist⟩ :=
      ih (attachTransport b c) hids.2
    refine ⟨?_,?_,?_,?_,?_,?_,hpending,hmirror,hlog,hhist⟩
    · intro d hd
      rcases List.mem_cons.mp hd with rfl | hd
      · exact (hother _ hids.1).trans (Function.update_self ..)
      · exact htable d hd
    · intro id hid
      rw [List.map_cons,List.mem_cons,not_or] at hid
      exact (hother id hid.2).trans (Function.update_of_ne hid.1 ..)
    · intro d hd
      rcases List.mem_cons.mp hd with rfl | hd
      · exact (hinother _ hids.1).trans (Function.update_self ..)
      · exact hin d hd
    · intro id hid
      rw [List.map_cons,List.mem_cons,not_or] at hid
      exact (hinother id hid.2).trans (Function.update_of_ne hid.1 ..)
    · exact horder.trans (by simp [attachTransport])
    · intro name
      rw [List.foldl_cons,hconns name]
      simp only [attachTransport,List.mem_append,List.mem_filter,decide_eq_true_eq,List.map_cons,
        List.mem_cons]
      by_cases hn : name = c.name <;> simp [hn]

theorem foldl_queue {α : Type} (fact : α → Fact) (items : List α) (b : Broker) :
    items.foldl (fun b item => b.queueEngineEnvelope (fact item)) b =
      { b with pendingEngineEnvelopes := b.pendingEngineEnvelopes ++ items.map fact } := by
  induction items generalizing b with
  | nil => simp
  | cons item rest ih =>
    rw [List.foldl_cons,ih]
    simp [queueEngineEnvelope]

theorem queue_started (failures : List (PluginName × String)) (b : Broker) :
    failures.foldl queueProcessFact b = { b with
      pendingEngineEnvelopes := b.pendingEngineEnvelopes ++
        failures.map fun failure => .processTerminated failure.1 (.spawnFailure failure.2) } :=
  foldl_queue (fun failure : PluginName × String =>
    .processTerminated failure.1 (.spawnFailure failure.2)) failures b

theorem spawned_started (setup : Setup) : Started setup setup.spawned := by
  unfold spawned
  rw [queue_started]
  obtain ⟨htable,hother,hin,-,horder,hconns,hpending,hmirror,hlog,hhist⟩ :=
    attach_started setup.connections setup.shared setup.ids_nodup
  refine ⟨htable,fun id hid => hother id hid,hin,horder.trans (List.nil_append _),?_,?_,hmirror,?_,?_⟩
  · intro name
    simpa [shared,publish] using hconns name
  · exact (congrArg (· ++ _) hpending).trans (List.nil_append _)
  · refine hlog.trans ?_
    simp only [hhist]
    exact (published_map _).symm
  · intro e he
    simp only [hhist] at he
    obtain ⟨entry,-,rfl⟩ : ∃ entry ∈ setup.loaded, .published (.step entry.1 entry.2) = e := by
      simpa [shared,publish] using he
    exact .loaded _ _

theorem started (setup : Setup) (w : World) : Started setup (setup.start w).broker := by
  have h := spawned_started setup
  unfold start
  cases setup.cli with
  | none => exact h
  | some command =>
    obtain ⟨spoken,heq,hspoken⟩ := enter_spoken w (.cli command.1 command.2) setup.spawned
    simp only [heq]
    refine ⟨h.attached,h.others,h.inbound,h.order,h.conns,h.pending,h.mirrored,?_,?_⟩
    · simp [h.log]
    · intro e he
      rcases List.mem_append.mp he with he | he
      · exact h.early e he
      · obtain ⟨call,hc,rfl⟩ | hlua := hspoken.mem he
        · cases List.mem_singleton.mp hc
          exact .cli _ _
        · exact .lua hlua

theorem Started.record {b : Broker} (h : Started setup b) {id : ConnectionId}
    {record : ConnectionRecord} (hr : b.connsById id = some record) :
    ∃ c ∈ setup.connections, c.id = id ∧ record = c.record := by
  by_cases hid : id ∈ setup.connections.map (·.id)
  · obtain ⟨c,hc,rfl⟩ := List.mem_map.mp hid
    exact ⟨c,hc,rfl,Option.some.inj (hr.symm.trans (h.attached c hc))⟩
  · rw [h.others id hid] at hr
    cases hr

theorem Started.coherent {b : Broker} (h : Started setup b) : b.Coherent := by
  intro id record hr hd
  obtain ⟨c,-,-,rfl⟩ := h.record hr
  exact absurd hd (by simp [Connection.record])

end Setup

/-- A world in which nothing happens. -/
def World.idle : World where
  react _ := []
  writerOpen _ _ := true
  now _ := 0
  reached _ _ _ := false
  lost _ _ := 0
  finished _ _ := true
  pending _ := 0
  arrival _ := none
  writerEnds _ := []
  hasCallback _ := false
  hasTasks _ := false
  activeProcesses _ := 0
  select _ := .sleep

/-- One connection and nothing else. -/
def Setup.single (c : Connection) : Setup where
  connections := [c]
  failures := []
  loaded := []
  cli := none
  ids_nodup := List.nodup_singleton _
  names_nodup := List.nodup_singleton _
  failures_apart _ h := absurd h List.not_mem_nil

/-- The moves of a run, from its start. -/
theorem run_moves (w : World) (setup : Setup) (turns : Nat) :
    Moves w (setup.start w).broker (run w setup turns).broker ∧ (run w setup turns).Asked := by
  induction turns with
  | zero =>
    refine ⟨.refl,?_⟩
    rintro (h | h | h) <;> cases h
  | succ turns ih =>
    obtain ⟨hmoves,hasked⟩ := ih
    have hc := hmoves.coherent (setup.started w).coherent
    obtain ⟨hturn,hasked⟩ := Loop.turn_moves w hc hasked
    unfold run
    rw [Function.iterate_succ_apply']
    exact ⟨hmoves.trans hturn,hasked⟩

end Nefor.Ncp
