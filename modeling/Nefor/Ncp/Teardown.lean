import Mathlib.Data.List.Count
import Nefor.Ncp.Start

/-! The teardown of a connection is accounted for once, whatever happens in whatever order. -/
namespace Nefor.Ncp
open Broker

/-- What the engine reports about the end of a plugin. -/
inductive Report
  | transport
  | process
  deriving DecidableEq, Repr

def Fact.report? (name : PluginName) : Fact → Option Report
  | .processTerminated plugin _ => if plugin = name then some .process else none
  | .transportFailed plugin _ _ => if plugin = name then some .transport else none
  | .deliveryLost .. => none
  | .interruptRequested => none

def LogEntry.fact? : LogEntry → Option Fact
  | .step .. => none
  | .engine fact => some fact

/-- The reports about a plugin on the bus, in order. -/
def reports (name : PluginName) (h : History) : List Report :=
  (published h).filterMap fun entry => entry.fact?.bind (Fact.report? name)

/-- The end of a connection, as far as the history tells. -/
structure TornDownOnce (h : History) (c : Connection) : Prop where
  processed : (reports c.name h).count .process ≤ 1
  failed : (reports c.name h).count .transport ≤ 1
  ordered : ∀ before after, reports c.name h = before ++ .process :: after → .transport ∉ after
  closed : h.count (.closeQueued c.id) ≤ 1
  /-- Nothing is delivered once the writer was told to close. -/
  undelivered : Throughout (fun before e =>
    ∀ lines, e = .delivered c.name lines none → .closeQueued c.id ∉ before) h
  terminated : h.count (.terminated c.id) ≤ 1

/-- When Lua was entered, the open connections were the routed ones. -/
def Event.Routed : Event → Prop
  | .entered _ routed opened => ∀ name, name ∈ routed ↔ name ∈ opened
  | _ => True

namespace Broker

/-- The reports about a plugin, on the bus or on their way there. -/
def reports (b : Broker) (name : PluginName) : List Report :=
  Ncp.reports name b.history ++ b.pendingEngineEnvelopes.filterMap (Fact.report? name)

end Broker

/-- The accounts of a connection whose record is kept. -/
structure Present (b : Broker) (c : Connection) (record : ConnectionRecord) : Prop where
  name : record.name = c.name
  watcher : record.hasWatcher = c.hasWatcher
  reports : b.reports c.name = if record.transportFailure.isSome then [.transport] else []
  routed : record.closing = false → c.name ∈ b.conns ∧ .closeQueued c.id ∉ b.history
  unrouted : record.closing = true → c.name ∉ b.conns
  armed : record.terminate = true → .terminated c.id ∉ b.history

/-- The accounts of a connection that was removed. -/
structure Absent (b : Broker) (c : Connection) : Prop where
  unrouted : c.name ∉ b.conns
  reports : b.reports c.name ∈ ([[],[.transport],[.process],[.transport,.process]] : List (List Report))
  process : c.hasWatcher → .process ∈ b.reports c.name

structure Accounted (b : Broker) (c : Connection) : Prop where
  present : ∀ record, b.connsById c.id = some record → Present b c record
  absent : b.connsById c.id = none → Absent b c
  closed : b.history.count (.closeQueued c.id) ≤ 1
  undelivered : Throughout (fun before e =>
    ∀ lines, e = .delivered c.name lines none → .closeQueued c.id ∉ before) b.history
  terminated : b.history.count (.terminated c.id) ≤ 1

structure Books (setup : Setup) (b : Broker) : Prop where
  accounted : ∀ c ∈ setup.connections, Accounted b c
  order : b.order = setup.connections.map (·.id)
  table : ∀ id record, b.connsById id = some record → ∃ c ∈ setup.connections, c.id = id
  routes : ∀ name ∈ b.conns, ∃ c ∈ setup.connections, c.name = name
  heard : ∀ e ∈ b.history, e.Routed

variable {w : World} {setup : Setup} {b b' : Broker} {c d : Connection} {more : History}
  {id : ConnectionId} {record : ConnectionRecord}

theorem reports_append (name : PluginName) (h k : History) :
    reports name (h ++ k) = reports name h ++ reports name k := by
  simp [reports]

theorem reports_note {event : Event} {name : PluginName} (h : event.published? = none) :
    (b.note event).reports name = b.reports name := by
  simp [Broker.reports,reports,published,h]

/-- Events that say nothing about the end of the connection. -/
def Harmless (b : Broker) (c : Connection) (h : History) : Prop :=
  ∀ e ∈ h, e ≠ .closeQueued c.id ∧ e ≠ .terminated c.id ∧
    ∀ lines, e = .delivered c.name lines none → c.name ∈ b.conns

theorem Harmless.single {event : Event} (hc : event ≠ .closeQueued c.id)
    (ht : event ≠ .terminated c.id)
    (hd : ∀ lines, event = .delivered c.name lines none → c.name ∈ b.conns) :
    Harmless b c [event] := by
  intro e he
  cases List.mem_singleton.mp he
  exact ⟨hc,ht,hd⟩

theorem Accounted.unclosed (h : Accounted b c) (hn : c.name ∈ b.conns) :
    .closeQueued c.id ∉ b.history := by
  cases hr : b.connsById c.id with
  | none => exact absurd hn (h.absent hr).unrouted
  | some record =>
    cases hc : record.closing with
    | false => exact ((h.present record hr).routed hc).2
    | true => exact absurd hn ((h.present record hr).unrouted hc)

theorem Harmless.count_closed (h : Harmless b c more) : more.count (.closeQueued c.id) = 0 :=
  List.count_eq_zero.mpr fun he => (h _ he).1 rfl

theorem Harmless.count_terminated (h : Harmless b c more) : more.count (.terminated c.id) = 0 :=
  List.count_eq_zero.mpr fun he => (h _ he).2.1 rfl

/-- The accounts after events that are harmless, when the record was looked after. -/
theorem Accounted.change (h : Accounted b c) (hh : b'.history = b.history ++ more)
    (hm : Harmless b c more) (hp : ∀ record, b'.connsById c.id = some record → Present b' c record)
    (ha : b'.connsById c.id = none → Absent b' c) : Accounted b' c := by
  refine ⟨hp,ha,?_,?_,?_⟩
  · rw [hh,List.count_append,hm.count_closed]
    exact h.closed
  · rw [hh]
    refine Throughout.append.mpr ⟨h.undelivered,Throughout.of_forall ?_⟩
    intro before hb e he lines hd hc
    rcases List.mem_append.mp hc with hc | hc
    · exact h.unclosed ((hm e he).2.2 lines hd) hc
    · exact (hm _ (hb _ hc)).1 rfl
  · rw [hh,List.count_append,hm.count_terminated]
    exact h.terminated

/-- What does not concern the connection leaves its accounts alone. -/
theorem Accounted.frame (h : Accounted b c) (hh : b'.history = b.history ++ more)
    (hm : Harmless b c more) (ht : b'.connsById c.id = b.connsById c.id)
    (hn : c.name ∈ b'.conns ↔ c.name ∈ b.conns) (hr : b'.reports c.name = b.reports c.name) :
    Accounted b' c := by
  have hclosed : .closeQueued c.id ∉ more := fun he => (hm _ he).1 rfl
  have hterm : .terminated c.id ∉ more := fun he => (hm _ he).2.1 rfl
  refine h.change hh hm ?_ ?_
  · intro record hrec
    obtain ⟨name,watcher,hrep,routed,unrouted,armed⟩ := h.present record (ht ▸ hrec)
    refine ⟨name,watcher,hr.trans hrep,?_,?_,?_⟩
    · intro hc
      rw [hn,hh,List.mem_append,not_or]
      exact ⟨(routed hc).1,(routed hc).2,hclosed⟩
    · intro hc
      rw [hn]
      exact unrouted hc
    · intro hk
      rw [hh,List.mem_append,not_or]
      exact ⟨armed hk,hterm⟩
  · intro hnone
    obtain ⟨unrouted,hrep,process⟩ := h.absent (ht ▸ hnone)
    exact ⟨by rw [hn]; exact unrouted,by rw [hr]; exact hrep,by rw [hr]; exact process⟩

theorem Setup.eq_of_id (hc : c ∈ setup.connections) (hd : d ∈ setup.connections) (h : c.id = d.id) :
    c = d := List.inj_on_of_nodup_map setup.ids_nodup hc hd h

theorem Setup.eq_of_name (hc : c ∈ setup.connections) (hd : d ∈ setup.connections)
    (h : c.name = d.name) : c = d := List.inj_on_of_nodup_map setup.names_nodup hc hd h

namespace Books

theorem mem_opened {name : PluginName} : name ∈ b.opened ↔
    ∃ id ∈ b.order, ∃ record, b.connsById id = some record ∧ record.closing = false ∧
      record.name = name := by
  simp only [opened,records,List.mem_map,List.mem_filter,List.mem_filterMap,Bool.not_eq_true']
  constructor
  · rintro ⟨record,⟨⟨id,hid,hr⟩,hc⟩,hn⟩
    exact ⟨id,hid,record,hr,hc,hn⟩
  · rintro ⟨id,hid,record,hr,hc,hn⟩
    exact ⟨record,⟨⟨id,hid,hr⟩,hc⟩,hn⟩

/-- The routing map lists exactly the open connections. -/
theorem routed_iff (h : Books setup b) (name : PluginName) : name ∈ b.conns ↔ name ∈ b.opened := by
  rw [mem_opened]
  constructor
  · intro hn
    obtain ⟨c,hc,rfl⟩ := h.routes name hn
    have ha := h.accounted c hc
    cases hr : b.connsById c.id with
    | none => exact absurd hn (ha.absent hr).unrouted
    | some record =>
      refine ⟨c.id,?_,record,hr,?_,(ha.present record hr).name⟩
      · rw [h.order]
        exact List.mem_map_of_mem hc
      · rw [← Bool.not_eq_true]
        exact fun hclosing => (ha.present record hr).unrouted hclosing hn
  · rintro ⟨id,-,record,hr,hclosing,rfl⟩
    obtain ⟨c,hc,rfl⟩ := h.table id record hr
    have hp := (h.accounted c hc).present record hr
    rw [hp.name]
    exact (hp.routed hclosing).1

/-- Events that concern no connection, and no change of the tables. -/
theorem frame (h : Books setup b) (more : History) (hh : b'.history = b.history ++ more)
    (hm : ∀ c, Harmless b c more) (he : ∀ e ∈ more, e.Routed) (ht : b'.connsById = b.connsById)
    (hn : b'.conns = b.conns) (ho : b'.order = b.order)
    (hr : ∀ name, b'.reports name = b.reports name) : Books setup b' := by
  refine ⟨?_,ho.trans h.order,?_,?_,?_⟩
  · intro c hc
    exact (h.accounted c hc).frame hh (hm c) (by rw [ht]) (by rw [hn]) (hr c.name)
  · intro id record hrec
    exact h.table id record (ht ▸ hrec)
  · intro name hname
    exact h.routes name (hn ▸ hname)
  · intro e hmem
    rw [hh] at hmem
    exact (List.mem_append.mp hmem).elim (h.heard e) (he e)

theorem same (h : Books setup b) (hh : b'.history = b.history) (ht : b'.connsById = b.connsById)
    (hn : b'.conns = b.conns) (ho : b'.order = b.order)
    (hr : ∀ name, b'.reports name = b.reports name) : Books setup b' :=
  h.frame [] (by rw [hh,List.append_nil]) (fun _ _ he => by cases he)
    (fun _ he => by cases he) ht hn ho hr

/-- Events that put nothing of the engine on the bus. -/
theorem hear (h : Books setup b) (hm : ∀ c, Harmless b c more) (he : ∀ e ∈ more, e.Routed)
    (hp : ∀ name, Ncp.reports name more = []) : Books setup (b.hear more) :=
  h.frame _ rfl hm he rfl rfl rfl fun name => by
    simp [Broker.reports,reports_append,hp]

theorem note (h : Books setup b) {event : Event} (hm : ∀ c, Harmless b c [event])
    (he : event.Routed) (hp : event.published? = none) : Books setup (b.note event) := by
  rw [note_eq hp]
  apply h.hear hm
  · intro e hmem
    cases List.mem_singleton.mp hmem
    exact he
  · intro name
    simp [Ncp.reports,published,hp]

/-- What Lua does concerns the end of no connection. -/
theorem spoken (h : Books setup b) {calls : List Call} (hs : Spoken b.conns b.opened calls more) :
    Books setup (b.hear more) := by
  apply h.hear
  · intro c e he
    obtain ⟨call,-,rfl⟩ | hlua := hs.mem he
    · exact ⟨Event.noConfusion,Event.noConfusion,fun _ hd => Event.noConfusion hd⟩
    · cases hlua with
      | sent target payload =>
        exact ⟨Event.noConfusion,Event.noConfusion,fun _ hd => Event.noConfusion hd⟩
      | delivered target lines hroute =>
        refine ⟨Event.noConfusion,Event.noConfusion,fun _ hd => ?_⟩
        cases hd
        exact hroute
      | refused target lines error =>
        refine ⟨Event.noConfusion,Event.noConfusion,fun _ hd => ?_⟩
        cases hd
  · intro e he
    obtain ⟨call,-,rfl⟩ | hlua := hs.mem he
    · exact h.routed_iff
    · cases hlua <;> trivial
  · intro name
    apply List.filterMap_eq_nil_iff.mpr
    intro entry hentry
    obtain ⟨e,he,hpub⟩ := List.mem_filterMap.mp hentry
    obtain ⟨call,-,rfl⟩ | hlua := hs.mem he
    · cases hpub
    · cases hlua with
      | sent target payload =>
        cases hpub
        rfl
      | delivered target lines hroute => cases hpub
      | refused target lines error => cases hpub

/-- An act on one connection leaves the accounts of the others alone. -/
theorem own (h : Books setup b) (hd : d ∈ setup.connections) (more : History) {entry : Option ConnectionRecord}
    (ht : b'.connsById = Function.update b.connsById d.id entry)
    (hn : b'.conns = b.conns ∨ b'.conns = b.conns.filter (· ≠ d.name)) (ho : b'.order = b.order)
    (hh : b'.history = b.history ++ more) (hm : ∀ c, c.id ≠ d.id → Harmless b c more)
    (he : ∀ e ∈ more, e.Routed) (hr : ∀ name, name ≠ d.name → b'.reports name = b.reports name)
    (hself : Accounted b' d) : Books setup b' := by
  have hroute : ∀ name, name ∈ b'.conns → name ∈ b.conns := by
    intro name hname
    obtain hn | hn := hn
    · exact hn ▸ hname
    · rw [hn] at hname
      exact (List.mem_filter.mp hname).1
  refine ⟨?_,ho.trans h.order,?_,fun name hname => h.routes name (hroute name hname),?_⟩
  · intro c hc
    by_cases hcd : c = d
    · exact hcd ▸ hself
    · have hid : c.id ≠ d.id := fun hi => hcd (Setup.eq_of_id hc hd hi)
      have hname : c.name ≠ d.name := fun hi => hcd (Setup.eq_of_name hc hd hi)
      refine (h.accounted c hc).frame hh (hm c hid) ?_ ?_ (hr c.name hname)
      · rw [ht,Function.update_of_ne hid]
      · obtain hn | hn := hn
        · rw [hn]
        · simp [hn,hname]
  · intro id record hrec
    by_cases hi : id = d.id
    · exact ⟨d,hd,hi.symm⟩
    · rw [ht,Function.update_of_ne hi] at hrec
      exact h.table id record hrec
  · intro e hmem
    rw [hh] at hmem
    exact (List.mem_append.mp hmem).elim (h.heard e) (he e)

/-- A change of a record that none of the accounts looks at. -/
theorem update (h : Books setup b) {f : ConnectionRecord → ConnectionRecord}
    (hf : ∀ record, (f record).name = record.name ∧ (f record).hasWatcher = record.hasWatcher ∧
      (f record).transportFailure = record.transportFailure ∧
      (f record).closing = record.closing ∧ (f record).terminate = record.terminate) :
    Books setup (b.update id f) := by
  cases hrec : b.connsById id with
  | none =>
    refine h.same rfl ?_ rfl rfl fun _ => rfl
    exact Function.update_eq_self_iff.mpr (by rw [hrec]; rfl)
  | some record =>
    obtain ⟨d,hd,rfl⟩ := h.table id record hrec
    have ha := h.accounted d hd
    refine h.own hd [] rfl (.inl rfl) rfl (List.append_nil _).symm
      (fun _ _ _ he => by cases he) (fun _ he => by cases he) (fun _ _ => rfl) ?_
    refine ha.change (List.append_nil _).symm (fun _ he => by cases he) ?_ ?_
    · intro changed hc
      rw [update_self,hrec] at hc
      cases hc
      obtain ⟨name,watcher,hrep,routed,unrouted,armed⟩ := ha.present record hrec
      obtain ⟨h1,h2,h3,h4,h5⟩ := hf record
      exact ⟨h1.trans name,h2.trans watcher,h3 ▸ hrep,h4 ▸ routed,h4 ▸ unrouted,h5 ▸ armed⟩
    · intro hnone
      rw [update_self,hrec] at hnone
      cases hnone

theorem forceClose_open (hr : b.connsById id = some record) (hc : record.closing = false)
    (hn : record.name ∈ b.conns) : b.forceClose w id =
      ((b.update id fun record => { record with
        closing := true, closeDeadline := some (w.now b.history + 2000) }).unroute record.name).note
          (.closeQueued id) := by
  simp [Broker.forceClose,hr,hc,hn]

theorem forceClose (h : Books setup b) (id : ConnectionId) : Books setup (b.forceClose w id) := by
  cases hrec : b.connsById id with
  | none => simpa [Broker.forceClose,hrec] using h
  | some record =>
    cases hclosing : record.closing with
    | true => simpa [Broker.forceClose,hrec,hclosing] using h
    | false =>
      obtain ⟨d,hd,rfl⟩ := h.table id record hrec
      have ha := h.accounted d hd
      obtain ⟨name,watcher,hrep,routed,unrouted,armed⟩ := ha.present record hrec
      obtain ⟨hroute,hunclosed⟩ := routed hclosing
      rw [forceClose_open hrec hclosing (name ▸ hroute),name]
      refine h.own hd [.closeQueued d.id] rfl (.inr rfl) rfl rfl ?_ ?_ ?_ ?_
      · exact fun c hc => .single (fun heq => hc (Event.closeQueued.inj heq).symm)
          Event.noConfusion fun _ heq => Event.noConfusion heq
      · intro e he
        cases List.mem_singleton.mp he
        trivial
      · exact fun other _ => reports_note rfl
      · refine ⟨?_,?_,?_,?_,?_⟩
        · intro changed hc
          simp only [note_connsById,unroute_connsById,update_self,hrec,Option.map_some,
            Option.some.injEq] at hc
          subst hc
          refine ⟨name,watcher,(reports_note rfl).trans hrep,Bool.noConfusion,?_,?_⟩
          · intro _
            simp
          · intro hk
            simpa using armed hk
        · intro hnone
          simp [hrec] at hnone
        · simp [List.count_append,List.count_eq_zero.mpr hunclosed]
        · exact Throughout.snoc.mpr ⟨ha.undelivered,fun _ heq => Event.noConfusion heq⟩
        · simpa [List.count_append] using ha.terminated

theorem fireTerminate (h : Books setup b) (id : ConnectionId) : Books setup (b.fireTerminate id) := by
  cases hrec : b.connsById id with
  | none => simpa [Broker.fireTerminate,hrec] using h
  | some record =>
    cases hterm : record.terminate with
    | false => simpa [Broker.fireTerminate,hrec,hterm] using h
    | true =>
      obtain ⟨d,hd,rfl⟩ := h.table id record hrec
      have ha := h.accounted d hd
      obtain ⟨name,watcher,hrep,routed,unrouted,armed⟩ := ha.present record hrec
      have hfire : b.fireTerminate d.id =
          (b.update d.id fun record => { record with terminate := false }).note (.terminated d.id) := by
        simp [Broker.fireTerminate,hrec,hterm]
      rw [hfire]
      refine h.own hd [.terminated d.id] rfl (.inl rfl) rfl rfl ?_ ?_ ?_ ?_
      · exact fun c hc => .single Event.noConfusion
          (fun heq => hc (Event.terminated.inj heq).symm) fun _ heq => Event.noConfusion heq
      · intro e he
        cases List.mem_singleton.mp he
        trivial
      · exact fun other _ => reports_note rfl
      · refine ⟨?_,?_,?_,?_,?_⟩
        · intro changed hc
          simp only [note_connsById,update_self,hrec,Option.map_some,Option.some.injEq] at hc
          subst hc
          refine ⟨name,watcher,(reports_note rfl).trans hrep,?_,unrouted,Bool.noConfusion⟩
          intro hopen
          simpa using routed hopen
        · intro hnone
          simp [hrec] at hnone
        · simpa [List.count_append] using ha.closed
        · exact Throughout.snoc.mpr ⟨ha.undelivered,fun _ heq => Event.noConfusion heq⟩
        · simp [List.count_append,List.count_eq_zero.mpr (armed hterm)]

theorem recordFailure (h : Books setup b) (hrec : b.connsById id = some record)
    (hf : record.transportFailure = none) (phase kind : String) :
    Books setup (b.recordFailure w id record.name phase kind) := by
  obtain ⟨d,hd,rfl⟩ := h.table id record hrec
  have ha := h.accounted d hd
  obtain ⟨name,watcher,hrep,routed,unrouted,armed⟩ := ha.present record hrec
  have hquiet : ∀ c, Harmless b c [.transportFailed d.id] := fun _ =>
    .single Event.noConfusion Event.noConfusion fun _ heq => Event.noConfusion heq
  have hreports : ∀ other, (b.recordFailure w d.id record.name phase kind).reports other =
      b.reports other ++ if d.name = other then [Report.transport] else [] := by
    intro other
    simp only [Broker.reports,Broker.recordFailure,queue_history,queue_pending,unroute_history,
      unroute_pending,note_history,note_pending,update_history,update_pending,reports_append,
      List.filterMap_append,name]
    by_cases ho : d.name = other <;>
      simp [Ncp.reports,published,Event.published?,Fact.report?,ho]
  refine h.own hd [.transportFailed d.id] rfl (.inr (by rw [← name]; rfl)) rfl rfl
    (fun c _ => hquiet c) ?_ ?_ ?_
  · intro e he
    cases List.mem_singleton.mp he
    trivial
  · intro other ho
    rw [hreports,if_neg (Ne.symm ho),List.append_nil]
  · refine ha.change rfl (hquiet d) ?_ ?_
    · intro changed hc
      rw [recordFailure_connsById,Function.update_self,hrec] at hc
      cases hc
      refine ⟨name,watcher,?_,Bool.noConfusion,?_,?_⟩
      · rw [hreports,hrep,hf,if_pos rfl]
        rfl
      · intro _
        simp [Broker.recordFailure,name]
      · intro hk
        simpa [Broker.recordFailure] using armed hk
    · intro hnone
      rw [recordFailure_connsById,Function.update_self,hrec] at hnone
      cases hnone

/-- A connection without a process is removed and nothing reported. -/
theorem leave (h : Books setup b) (hrec : b.connsById id = some record)
    (hw : record.hasWatcher = false) (ht : b'.connsById = Function.update b.connsById id none)
    (hn : b'.conns = b.conns ∧ record.closing = true ∨ b'.conns = b.conns.filter (· ≠ record.name))
    (ho : b'.order = b.order) (hh : b'.history = b.history)
    (hr : ∀ name, b'.reports name = b.reports name) : Books setup b' := by
  obtain ⟨d,hd,rfl⟩ := h.table id record hrec
  have ha := h.accounted d hd
  obtain ⟨name,watcher,hrep,routed,unrouted,armed⟩ := ha.present record hrec
  have hempty : ∀ c, Harmless b c [] := fun _ _ he => by cases he
  rw [name] at hn
  refine h.own hd [] ht (hn.imp_left And.left) ho (by rw [hh,List.append_nil])
    (fun c _ => hempty c) (fun _ he => by cases he) (fun other _ => hr other) ?_
  refine ha.change (by rw [hh,List.append_nil]) (hempty d) ?_ ?_
  · intro changed hc
    rw [ht,Function.update_self] at hc
    cases hc
  · intro _
    refine ⟨?_,?_,?_⟩
    · obtain ⟨hn,hclosing⟩ | hn := hn
      · rw [hn]
        exact unrouted hclosing
      · simp [hn]
    · rw [hr,hrep]
      split <;> simp
    · intro hwatch
      rw [← watcher,hw] at hwatch
      cases hwatch

theorem reportExit (h : Books setup b) (hrec : b.connsById id = some record)
    (outcome : ExitOutcome) : Books setup (b.reportExit id record.name outcome) := by
  obtain ⟨d,hd,rfl⟩ := h.table id record hrec
  have ha := h.accounted d hd
  obtain ⟨name,watcher,hrep,routed,unrouted,armed⟩ := ha.present record hrec
  have hempty : ∀ c, Harmless b c [] := fun _ _ he => by cases he
  rw [name]
  have hreports : ∀ other, (b.reportExit d.id d.name outcome).reports other =
      b.reports other ++ if d.name = other then [Report.process] else [] := by
    intro other
    rw [Broker.reports,Broker.reports,reportExit_history,reportExit_pending,List.filterMap_append,
      List.append_assoc]
    by_cases ho : d.name = other <;> simp [Fact.report?,ho]
  refine h.own hd [] reportExit_connsById (.inr reportExit_conns) reportExit_order
    (by rw [reportExit_history,List.append_nil]) (fun c _ => hempty c) (fun _ he => by cases he) ?_ ?_
  · intro other ho
    rw [hreports,if_neg (Ne.symm ho),List.append_nil]
  · refine ha.change (by rw [reportExit_history,List.append_nil]) (hempty d) ?_ ?_
    · intro changed hc
      rw [reportExit_connsById,Function.update_self] at hc
      cases hc
    · intro _
      have hself : (b.reportExit d.id d.name outcome).reports d.name = b.reports d.name ++ [Report.process] := by
        rw [hreports,if_pos rfl]
      refine ⟨by simp [reportExit_conns],?_,fun _ => by simp [hself]⟩
      rw [hself,hrep]
      split <;> simp

/-- Each act keeps the books. -/
theorem act (h : Act w b b') (hb : Books setup b) : Books setup b' := by
  cases h with
  | enter call hcall =>
    obtain ⟨more,heq,hspoken⟩ := enter_spoken w call b
    exact heq ▸ hb.spoken hspoken
  | dispatchTail hlen =>
    obtain ⟨more,heq,hspoken⟩ := dispatchTail_spoken w b
    have hsame : Books setup { b with mirroredCount := b.eventLog.length } :=
      hb.same rfl rfl rfl rfl fun _ => rfl
    exact heq ▸ hsame.spoken hspoken
  | publishEngineEnvelopes =>
    refine hb.frame (b.pendingEngineEnvelopes.map fun fact => .published (.engine fact))
      (by simp [publishEngineEnvelopes,publish,Function.comp_def]) ?_ ?_ rfl rfl rfl ?_
    · intro c e he
      obtain ⟨fact,-,rfl⟩ := List.mem_map.mp he
      exact ⟨Event.noConfusion,Event.noConfusion,fun _ heq => Event.noConfusion heq⟩
    · intro e he
      obtain ⟨fact,-,rfl⟩ := List.mem_map.mp he
      trivial
    · intro name
      simp only [Broker.reports,publishEngineEnvelopes,publish,reports_append,List.filterMap_nil,
        List.append_nil]
      rw [Ncp.reports,Ncp.reports,published_map,List.filterMap_map]
      rfl
  | queue fact hfact =>
    refine hb.same rfl rfl rfl rfl fun name => ?_
    obtain rfl | ⟨plugin,count,rfl⟩ := hfact <;> simp [Broker.reports,Fact.report?]
  | shutdownRequested request =>
    exact hb.note (fun _ => .single Event.noConfusion Event.noConfusion
      fun _ heq => Event.noConfusion heq) trivial rfl
  | forceClose id _ => exact hb.forceClose id
  | recordFailure phase kind hrec hf => exact hb.recordFailure hrec hf phase kind
  | remove hrec hw hc => exact hb.leave hrec hw rfl (.inl ⟨rfl,hc⟩) rfl rfl fun _ => rfl
  | expire id =>
    exact (hb.update (f := fun record => { record with closeDeadline := none })
      fun _ => ⟨rfl,rfl,rfl,rfl,rfl⟩).fireTerminate id
  | fireTerminate id => exact hb.fireTerminate id
  | discard hrec hw _ => exact hb.leave hrec hw rfl (.inr rfl) rfl rfl fun _ => rfl
  | reportExit hrec _ => exact hb.reportExit hrec _
  | waits tasks =>
    exact hb.note (fun _ => .single Event.noConfusion Event.noConfusion
      fun _ heq => Event.noConfusion heq) trivial rfl

theorem acts (h : Acts w b b') (hb : Books setup b) : Books setup b' := by
  induction h with
  | refl => exact hb
  | tail _ h ih => exact ih.act h

theorem passBatch (hb : Books setup b) {first : ConnectionId × ConnectionInbound}
    (h : tryRecv w b = some (first,b')) : Books setup (b'.passBatch w first) := by
  obtain ⟨left,spoken,heq,-,hspoken⟩ := passBatch_eq h
  have hleft : Books setup (b.withInbound left) := hb.same rfl rfl rfl rfl fun _ => rfl
  have hreceived : Books setup ((b.withInbound left).hear (receipts (first :: (burst w 255 b').1))) := by
    apply hleft.hear
    · intro c e he
      obtain ⟨message,-,rfl⟩ := List.mem_map.mp he
      exact ⟨Event.noConfusion,Event.noConfusion,fun _ heq => Event.noConfusion heq⟩
    · intro e he
      obtain ⟨message,-,rfl⟩ := List.mem_map.mp he
      trivial
    · intro name
      rw [Ncp.reports,published_receipts]
      rfl
  rw [heq,← hear_hear]
  exact hreceived.spoken hspoken

theorem move (h : Move w b b') (hb : Books setup b) : Books setup b' := by
  cases h with
  | act h => exact hb.act h
  | tick h => exact (hb.passBatch h).acts (Acts.handleInboundTick w h)
  | exit id outcome =>
    have hnote : Books setup (b.note (.exited id outcome)) :=
      hb.note (fun _ => .single Event.noConfusion Event.noConfusion
        fun _ heq => Event.noConfusion heq) trivial rfl
    exact (hnote.update (f := fun record => { record with pendingExit := some outcome })
      fun _ => ⟨rfl,rfl,rfl,rfl,rfl⟩).forceClose id

theorem moves (h : Moves w b b') (hb : Books setup b) : Books setup b' := by
  induction h with
  | refl => exact hb
  | tail _ h ih => exact ih.move h

theorem start (h : setup.Started b) : Books setup b := by
  have hopened : ∀ name, name ∈ b.conns ↔ name ∈ b.opened := by
    intro name
    rw [h.conns,mem_opened,h.order]
    simp only [List.mem_map]
    constructor
    · rintro ⟨c,hc,rfl⟩
      exact ⟨c.id,⟨c,hc,rfl⟩,c.record,h.attached c hc,rfl,rfl⟩
    · rintro ⟨-,⟨c,hc,rfl⟩,record,hrec,-,rfl⟩
      rw [h.attached c hc] at hrec
      cases hrec
      exact ⟨c,hc,rfl⟩
  have hsteps : ∀ name, Ncp.reports name b.history = [] := by
    intro name
    apply List.filterMap_eq_nil_iff.mpr
    intro entry hentry
    obtain ⟨e,he,hpub⟩ := List.mem_filterMap.mp hentry
    cases h.early e he with
    | loaded target payload =>
      cases hpub
      rfl
    | cli name args => cases hpub
    | lua hlua =>
      cases hlua with
      | sent target payload =>
        cases hpub
        rfl
      | delivered target lines hroute => cases hpub
      | refused target lines error => cases hpub
  have habsent : ∀ e ∈ b.history, (∀ id, e ≠ .closeQueued id) ∧ ∀ id, e ≠ .terminated id := by
    intro e he
    cases h.early e he with
    | loaded target payload => exact ⟨fun _ => Event.noConfusion,fun _ => Event.noConfusion⟩
    | cli name args => exact ⟨fun _ => Event.noConfusion,fun _ => Event.noConfusion⟩
    | lua hlua => cases hlua <;> exact ⟨fun _ => Event.noConfusion,fun _ => Event.noConfusion⟩
  have hclosed : ∀ id, .closeQueued id ∉ b.history := fun id he => (habsent _ he).1 id rfl
  have hterm : ∀ id, .terminated id ∉ b.history := fun id he => (habsent _ he).2 id rfl
  refine ⟨?_,h.order,?_,?_,?_⟩
  · intro c hc
    refine ⟨?_,?_,?_,?_,?_⟩
    · intro record hrec
      rw [h.attached c hc] at hrec
      cases hrec
      refine ⟨rfl,rfl,?_,fun _ => ⟨?_,hclosed c.id⟩,Bool.noConfusion,fun _ => hterm c.id⟩
      · rw [Broker.reports,hsteps,h.pending,List.nil_append,List.filterMap_map]
        apply List.filterMap_eq_nil_iff.mpr
        intro failure hfailure
        have hne : failure.1 ≠ c.name := fun heq =>
          setup.failures_apart failure hfailure (heq ▸ List.mem_map_of_mem hc)
        simp [Fact.report?,hne]
      · rw [h.conns]
        exact List.mem_map_of_mem hc
    · intro hnone
      rw [h.attached c hc] at hnone
      cases hnone
    · rw [List.count_eq_zero.mpr (hclosed c.id)]
      exact Nat.zero_le 1
    · exact Throughout.of_forall fun before hb e _ _ _ hclose => hclosed c.id (hb _ hclose)
    · rw [List.count_eq_zero.mpr (hterm c.id)]
      exact Nat.zero_le 1
  · intro id record hrec
    by_cases hid : id ∈ setup.connections.map (·.id)
    · obtain ⟨c,hc,hid⟩ := List.mem_map.mp hid
      exact ⟨c,hc,hid⟩
    · rw [h.others id hid] at hrec
      cases hrec
  · intro name hname
    obtain ⟨c,hc,heq⟩ := List.mem_map.mp ((h.conns name).mp hname)
    exact ⟨c,hc,heq⟩
  · intro e he
    cases h.early e he with
    | loaded target payload => trivial
    | cli name args => exact hopened
    | lua hlua => cases hlua <;> trivial

end Books

theorem run_books (w : World) (setup : Setup) (turns : Nat) :
    Books setup (run w setup turns).broker :=
  .moves (run_moves w setup turns).1 (.start (setup.started w))

/-! The end of a run. -/

theorem forceTerminateAll_pending :
    b.forceTerminateAll.pendingEngineEnvelopes = b.pendingEngineEnvelopes := by
  have hfold : ∀ {f : Broker → ConnectionId → Broker}, (∀ b id,
      (f b id).pendingEngineEnvelopes = b.pendingEngineEnvelopes) → ∀ ids b,
      (List.foldl f b ids).pendingEngineEnvelopes = b.pendingEngineEnvelopes := by
    intro f hf ids
    induction ids with
    | nil => exact fun _ => rfl
    | cons id rest ih => exact fun b => (ih (f b id)).trans (hf b id)
  unfold forceTerminateAll
  simp only
  rw [hfold ?_,hfold ?_]
  · intro b id
    unfold fireTerminate
    split
    · rfl
    · split <;> rfl
  · intro b id
    unfold Broker.discard
    split <;> rfl

theorem ids_eq_nil : b.ids = [] ↔ ∀ id ∈ b.order, b.connsById id = none := by
  simp [Broker.ids]

/-- Every process that was not reaped is accounted for. -/
theorem accountUnreapedProcesses_ids : (accountUnreapedProcesses w b).ids = [] := by
  have hreport : ∀ (b : Broker) id, (accountUnreaped b id).order = b.order ∧
      (accountUnreaped b id).connsById id = none ∧
      ∀ other, b.connsById other = none → (accountUnreaped b id).connsById other = none := by
    intro b id
    unfold accountUnreaped
    cases hr : b.connsById id with
    | none => exact ⟨rfl,hr,fun _ ho => ho⟩
    | some record =>
      refine ⟨?_,?_,?_⟩
      · exact reportExit_order
      · rw [reportExit_connsById,Function.update_self]
      · intro other ho
        rw [reportExit_connsById]
        by_cases hid : other = id
        · rw [hid,Function.update_self]
        · rw [Function.update_of_ne hid,ho]
  have hfold : ∀ (ids : List ConnectionId) (b : Broker), (ids.foldl accountUnreaped b).order = b.order ∧
      ∀ id, (id ∈ ids ∨ b.connsById id = none) → (ids.foldl accountUnreaped b).connsById id = none := by
    intro ids
    induction ids with
    | nil => exact fun b => ⟨rfl,fun id hid => hid.resolve_left List.not_mem_nil⟩
    | cons first rest ih =>
      intro b
      obtain ⟨horder,hself,hkeep⟩ := hreport b first
      obtain ⟨horder',hgone⟩ := ih (accountUnreaped b first)
      refine ⟨horder'.trans horder,fun id hid => hgone id ?_⟩
      obtain hid | hnone := hid
      · obtain rfl | hid := List.mem_cons.mp hid
        · exact .inr hself
        · exact .inl hid
      · exact .inr (hkeep id hnone)
  rw [ids_eq_nil,accountUnreapedProcesses,drainEngineEnvelopes_order,(hfold b.ids b).1,drainEngineEnvelopes_connsById]
  intro id hid
  apply (hfold b.ids b).2
  cases hr : b.connsById id with
  | none => exact .inr rfl
  | some record => exact .inl (List.mem_filter.mpr ⟨hid,by simp [hr]⟩)

namespace Loop
variable {s : Loop}

/-- Nothing is left when the loop has stopped. -/
def Final (s : Loop) : Prop :=
  s.stopped.isSome → s.broker.ids = [] ∧ s.broker.pendingEngineEnvelopes = []

theorem select_stopped (w : World) (s : Loop) : (select w s).stopped = s.stopped := by
  unfold select
  simp only
  split
  · split <;> rfl
  · split <;> rfl
  · rfl
  · rfl
  · split <;> rfl
  · split <;> rfl
  · rfl

theorem turn_final (w : World) (h : s.Final) : (turn w s).Final := by
  unfold turn
  split
  · exact h
  · rename_i hrunning
    simp only
    have hexpire : (expireGrace w { s with broker := settle w s.broker }).broker.pendingEngineEnvelopes
        = [] := by
      unfold expireGrace
      split
      · exact forceTerminateAll_pending.trans drainEngineEnvelopes_pending
      · exact drainEngineEnvelopes_pending
    have hstopped : (expireGrace w { s with broker := settle w s.broker }).stopped = s.stopped := by
      unfold expireGrace
      split <;> rfl
    split
    · exact fun _ => ⟨accountUnreapedProcesses_ids,drainEngineEnvelopes_pending⟩
    · generalize expireGrace w { s with broker := settle w s.broker } = t at hexpire hstopped
      have htask : (runTask w t).broker.pendingEngineEnvelopes = [] := by
        unfold runTask
        split
        · obtain ⟨more,heq,-⟩ := enter_spoken w .cooperativeTask t.broker
          obtain ⟨count,h,hdrain⟩ := drainPendingDispatch_eq w (enter w .cooperativeTask t.broker)
          rw [hdrain,heq]
          exact hexpire
        · exact hexpire
      have hstopped : (runTask w t).stopped = s.stopped := by
        unfold runTask
        split
        · exact hstopped
        · exact hstopped
      unfold await
      split
      · rename_i hstop
        simp only [Bool.and_eq_true] at hstop
        exact fun _ => ⟨List.isEmpty_iff.mp hstop.1.2,htask⟩
      · split
        · rename_i hstop
          simp only [Bool.and_eq_true] at hstop
          exact fun _ => ⟨List.isEmpty_iff.mp hstop.2,htask⟩
        · intro hsome
          rw [select_stopped] at hsome
          exact absurd (hstopped ▸ hsome) hrunning

end Loop

theorem run_final (w : World) (setup : Setup) (turns : Nat) : (run w setup turns).Final := by
  induction turns with
  | zero =>
    intro h
    cases h
  | succ turns ih =>
    unfold run
    rw [Function.iterate_succ_apply']
    exact Loop.turn_final w ih

/-- The accounts, read off the history. -/
theorem Accounted.tornDownOnce (h : Accounted b c) : TornDownOnce b.history c := by
  have hall : b.reports c.name ∈
      ([[],[.transport],[.process],[.transport,.process]] : List (List Report)) := by
    cases hr : b.connsById c.id with
    | none => exact (h.absent hr).reports
    | some record =>
      rw [(h.present record hr).reports]
      split <;> simp
  have hsub : List.Sublist (Ncp.reports c.name b.history) (b.reports c.name) :=
    (List.prefix_append _ _).sublist
  refine ⟨?_,?_,?_,h.closed,h.undelivered,h.terminated⟩
  · refine (hsub.count_le _).trans ?_
    revert hall
    generalize b.reports c.name = r
    revert r
    decide
  · refine (hsub.count_le _).trans ?_
    revert hall
    generalize b.reports c.name = r
    revert r
    decide
  · intro before after heq hmem
    have hboth : List.Sublist [Report.process,.transport] (b.reports c.name) := by
      refine List.Sublist.trans ?_ hsub
      rw [heq]
      exact ((List.singleton_sublist.mpr hmem).cons_cons _).trans (List.sublist_append_right _ _)
    revert hall hboth
    generalize b.reports c.name = r
    revert r
    decide

/-- In every run the teardown of every connection is accounted for once, and the routing map lists
the open connections. -/
theorem run_tearsDownOnce (w : World) (setup : Setup) (turns : Nat) :
    (∀ c ∈ setup.connections, TornDownOnce (run w setup turns).broker.history c ∧
      (c.hasWatcher → (run w setup turns).stopped.isSome →
        (reports c.name (run w setup turns).broker.history).count .process = 1)) ∧
    (∀ name, name ∈ (run w setup turns).broker.conns ↔ name ∈ (run w setup turns).broker.opened) ∧
    ∀ e ∈ (run w setup turns).broker.history, e.Routed := by
  have hbooks := run_books w setup turns
  refine ⟨fun c hc => ?_,hbooks.routed_iff,hbooks.heard⟩
  have honce := (hbooks.accounted c hc).tornDownOnce
  refine ⟨honce,fun hwatch hstop => ?_⟩
  obtain ⟨hids,hpending⟩ := run_final w setup turns hstop
  have hgone : (run w setup turns).broker.connsById c.id = none := by
    apply ids_eq_nil.mp hids
    rw [hbooks.order]
    exact List.mem_map_of_mem hc
  have hreported := ((hbooks.accounted c hc).absent hgone).process hwatch
  rw [Broker.reports,hpending,List.filterMap_nil,List.append_nil] at hreported
  exact Nat.le_antisymm honce.processed (List.one_le_count_iff.mpr hreported)

/-- A plugin whose process ends while the loop waits for the first time. -/
def exitingPlugin : Connection := ⟨1,"tool",true,true,⟨[],.eof⟩⟩

def exitingWorld : World :=
  { World.idle with
    select := fun h => if h.length = 1 then .exit 1 .cleanExit else .sleep }

theorem exitingPlugin_tearsDownOnce :
    (reports "tool" (run exitingWorld (.single exitingPlugin) 2).broker.history).count .process = 1 :=
  ((run_tearsDownOnce exitingWorld (.single exitingPlugin) 2).1 exitingPlugin
    List.mem_cons_self).2 rfl (by decide)

end Nefor.Ncp
