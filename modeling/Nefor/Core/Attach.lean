import Nefor.Core.Ncp

/-! What a peer is handed, in any run, is what the bus log holds for it, whenever it attached. -/
namespace Nefor.Core
open Ncp (PluginName LogEntry)

/-- The log entries a run has dispatched. -/
def Act.entries : Act → List LogEntry
  | .invokeDispatch entries _ => entries
  | _ => []

def entries (acts : List Act) : List LogEntry := acts.flatMap Act.entries

/-- The entries that decode, of the log. -/
def emissions (w : World) (log : List LogEntry) : List Emission :=
  log.filterMap fun entry => match entry with
    | .step target payload => emission w target payload
    | .engine _ => none

namespace Emission

/-- Broadcast, or addressed to the peer. -/
def visible (peer : PluginName) (e : Emission) : Bool := e.target = none ∨ e.target = some peer

/-- Visible, and not the report of a failed delivery. -/
def due (peer : PluginName) (e : Emission) : Bool :=
  e.visible peer ∧ e.kind ≠ some "ncp.delivery_failed"

theorem due_visible {peer : PluginName} {e : Emission} (h : e.due peer = true) :
    e.visible peer = true := by
  simp only [due,decide_eq_true_eq] at h
  exact h.1

end Emission

/-- A delivery without its stamp. -/
def unstamped (d : Delivery) : Emission := ⟨d.2,d.1.sender,d.1.ts,d.1.body⟩

@[simp] theorem unstamped_stamp (e : Emission) (replay : Bool) : unstamped (e.stamp replay) = e := rfl

/-- The delivery is broadcast, or addressed to the peer. -/
def shown (peer : PluginName) (d : Delivery) : Bool := (unstamped d).visible peer

/-- All that the callback of a peer was handed. -/
def handed (peer : PluginName) (effects : List Effect) : List Delivery :=
  effects.flatMap fun effect => match effect with
    | .toPlugin target batch => if target = peer then batch else []
    | _ => []

/-- What the peer was handed of the entries that are for it. -/
def received (peer : PluginName) (effects : List Effect) : List Delivery :=
  (handed peer effects).filter (shown peer)

/-- The entries with the window of the log. -/
def stampedLog (w : World) (opened : Bool) (log : List LogEntry) : List (Emission × Bool) :=
  Window.stamped Emission.mark opened (emissions w log)

/-- What the log holds for a peer, stamped with the window of the log. -/
def readings (peer : PluginName) (stamped : List (Emission × Bool)) : List Delivery :=
  (stamped.filter fun e => e.1.due peer).map fun e => e.1.stamp e.2

/-- All that the log holds for a peer, the reports of failed deliveries with it. -/
def addressed (peer : PluginName) (stamped : List (Emission × Bool)) : List Delivery :=
  (stamped.filter fun e => e.1.visible peer).map fun e => e.1.stamp e.2

variable {w : World} {peer : PluginName}

@[simp] theorem handed_nil : handed peer [] = [] := rfl

theorem handed_append (a b : List Effect) : handed peer (a ++ b) = handed peer a ++ handed peer b :=
  List.flatMap_append

theorem handed_cons (effect : Effect) (rest : List Effect) :
    handed peer (effect :: rest) = handed peer [effect] ++ handed peer rest :=
  handed_append [effect] rest

@[simp] theorem handed_deliver (target : PluginName) (notice : Notice) :
    handed peer [.deliver target notice] = [] := rfl

theorem handed_eq_nil {effects : List Effect} (h : ∀ e ∈ effects, ∀ target batch, e ≠ .toPlugin target batch) :
    handed peer effects = [] := by
  apply List.flatMap_eq_nil_iff.mpr
  intro e he
  cases e with
  | toPlugin target batch => exact absurd rfl (h _ he target batch)
  | _ => rfl

theorem received_append (a b : List Effect) :
    received peer (a ++ b) = received peer a ++ received peer b := by
  rw [received,handed_append,List.filter_append]
  rfl

theorem entries_snoc (acts : List Act) (act : Act) :
    entries (acts ++ [act]) = entries acts ++ act.entries := by
  simp [entries]

theorem emissions_append (a b : List LogEntry) :
    emissions w (a ++ b) = emissions w a ++ emissions w b := List.filterMap_append

theorem emission_target {t : Option PluginName} {payload : String}
    {e : Emission} (h : emission w t payload = some e) : e.target = t := by
  unfold emission at h
  split at h
  · cases h
  · split at h
    · split at h
      · cases h
      · split at h
        · cases h
          rfl
        · cases h
    · cases h

namespace Framework
variable {s : Framework}

/-! The callbacks. -/

theorem handed_callToPluginForBatch (target : PluginName) (batch : List Delivery) :
    handed peer (s.callToPluginForBatch target batch) =
      if target = peer then batch.filter routed else [] := by
  unfold callToPluginForBatch
  have hwrites : ∀ rest : List Delivery,
      handed peer (rest.filterMap (s.defaultDeliverFor target)) = [] := by
    intro rest
    apply handed_eq_nil
    intro e he target' batch'
    obtain ⟨d,-,hd⟩ := List.mem_filterMap.mp he
    unfold defaultDeliverFor at hd
    grind
  dsimp only
  split
  · rename_i hnil
    rw [hnil,handed_nil,ite_self]
  · rw [handed_cons]
    have hrest : handed peer (if (s.pluginTransforms target).any (·.toPlugin) then []
        else (batch.filter routed).filterMap (s.defaultDeliverFor target)) = [] := by
      split
      · rfl
      · exact hwrites _
    rw [hrest,List.append_nil]
    simp [handed]

/-- Of the peers called one after the other, each is handed the batch once. -/
theorem handed_fan {names : List PluginName} (hn : names.Nodup) (batch : List Delivery) :
    handed peer (names.flatMap fun name => s.callToPluginForBatch name batch) =
      if peer ∈ names then batch.filter routed else [] := by
  induction names with
  | nil => rfl
  | cons name names ih =>
    obtain ⟨hname,hrest⟩ := List.nodup_cons.mp hn
    rw [List.flatMap_cons,handed_append,handed_callToPluginForBatch,ih hrest]
    by_cases h : name = peer
    · subst h
      simp [hname]
    · simp [h,Ne.symm h]

/-! The entries that reach a peer. -/

theorem prior_eq (opened : Bool) (log : List LogEntry) : prior w peer opened log =
    (Window.stamped Emission.mark opened ((emissions w log).filter (·.visible peer))).map
      fun e => e.1.stamp e.2 := by
  induction log generalizing opened with
  | nil => rfl
  | cons entry log ih =>
    cases entry with
    | engine fact => exact ih opened
    | step target payload =>
      unfold prior
      cases he : emission w target payload with
      | none =>
        have hnone : emissions w (.step target payload :: log) = emissions w log := by
          simp [emissions,he]
        rw [hnone]
        split
        · exact ih opened
        · exact ih opened
      | some e =>
        have hsome : emissions w (.step target payload :: log) = e :: emissions w log := by
          simp [emissions,he]
        have htarget : e.target = target := emission_target he
        rw [hsome]
        by_cases hv : target = none ∨ target = some peer
        · have hvis : e.visible peer = true := by simpa [Emission.visible,htarget] using hv
          rw [if_pos hv,List.filter_cons_of_pos hvis,Window.stamped_cons,List.map_cons]
          simp only [ih]
        · have hvis : ¬ e.visible peer = true := by simpa [Emission.visible,htarget] using hv
          rw [if_neg hv,List.filter_cons_of_neg hvis]
          exact ih opened

theorem routed_stamp (e : Emission) (replay : Bool) :
    routed (e.stamp replay) = decide (e.kind ≠ some "ncp.delivery_failed") := rfl

/-- The filters of the callback and of the reader of its batches make one. -/
theorem filter_shown_routed (stamped : List (Emission × Bool)) :
    (((stamped.map fun e => e.1.stamp e.2).filter routed).filter (shown peer)) =
      readings peer stamped := by
  rw [List.filter_filter,List.filter_map,readings]
  congr 1
  apply List.filter_congr
  intro e _
  simp [shown,Emission.due,routed_stamp]

/-! The lines of the plugins: at most, a peer is replayed the log when it attaches. -/

/-- What lines do to a peer: the log and its window stay, and the peer is replayed the log when it
becomes ready. -/
structure Attaches (w : World) (peer : PluginName) (log : List LogEntry) (s s' : Framework)
    (effects : List Effect) : Prop where
  currentLog : s'.currentLog = s.currentLog
  dispatchHwm : s'.dispatchHwm = s.dispatchHwm
  replayWindow : s'.replayWindow = s.replayWindow
  ready : peer ∈ s.readyPlugins → peer ∈ s'.readyPlugins
  hands : handed peer effects = if peer ∈ s'.readyPlugins ∧ peer ∉ s.readyPlugins then
    (prior w peer false log).filter routed else []

variable {log : List LogEntry} {s' t : Framework} {a b : List Effect}

/-- Nothing happens to the state, and nobody is handed a batch. -/
theorem Attaches.idle (h : handed peer a = []) : Attaches w peer log s s a where
  currentLog := rfl
  dispatchHwm := rfl
  replayWindow := rfl
  ready hr := hr
  hands := by simp [h]

theorem Attaches.trans (h : Attaches w peer log s t a) (k : Attaches w peer log t s' b) :
    Attaches w peer log s s' (a ++ b) where
  currentLog := k.currentLog.trans h.currentLog
  dispatchHwm := k.dispatchHwm.trans h.dispatchHwm
  replayWindow := k.replayWindow.trans h.replayWindow
  ready hr := k.ready (h.ready hr)
  hands := by
    rw [handed_append,h.hands,k.hands]
    have hst := h.ready
    have htu := k.ready
    by_cases hs : peer ∈ s.readyPlugins
    · simp [hs,hst hs]
    · by_cases ht : peer ∈ t.readyPlugins
      · simp [hs,ht,htu ht]
      · simp [hs,ht]

/-- What comes before in the effects and hands the peer nothing. -/
theorem Attaches.after (h : Attaches w peer log s s' b) (ha : handed peer a = []) :
    Attaches w peer log s s' (a ++ b) := (Attaches.idle ha).trans h

theorem handleReady_attaches (origin : PluginName) (body : Json) :
    Attaches w peer log s (s.handleReady w origin body log).1
      (s.handleReady w origin body log).2 := by
  have hpopups : ∀ popups : List Notice,
      handed peer (popups.map (.deliver "nefor-tui")) = [] := by
    intro popups
    apply handed_eq_nil
    intro e he target batch
    obtain ⟨popup,-,rfl⟩ := List.mem_map.mp he
    intro h
    cases h
  unfold handleReady
  split
  · exact .idle rfl
  · split
    · exact .idle rfl
    · split
      · exact .idle rfl
      · rename_i horigin
        have hhanded : ∀ t : Framework, t = { s with readyPlugins := s.readyPlugins ++ [origin] } →
            handed peer (deliverReadyOk origin :: t.replayPriorEvents w origin log) =
              if peer ∈ s.readyPlugins ++ [origin] ∧ peer ∉ s.readyPlugins then
                (prior w peer false log).filter routed else [] := by
          intro t _
          rw [handed_cons,deliverReadyOk,handed_deliver,List.nil_append,replayPriorEvents,
            handed_callToPluginForBatch]
          by_cases hp : origin = peer
          · subst hp
            simp [horigin]
          · simp [hp,Ne.symm hp]
        dsimp only
        split
        · refine ⟨rfl,rfl,rfl,fun h => List.mem_append_left _ h,?_⟩
          rw [handed_append,hpopups,List.append_nil]
          exact hhanded _ rfl
        · exact ⟨rfl,rfl,rfl,fun h => List.mem_append_left _ h,hhanded _ rfl⟩

theorem handleSystem_attaches (origin : PluginName) (body : Option Json) :
    Attaches w peer log s (s.handleSystem w origin body log).1
      (s.handleSystem w origin body log).2 := by
  unfold handleSystem
  split
  · exact .idle rfl
  · split
    · exact handleReady_attaches origin _
    · exact .idle rfl

theorem handed_deliverEventBatchFrom (source : PluginName) (envs : List Inbound) :
    handed peer (deliverEventBatchFrom source envs) = [] := by
  unfold deliverEventBatchFrom
  split
  · rfl
  · rfl

theorem classify_reply {source : PluginName} {payload : String} {reply : Effect}
    (h : s.classifyInboundPayload w source payload = .drop reply) : handed peer [reply] = [] := by
  unfold classifyInboundPayload deliverError at h
  grind [handed_deliver]

theorem readLines_attaches (source : PluginName) (envs : List Inbound) (payloads : List String) :
    Attaches w peer log s (readLines w source log s envs payloads).1
      (readLines w source log s envs payloads).2 := by
  induction payloads generalizing s envs with
  | nil => exact .idle (handed_deliverEventBatchFrom source envs)
  | cons raw rest ih =>
    unfold readLines
    split
    · rename_i reply hc
      exact Attaches.after (a := [reply]) (ih envs) (classify_reply hc)
    · exact ih _
    · rename_i body _
      dsimp only
      rw [List.append_assoc]
      exact ((handleSystem_attaches source body).trans (ih _)).after
        (handed_deliverEventBatchFrom source envs)

variable (peer) in
theorem invokeFromPluginBatch_attaches (source : PluginName) (payloads : List String) :
    Attaches w peer s.currentLog s (s.invokeFromPluginBatch w source payloads).1
      (s.invokeFromPluginBatch w source payloads).2 := by
  unfold invokeFromPluginBatch
  split
  · exact .idle rfl
  · exact readLines_attaches source [] payloads

/-! Dispatch: each ready peer is handed the new entries. -/

variable (peer) in
theorem handleEngineEnvelope_spec (plugins : List PluginName) (fact : Ncp.Fact) :
    ∃ popups, (s.handleEngineEnvelope plugins fact).1 = { s with pendingChatPopups := popups } ∧
      handed peer (s.handleEngineEnvelope plugins fact).2 = [] := by
  unfold handleEngineEnvelope
  cases fact with
  | processTerminated plugin outcome =>
    dsimp only
    split
    · split
      · exact ⟨_,rfl,rfl⟩
      · exact ⟨_,rfl,rfl⟩
    · exact ⟨_,rfl,rfl⟩
  | _ => exact ⟨_,rfl,rfl⟩

/-- What the walk over entries makes of the state and the batch. -/
structure Walked (w : World) (peer : PluginName) (before after : Walk) (log : List LogEntry) :
    Prop where
  ncp : ∃ popups, after.ncp = { before.ncp with
    pendingChatPopups := popups
    replayWindow := Window.final Emission.mark before.ncp.replayWindow (emissions w log) }
  batch : after.batch = before.batch ++
    (stampedLog w before.ncp.replayWindow log).map fun e => e.1.stamp e.2
  effects : handed peer after.effects = handed peer before.effects

variable (peer) in
theorem visit_walked (plugins : List PluginName) (walk : Walk) (entry : LogEntry) :
    Walked w peer walk (visit w plugins walk entry) [entry] := by
  cases entry with
  | engine fact =>
    obtain ⟨popups,hncp,heffects⟩ := handleEngineEnvelope_spec peer (s := walk.ncp) plugins fact
    refine ⟨⟨popups,hncp⟩,(List.append_nil _).symm,?_⟩
    simp only [visit]
    rw [handed_append,heffects,List.append_nil]
  | step target payload =>
    cases he : emission w target payload with
    | none =>
      have hlog : emissions w [.step target payload] = [] := by simp [emissions,he]
      have hvisit : visit w plugins walk (.step target payload) = walk := by simp [visit,he]
      rw [hvisit]
      exact ⟨⟨walk.ncp.pendingChatPopups,by rw [hlog]; rfl⟩,by simp [stampedLog,hlog],rfl⟩
    | some e =>
      have hlog : emissions w [.step target payload] = [e] := by simp [emissions,he]
      have hvisit : visit w plugins walk (.step target payload) = { walk with
          ncp := { walk.ncp with replayWindow := e.mark.getD walk.ncp.replayWindow }
          batch := walk.batch ++ [e.stamp (e.mark.getD walk.ncp.replayWindow)] } := by
        simp [visit,he]
      rw [hvisit]
      exact ⟨⟨walk.ncp.pendingChatPopups,by rw [hlog]; rfl⟩,by simp [stampedLog,hlog],rfl⟩

variable (peer) in
theorem foldl_walked (plugins : List PluginName) (log : List LogEntry) (walk : Walk) :
    Walked w peer walk (log.foldl (visit w plugins) walk) log := by
  induction log using List.reverseRecOn with
  | nil => exact ⟨⟨_,rfl⟩,(List.append_nil _).symm,rfl⟩
  | append_singleton log entry ih =>
    rw [List.foldl_append]
    have hlast := visit_walked (w := w) peer plugins (log.foldl (visit w plugins) walk) entry
    obtain ⟨popups,hncp⟩ := ih.ncp
    obtain ⟨popups',hncp'⟩ := hlast.ncp
    have hwindow : (log.foldl (visit w plugins) walk).ncp.replayWindow =
        Window.final Emission.mark walk.ncp.replayWindow (emissions w log) := by rw [hncp]
    refine ⟨⟨popups',?_⟩,?_,hlast.effects.trans ih.effects⟩
    · rw [List.foldl_cons,List.foldl_nil,hncp',hwindow,hncp,emissions_append,Window.final_append]
    · rw [List.foldl_cons,List.foldl_nil,hlast.batch,ih.batch,hwindow,stampedLog,stampedLog,stampedLog,
        emissions_append,Window.stamped_append,List.map_append,List.append_assoc]

variable (peer) in
/-- A dispatch of new entries: the state after it, and what the peer is handed. -/
theorem invokeDispatch_spec (hs : s.dispatchHwm = s.currentLog.length) (plugins : Connected)
    (entries : List LogEntry) :
    (s.invokeDispatch w plugins.names entries).1.currentLog = s.currentLog ++ entries ∧
    (s.invokeDispatch w plugins.names entries).1.dispatchHwm = (s.currentLog ++ entries).length ∧
    (s.invokeDispatch w plugins.names entries).1.readyPlugins = s.readyPlugins ∧
    (s.invokeDispatch w plugins.names entries).1.replayWindow =
      Window.final Emission.mark s.replayWindow (emissions w entries) ∧
    handed peer (s.invokeDispatch w plugins.names entries).2 =
      if peer ∈ plugins.names ∧ peer ∈ s.readyPlugins then
        ((stampedLog w s.replayWindow entries).map fun e => e.1.stamp e.2).filter routed else [] := by
  unfold invokeDispatch dispatch
  cases entries with
  | nil => simp [hs,emissions,stampedLog]
  | cons entry rest =>
    have hnew : ¬ (s.currentLog ++ entry :: rest).length ≤ s.dispatchHwm := by simp [hs]
    have htail : (s.currentLog ++ entry :: rest).drop s.dispatchHwm = entry :: rest := by
      rw [hs,List.drop_left]
    dsimp only
    rw [if_neg hnew,walk,htail]
    have hwalked := foldl_walked (w := w) peer plugins.names (entry :: rest)
      ⟨{ s with currentLog := s.currentLog ++ entry :: rest },[],[]⟩
    obtain ⟨popups,hncp⟩ := hwalked.ncp
    refine ⟨by rw [hncp],rfl,by rw [hncp],by rw [hncp],?_⟩
    dsimp only
    rw [handed_append,hwalked.effects,handed_nil,List.nil_append,
      handed_fan (plugins.nodup.filter _),hwalked.batch]
    simp

end Framework

/-! Runs. -/

/-- The peer is among the open connections when the log is dispatched. -/
def Act.connects (peer : PluginName) : Act → Prop
  | .invokeDispatch _ plugins => peer ∈ plugins.names
  | _ => True

/-- A peer that is ready stays connected. -/
def StaysConnected (w : World) (peer : PluginName) (acts : List Act) : Prop :=
  Throughout (fun before act =>
    peer ∈ (Framework.run w before).1.readyPlugins → act.connects peer) acts

/-- When the log is dispatched, the flag is as the markers dispatched so far have left it. -/
def Act.windowKept (w : World) (s : Framework) : Act → Prop
  | .invokeDispatch _ _ =>
    s.replayWindow = Window.final Emission.mark false (emissions w s.currentLog)
  | _ => True

def WindowKept (w : World) (acts : List Act) : Prop :=
  Throughout (fun before act => act.windowKept w (Framework.run w before).1) acts

/-- What is due to the peer, of the entries dispatched before it attached, lies in the same window
by the markers the peer sees as by all of them. -/
def MarkersSeen (w : World) (peer : PluginName) (acts : List Act) : Prop :=
  Throughout (fun before act => peer ∉ (Framework.run w before).1.readyPlugins →
    peer ∈ (Framework.run w (before ++ [act])).1.readyPlugins →
    Throughout (Window.SameAt Emission.mark false (·.visible peer) (·.due peer))
      (emissions w (entries before))) acts

/-- A first message that makes a plugin ready. -/
def ValidReady (w : World) (payload : String) : Prop :=
  ∃ decoded, w.decode payload = .ok decoded ∧ str decoded "type" = some "system" ∧
    (decoded.get "body").bind (str · "kind") = some "ready" ∧
    (decoded.get "body").bind (str · "protocol_version") = some ncpVersion

namespace Framework
variable {acts : List Act} {act : Act} {s : Framework}

theorem run_snoc : run w (acts ++ [act]) =
    ((step w (run w acts).1 act).1,(run w acts).2 ++ (step w (run w acts).1 act).2) := by
  simp [run]

theorem run_log : (run w acts).1.currentLog = entries acts ∧
    (run w acts).1.dispatchHwm = (entries acts).length := by
  induction acts using List.reverseRecOn with
  | nil => exact ⟨rfl,rfl⟩
  | append_singleton acts act ih =>
    obtain ⟨hlog,hhwm⟩ := ih
    rw [run_snoc,entries_snoc]
    cases act with
    | spawn name transform => simpa [step,Act.entries] using ⟨hlog,hhwm⟩
    | setReplayWindow flag => simpa [step,Act.entries] using ⟨hlog,hhwm⟩
    | invokeFromPluginBatch source payloads =>
      have hlines := invokeFromPluginBatch_attaches (w := w) source
        (s := (run w acts).1) source payloads
      simp only [step,Act.entries,List.append_nil]
      exact ⟨hlines.currentLog.trans hlog,hlines.dispatchHwm.trans hhwm⟩
    | invokeDispatch new plugins =>
      obtain ⟨h1,h2,-⟩ := invokeDispatch_spec (w := w) "" (by rw [hlog,hhwm]) plugins new
      simp only [step,Act.entries]
      rw [h1,h2,hlog]
      exact ⟨rfl,rfl⟩

theorem run_hwm : (run w acts).1.dispatchHwm = (run w acts).1.currentLog.length := by
  rw [run_log.1,run_log.2]

/-- What an act hands a peer of what is for it, by the state it starts from. -/
def Hands (w : World) (peer : PluginName) (s s' : Framework) (new : List LogEntry)
    (effects : List Effect) : Prop :=
  received peer effects =
    if peer ∈ s.readyPlugins then readings peer (stampedLog w s.replayWindow new)
    else if peer ∈ s'.readyPlugins then
      (Window.stamped Emission.mark false ((emissions w s.currentLog).filter (·.visible peer))).filter
        (fun e => e.1.due peer) |>.map fun e => e.1.stamp e.2
    else []

theorem step_hands (hs : s.dispatchHwm = s.currentLog.length)
    (hc : peer ∈ s.readyPlugins → act.connects peer) :
    Hands w peer s (step w s act).1 act.entries (step w s act).2 ∧
      (peer ∈ s.readyPlugins → peer ∈ (step w s act).1.readyPlugins) := by
  cases act with
  | spawn name transform =>
    refine ⟨?_,id⟩
    by_cases hp : peer ∈ s.readyPlugins
    · simp [Hands,step,received,Act.entries,stampedLog,readings,emissions,hp]
    · simp [Hands,step,received,hp]
  | setReplayWindow flag =>
    refine ⟨?_,id⟩
    by_cases hp : peer ∈ s.readyPlugins
    · simp [Hands,step,received,Act.entries,stampedLog,readings,emissions,hp]
    · simp [Hands,step,received,hp]
  | invokeFromPluginBatch source payloads =>
    have hlines := invokeFromPluginBatch_attaches (w := w) peer (s := s) source payloads
    refine ⟨?_,hlines.ready⟩
    simp only [step,Hands,received]
    rw [hlines.hands]
    by_cases hp : peer ∈ s.readyPlugins
    · simp [hp,Act.entries,stampedLog,readings,emissions]
    · by_cases hp' : peer ∈ (s.invokeFromPluginBatch w source payloads).1.readyPlugins
      · simp only [hp,hp',not_false_eq_true,and_true,if_true,if_false]
        rw [prior_eq,filter_shown_routed,readings]
      · simp [hp,hp']
  | invokeDispatch new plugins =>
    obtain ⟨-,-,hready,-,hhanded⟩ := invokeDispatch_spec (w := w) peer hs plugins new
    simp only [step,Hands,received,hready,Act.entries]
    refine ⟨?_,id⟩
    rw [hhanded]
    by_cases hp : peer ∈ s.readyPlugins
    · rw [if_pos ⟨hc hp,hp⟩,if_pos hp,filter_shown_routed]
    · simp [hp]

variable (peer) in
/-- Without their stamps, the readings are the entries that are due. -/
theorem readings_unstamped (stamped : List (Emission × Bool)) :
    (readings peer stamped).map unstamped = (stamped.map Prod.fst).filter (·.due peer) := by
  rw [readings,List.map_map,List.filter_map]
  exact List.map_congr_left fun e _ => rfl

theorem filter_due_visible (es : List Emission) :
    (es.filter (·.visible peer)).filter (·.due peer) = es.filter (·.due peer) := by
  rw [List.filter_filter]
  apply List.filter_congr
  intro e _
  cases hd : e.due peer with
  | false => simp
  | true => simp [Emission.due_visible hd]

theorem stampedLog_append (opened : Bool) (a b : List LogEntry) : stampedLog w opened (a ++ b) =
    stampedLog w opened a ++ stampedLog w (Window.final Emission.mark opened (emissions w a)) b := by
  rw [stampedLog,emissions_append,Window.stamped_append]
  rfl

theorem readings_append (a b : List (Emission × Bool)) :
    readings peer (a ++ b) = readings peer a ++ readings peer b := by
  simp [readings]

theorem received_run_snoc : received peer (run w (acts ++ [act])).2 =
    received peer (run w acts).2 ++ received peer (step w (run w acts).1 act).2 := by
  rw [run_snoc,received_append]

/-- A peer that has not attached is handed nothing, and one that has is handed the entries that
are due, each once and in the order of the log. -/
theorem run_received (hc : StaysConnected w peer acts) :
    (received peer (run w acts).2).map unstamped =
      if peer ∈ (run w acts).1.readyPlugins then (emissions w (entries acts)).filter (·.due peer)
      else [] := by
  induction acts using List.reverseRecOn with
  | nil => rfl
  | append_singleton acts act ih =>
    obtain ⟨hc,hact⟩ := Throughout.snoc.mp hc
    obtain ⟨hhands,hmono⟩ := step_hands (w := w) run_hwm hact
    have hstep : (run w (acts ++ [act])).1 = (step w (run w acts).1 act).1 := by rw [run_snoc]
    rw [received_run_snoc,List.map_append,ih hc,hhands,hstep,entries_snoc,emissions_append,
      List.filter_append]
    by_cases hp : peer ∈ (run w acts).1.readyPlugins
    · rw [if_pos hp,if_pos hp,if_pos (hmono hp),readings_unstamped,stampedLog,Window.stamped_map_fst]
    · rw [if_neg hp,if_neg hp,List.nil_append]
      by_cases hp' : peer ∈ (step w (run w acts).1 act).1.readyPlugins
      · have hnone : emissions w act.entries = [] := by
          cases act with
          | invokeDispatch new plugins =>
            obtain ⟨-,-,hready,-⟩ := invokeDispatch_spec peer (@run_hwm w acts) plugins new
            simp only [step] at hp'
            rw [hready] at hp'
            exact absurd hp' hp
          | _ => rfl
        have hreadings := readings_unstamped peer (Window.stamped Emission.mark false
          ((emissions w (run w acts).1.currentLog).filter (·.visible peer)))
        rw [Window.stamped_map_fst,filter_due_visible,run_log.1] at hreadings
        rw [if_pos hp',if_pos hp',hnone,run_log.1]
        simpa [readings] using hreadings
      · rw [if_neg hp',if_neg hp']
        rfl

/-- The stamps are those of the whole log. -/
theorem run_stamps (hc : StaysConnected w peer acts) (hw : WindowKept w acts)
    (hm : MarkersSeen w peer acts) (hp : peer ∈ (run w acts).1.readyPlugins) :
    received peer (run w acts).2 = readings peer (stampedLog w false (entries acts)) := by
  induction acts using List.reverseRecOn with
  | nil => simp [run,initial] at hp
  | append_singleton acts act ih =>
    have hnothing := run_received (Throughout.snoc.mp hc).1
    obtain ⟨hc,hact⟩ := Throughout.snoc.mp hc
    obtain ⟨hw,hwindow⟩ := Throughout.snoc.mp hw
    obtain ⟨hm,hseen⟩ := Throughout.snoc.mp hm
    obtain ⟨hhands,hmono⟩ := step_hands (w := w) run_hwm hact
    rw [received_run_snoc,hhands,entries_snoc,stampedLog_append,readings_append]
    by_cases hbefore : peer ∈ (run w acts).1.readyPlugins
    · rw [if_pos hbefore,ih hc hw hm hbefore]
      cases act with
      | invokeDispatch new plugins =>
        have hflag : (run w acts).1.replayWindow =
          Window.final Emission.mark false (emissions w (run w acts).1.currentLog) := hwindow
        rw [hflag,run_log.1]
      | _ => rfl
    · have hnone : received peer (run w acts).2 = [] := by
        rw [if_neg hbefore] at hnothing
        exact List.map_eq_nil_iff.mp hnothing
      have hafter : peer ∈ (step w (run w acts).1 act).1.readyPlugins := by
        rw [run_snoc] at hp
        exact hp
      have hsame := Window.filter_stamped_iff (fun _ => Emission.due_visible) |>.mpr (hseen hbefore hp)
      have hold : stampedLog w (Window.final Emission.mark false (emissions w (entries acts)))
          act.entries = [] := by
        cases act with
        | invokeDispatch new plugins =>
          obtain ⟨-,-,hready,-⟩ := invokeDispatch_spec peer (@run_hwm w acts) plugins new
          simp only [step] at hafter
          rw [hready] at hafter
          exact absurd hafter hbefore
        | _ => rfl
      rw [hnone,if_neg hbefore,if_pos hafter,hold,run_log.1,hsame]
      simp [readings,stampedLog]

/-! Lines that make no plugin ready. -/

theorem handleSystem_idle {source : PluginName} {body : Option Json} {log : List LogEntry}
    (h : source ∈ s.readyPlugins ∨ body.bind (str · "kind") ≠ some "ready" ∨
      body.bind (str · "protocol_version") ≠ some ncpVersion) :
    (s.handleSystem w source body log).1 = s := by
  unfold handleSystem
  split
  · rfl
  · rename_i kind hkind
    split
    · rename_i hready
      subst hready
      cases body with
      | none => cases hkind
      | some body =>
        unfold handleReady
        split
        · rfl
        · rename_i version hversion
          split
          · rfl
          · split
            · rfl
            · rename_i hv hsource
              have hver : version = ncpVersion := by simpa using hv
              subst hver
              obtain h | h | h := h
              · exact absurd h hsource
              · exact absurd hkind h
              · exact absurd hversion h
    · rfl

theorem readLines_idle {source : PluginName} {log : List LogEntry} {payloads : List String}
    (h : source ∈ s.readyPlugins ∨ ∀ payload ∈ payloads, ¬ ValidReady w payload)
    (envs : List Inbound) : (readLines w source log s envs payloads).1 = s := by
  induction payloads generalizing envs with
  | nil => rfl
  | cons raw rest ih =>
    have hrest : source ∈ s.readyPlugins ∨ ∀ payload ∈ rest, ¬ ValidReady w payload :=
      h.imp_right fun h payload hp => h payload (List.mem_cons_of_mem _ hp)
    unfold readLines
    split
    · exact ih hrest envs
    · exact ih hrest _
    · rename_i body hc
      have hsystem : (s.handleSystem w source body log).1 = s := by
        apply handleSystem_idle
        obtain h | h := h
        · exact .inl h
        · refine .inr (not_and_or.mp fun hready => h raw List.mem_cons_self ?_)
          unfold classifyInboundPayload at hc
          split at hc
          · cases hc
          · rename_i decoded hd
            split at hc
            · cases hc
            · split at hc
              · rename_i htype
                cases hc
                exact ⟨decoded,hd,htype,hready⟩
              · grind
      dsimp only
      rw [hsystem]
      exact ih hrest []

variable (peer) in
theorem invokeFromPluginBatch_idle {source : PluginName} {payloads : List String}
    (h : source ∈ s.readyPlugins ∨ ∀ payload ∈ payloads, ¬ ValidReady w payload) :
    (s.invokeFromPluginBatch w source payloads).1 = s ∧
      handed peer (s.invokeFromPluginBatch w source payloads).2 = [] := by
  have hidle : (s.invokeFromPluginBatch w source payloads).1 = s := by
    unfold invokeFromPluginBatch
    split
    · rfl
    · exact readLines_idle h []
  refine ⟨hidle,?_⟩
  rw [(invokeFromPluginBatch_attaches peer source payloads).hands,hidle,if_neg fun hp => hp.2 hp.1]

/-- At every moment of a run, a peer that has attached has been handed exactly the entries of the
log that decode and are for it, but the reports of failed deliveries, each once and in order; and
stamped as the whole log has them, where the markers addressed to others make no difference to what
was replayed. Lines that make no plugin ready change nothing. -/
theorem run_late_reads (w : World) (peer : PluginName) (acts : List Act)
    (hc : StaysConnected w peer acts) (hp : peer ∈ (run w acts).1.readyPlugins) :
    (received peer (run w acts).2).map unstamped =
        (emissions w (entries acts)).filter (·.due peer) ∧
      (WindowKept w acts → MarkersSeen w peer acts →
        received peer (run w acts).2 = readings peer (stampedLog w false (entries acts))) ∧
      ∀ source payloads, source ∈ (run w acts).1.readyPlugins ∨
          (∀ payload ∈ payloads, ¬ ValidReady w payload) →
        (step w (run w acts).1 (.invokeFromPluginBatch source payloads)).1 = (run w acts).1 ∧
        ∀ reader, handed reader (step w (run w acts).1
          (.invokeFromPluginBatch source payloads)).2 = [] := by
  refine ⟨?_,fun hw hm => run_stamps hc hw hm hp,?_⟩
  · rw [run_received hc,if_pos hp]
  · intro source payloads h
    exact ⟨(invokeFromPluginBatch_idle peer h).1,fun _ => (invokeFromPluginBatch_idle _ h).2⟩

/-- Where every marker is broadcast, none is missed. -/
theorem markersSeen_of_broadcast
    (h : ∀ e ∈ emissions w (entries acts), e.mark ≠ none → e.target = none) :
    MarkersSeen w peer acts := by
  rintro before act after rfl - - done e rest hlog -
  apply Window.final_filter
  intro x hx hv
  have hmem : x ∈ emissions w (entries (before ++ act :: after)) := by
    have hprefix : x ∈ emissions w (entries before) := by
      rw [hlog]
      simp only [List.mem_append,List.mem_singleton] at hx
      simp only [List.mem_append,List.mem_cons]
      tauto
    simp only [entries,List.flatMap_append,emissions_append]
    exact List.mem_append_left _ hprefix
  by_contra hmark
  have htarget := h x hmem hmark
  simp [Emission.visible,htarget] at hv

end Framework

/-! Two runs. -/

variable {acts : List Act}

instance : ∀ act : Act, Decidable (act.connects peer)
  | .invokeDispatch _ plugins => inferInstanceAs (Decidable (peer ∈ plugins.names))
  | .spawn .. => isTrue trivial
  | .invokeFromPluginBatch .. => isTrue trivial
  | .setReplayWindow _ => isTrue trivial

instance {s : Framework} : ∀ act : Act, Decidable (act.windowKept w s)
  | .invokeDispatch .. => inferInstanceAs (Decidable (s.replayWindow = _))
  | .spawn .. => isTrue trivial
  | .invokeFromPluginBatch .. => isTrue trivial
  | .setReplayWindow _ => isTrue trivial

instance : Decidable (StaysConnected w peer acts) := inferInstanceAs (Decidable (Throughout _ _))

instance : Decidable (WindowKept w acts) := inferInstanceAs (Decidable (Throughout _ _))

/-- A decoder of four lines. -/
def sampleWorld : World where
  decode payload :=
    let event (kind : String) := Except.ok (.object [("body",.object [("kind",.string kind)]),
      ("type",.string "event")])
    if payload = "ready" then
      .ok (.object [("body",.object [("kind",.string "ready"),("protocol_version",.string "0.1")]),
        ("type",.string "system")])
    else if payload = "start" then event "sessions.replay.start"
    else if payload = "note" then event "note"
    else if payload = "failed" then event "ncp.delivery_failed"
    else .error "expected value"

/-- The log is dispatched before the peer attaches. -/
def lateRun (log : List LogEntry) : List Act :=
  [.invokeDispatch log ⟨["late","other"],by decide⟩,.invokeFromPluginBatch "late" ["ready"]]

namespace Framework

/-- The report of a failed delivery is in the log, but handed to nobody; and a peer that attaches
late does not see the window that a marker addressed to another peer has opened. -/
theorem run_late_reads_fails :
    (StaysConnected sampleWorld "late" (lateRun [.step none "failed"]) ∧
      WindowKept sampleWorld (lateRun [.step none "failed"]) ∧
      "late" ∈ (run sampleWorld (lateRun [.step none "failed"])).1.readyPlugins ∧
      received "late" (run sampleWorld (lateRun [.step none "failed"])).2 ≠
        addressed "late" (stampedLog sampleWorld false [.step none "failed"])) ∧
    (StaysConnected sampleWorld "late" (lateRun [.step (some "other") "start",.step none "note"]) ∧
      WindowKept sampleWorld (lateRun [.step (some "other") "start",.step none "note"]) ∧
      received "late"
          (run sampleWorld (lateRun [.step (some "other") "start",.step none "note"])).2 ≠
        addressed "late" (stampedLog sampleWorld false [.step (some "other") "start",.step none "note"])) := by
  decide

/-- A window that is open to all. -/
theorem run_late_reads_window :
    received "late" (run sampleWorld (lateRun [.step none "start",.step none "note"])).2 =
      readings "late" (stampedLog sampleWorld false [.step none "start",.step none "note"]) :=
  (run_late_reads sampleWorld "late" _ (by decide) (by decide)).2.1
    (by decide) (markersSeen_of_broadcast (by decide))

end Framework
end Nefor.Core
