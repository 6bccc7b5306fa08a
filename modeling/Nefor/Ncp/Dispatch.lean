import Nefor.Ncp.Start

/-! The entries of the bus are passed to Lua once and in order, and none is left behind when the
loop waits or closes a connection, as long as the chains of reactions are not too deep. -/
namespace Nefor.Ncp
open Broker

/-! What is read off a history. -/

def Event.dispatched? : Event → Option (List LogEntry)
  | .entered (.dispatch entries) _ _ => some entries
  | _ => none

def Event.subscribed? : Event → Option (List LogEntry)
  | .entered (.subscriptions entries) _ _ => some entries
  | _ => none

/-- The slices of the log that were passed to the dispatch hook. -/
def dispatched (h : History) : List (List LogEntry) := h.filterMap Event.dispatched?

/-- The slices of the log that were passed to the subscriptions. -/
def subscribed (h : History) : List (List LogEntry) := h.filterMap Event.subscribed?

@[simp] theorem dispatched_append (h k : History) :
    dispatched (h ++ k) = dispatched h ++ dispatched k := List.filterMap_append

@[simp] theorem subscribed_append (h k : History) :
    subscribed (h ++ k) = subscribed h ++ subscribed k := List.filterMap_append

/-- How deep the reaction is in which Lua is: entries of the engine, and those that Lua publishes
elsewhere, are at depth zero. -/
def Event.depth (depth : Nat) : Event → Nat
  | .entered (.dispatch _) _ _ => depth + 1
  | .entered (.subscriptions _) _ _ => depth
  | .entered .. => 0
  | .published (.engine _) => 0
  | _ => depth

def depth (h : History) : Nat := h.foldl Event.depth 0

theorem depth_append (h k : History) : depth (h ++ k) = k.foldl Event.depth (depth h) :=
  List.foldl_append

/-- An entry that Lua publishes. -/
def Event.Reacts : Event → Prop
  | .published (.step ..) => True
  | _ => False

/-- In an eighth reaction Lua publishes nothing. -/
def Shallow (h : History) : Prop := Throughout (fun before e => e.Reacts → depth before < 8) h

/-- The loop waits without deferred work, or a connection is closed. -/
def Event.Pauses : Event → Prop
  | .waits false => True
  | .closeQueued _ => True
  | _ => False

/-- Whenever the broker pauses, everything on the bus was passed. -/
def Prompt (h : History) : Prop :=
  Throughout (fun before e => e.Pauses → (dispatched before).flatten = published before) h

variable {w : World} {b b' : Broker} {id : ConnectionId}

/-! The cursor. -/

/-- The entries up to the cursor were passed, to both hooks alike. -/
structure Mirrored (b : Broker) : Prop where
  log : b.eventLog = published b.history
  cursor : b.mirroredCount ≤ b.eventLog.length
  passed : (dispatched b.history).flatten = b.eventLog.take b.mirroredCount
  same : subscribed b.history = dispatched b.history

/-- Nothing waits to be passed. -/
def CaughtUp (b : Broker) : Prop := b.eventLog.length ≤ b.mirroredCount

theorem Mirrored.all (h : Mirrored b) (hc : CaughtUp b) :
    (dispatched b.history).flatten = published b.history := by
  rw [h.passed,List.take_of_length_le hc,h.log]

/-- What leaves the cursor where it is. -/
theorem Mirrored.hear (h : Mirrored b) (more : History) (hh : b'.history = b.history ++ more)
    (hl : b'.eventLog = b.eventLog ++ published more) (hm : b'.mirroredCount = b.mirroredCount)
    (hd : dispatched more = []) (hs : subscribed more = []) : Mirrored b' := by
  refine ⟨?_,?_,?_,?_⟩
  · rw [hl,hh,published_append,h.log]
  · rw [hm,hl,List.length_append]
    exact Nat.le_add_right_of_le h.cursor
  · rw [hh,dispatched_append,hd,List.append_nil,h.passed,hm,hl,List.take_append_of_le_length h.cursor]
  · rw [hh,subscribed_append,dispatched_append,hd,hs,h.same]

theorem dispatched_spoken {routed opened : List PluginName} {calls : List Call} {h : History}
    (hs : Spoken routed opened calls h) : dispatched h =
      calls.filterMap fun call => Event.dispatched? (.entered call routed opened) :=
  hs.filterMap fun _ he => by cases he <;> rfl

theorem subscribed_spoken {routed opened : List PluginName} {calls : List Call} {h : History}
    (hs : Spoken routed opened calls h) : subscribed h =
      calls.filterMap fun call => Event.subscribed? (.entered call routed opened) :=
  hs.filterMap fun _ he => by cases he <;> rfl

/-- A round passes what was left, to both hooks. -/
theorem Mirrored.dispatchTail (h : Mirrored b) (w : World) : Mirrored (b.dispatchTail w) := by
  obtain ⟨more,heq,hspoken⟩ := dispatchTail_spoken w b
  have hd : dispatched more = [b.eventLog.drop b.mirroredCount] := dispatched_spoken hspoken
  have hs : subscribed more = [b.eventLog.drop b.mirroredCount] := subscribed_spoken hspoken
  rw [heq]
  refine ⟨?_,?_,?_,?_⟩
  · rw [hear_eventLog,hear_history,published_append]
    exact congrArg (· ++ published more) h.log
  · rw [hear_eventLog,hear_mirroredCount,List.length_append]
    exact Nat.le_add_right _ _
  · rw [hear_history,dispatched_append,List.flatten_append,hd,List.flatten_singleton]
    simp only [hear_mirroredCount,hear_eventLog,List.take_left']
    exact (congrArg (· ++ _) h.passed).trans (List.take_append_drop _ _)
  · rw [hear_history,subscribed_append,dispatched_append,hd,hs]
    exact congrArg (· ++ _) h.same

/-! Acts of the broker between the calls into Lua. -/

/-- What puts nothing on the bus and does not enter Lua. -/
def Event.Silent : Event → Prop
  | .published .. | .entered .. => False
  | _ => True

/-- What is silent, and no pause either. -/
def Event.Still (e : Event) : Prop := e.Silent ∧ ¬ e.Pauses

/-- Only such events happen, and the log and the cursor stay as they are. -/
def Silently (P : Event → Prop) (b b' : Broker) : Prop :=
  ∃ more, b'.history = b.history ++ more ∧ b'.eventLog = b.eventLog ∧
    b'.mirroredCount = b.mirroredCount ∧ ∀ e ∈ more, P e

section Silently
variable {P Q : Event → Prop} {b'' : Broker}

theorem Silently.none (hh : b'.history = b.history) (hl : b'.eventLog = b.eventLog)
    (hm : b'.mirroredCount = b.mirroredCount) : Silently P b b' :=
  ⟨[],by rw [hh,List.append_nil],hl,hm,fun _ he => absurd he List.not_mem_nil⟩

theorem Silently.refl (b : Broker) : Silently P b b := .none rfl rfl rfl

theorem Silently.single {event : Event} (hh : b'.history = b.history ++ [event])
    (hl : b'.eventLog = b.eventLog) (hm : b'.mirroredCount = b.mirroredCount) (he : P event) :
    Silently P b b' :=
  ⟨[event],hh,hl,hm,fun _ h => by cases List.mem_singleton.mp h; exact he⟩

theorem Silently.trans (h : Silently P b b') (k : Silently P b' b'') : Silently P b b'' := by
  obtain ⟨first,hh,hl,hm,hp⟩ := h
  obtain ⟨more,hh',hl',hm',hp'⟩ := k
  refine ⟨first ++ more,by rw [hh',hh,List.append_assoc],hl'.trans hl,hm'.trans hm,?_⟩
  intro e he
  exact (List.mem_append.mp he).elim (hp e) (hp' e)

theorem Silently.mono (h : Silently P b b') (hp : ∀ e, P e → Q e) : Silently Q b b' := by
  obtain ⟨more,hh,hl,hm,he⟩ := h
  exact ⟨more,hh,hl,hm,fun e hm => hp e (he e hm)⟩

theorem Silently.foldl {α : Type} {f : Broker → α → Broker} (hf : ∀ b item, Silently P b (f b item))
    (items : List α) (b : Broker) : Silently P b (items.foldl f b) := by
  induction items generalizing b with
  | nil => exact .refl b
  | cons item rest ih => exact (hf b item).trans (ih (f b item))

end Silently

theorem remove_still (b : Broker) (id : ConnectionId) : Silently Event.Still b (b.remove id) :=
  .none rfl rfl rfl

theorem unroute_still (b : Broker) (name : PluginName) : Silently Event.Still b (b.unroute name) :=
  .none rfl rfl rfl

theorem queue_still (b : Broker) (fact : Fact) : Silently Event.Still b (b.queueEngineEnvelope fact) :=
  .none rfl rfl rfl

theorem note_silent (b : Broker) (event : Event) (h : event.Silent) :
    Silently Event.Silent b (b.note event) := .single rfl rfl rfl h

theorem fireTerminate_still : Silently Event.Still b (b.fireTerminate id) := by
  unfold fireTerminate
  split
  · exact .refl b
  · split
    · exact .single rfl rfl rfl ⟨trivial,fun h => h⟩
    · exact .refl b

theorem forceClose_silent : Silently Event.Silent b (b.forceClose w id) := by
  unfold forceClose
  split
  · exact .refl b
  · split
    · exact .refl b
    · simp only
      split
      · exact .single rfl rfl rfl trivial
      · exact .none rfl rfl rfl

theorem reportExit_still {name : PluginName} {outcome : ExitOutcome} :
    Silently Event.Still b (b.reportExit id name outcome) := by
  refine .none reportExit_history ?_ ?_
  · unfold reportExit
    simp only [queue_eventLog]
    split <;> rfl
  · unfold reportExit
    simp only [queue_mirroredCount]
    split <;> rfl

theorem expire_still : Silently Event.Still b (b.expire id) :=
  Silently.trans (.none rfl rfl rfl) (fireTerminate_still (b := b.update id _))

theorem observeLossesAndLocalDeadlines_still :
    Silently Event.Still b (b.observeLossesAndLocalDeadlines w) := by
  unfold observeLossesAndLocalDeadlines
  simp only
  refine ((Silently.foldl ?_ _ b).trans (Silently.foldl ?_ _ _)).trans (Silently.foldl ?_ _ _)
  · exact fun b id => expire_still
  · exact remove_still
  · exact fun b loss => queue_still b _

theorem forceTerminateAll_still : Silently Event.Still b b.forceTerminateAll := by
  unfold forceTerminateAll
  simp only
  refine (Silently.foldl (fun b id => fireTerminate_still) _ b).trans (Silently.foldl ?_ _ _)
  intro b id
  unfold Broker.discard
  split
  · exact .refl b
  · exact (remove_still b id).trans (unroute_still _ _)

theorem tryRecv_still {first : ConnectionId × ConnectionInbound}
    (h : tryRecv w b = some (first,b')) : Silently Event.Still b b' := by
  obtain ⟨rest,-,rfl⟩ := tryRecv_eq h
  exact .single rfl (List.append_nil _) rfl ⟨trivial,fun h => h⟩

theorem burst_still (more : Nat) : Silently Event.Still b (burst w more b).2 := by
  obtain ⟨left,heq,-⟩ := burst_eq w more b
  rw [heq]
  refine ⟨receipts (burst w more b).1,rfl,?_,rfl,?_⟩
  · rw [hear_eventLog,published_receipts,List.append_nil]
    rfl
  · intro e he
    obtain ⟨message,-,rfl⟩ := List.mem_map.mp he
    exact ⟨trivial,fun h => h⟩

/-! Being caught up. -/

/-- Everything was passed, now and at every pause before. -/
structure Caught (b : Broker) : Prop where
  mirrored : Mirrored b
  caughtUp : CaughtUp b
  prompt : Prompt b.history

/-- What was not passed yet can be. -/
structure Ready (b : Broker) : Prop where
  mirrored : Mirrored b
  prompt : Prompt b.history
  fresh : CaughtUp b ∨ depth b.history = 0

theorem Caught.ready (h : Caught b) : Ready b := ⟨h.mirrored,h.prompt,.inl h.caughtUp⟩

theorem silent_reads {more : History} (h : ∀ e ∈ more, e.Silent) :
    published more = [] ∧ dispatched more = [] ∧ subscribed more = [] ∧
      ∀ n, more.foldl Event.depth n = n := by
  refine ⟨?_,?_,?_,?_⟩
  · apply List.filterMap_eq_nil_iff.mpr
    intro e he
    have := h e he
    cases e <;> first | rfl | exact this.elim
  · apply List.filterMap_eq_nil_iff.mpr
    intro e he
    have := h e he
    cases e <;> first | rfl | exact this.elim
  · apply List.filterMap_eq_nil_iff.mpr
    intro e he
    have := h e he
    cases e <;> first | rfl | exact this.elim
  · intro n
    induction more with
    | nil => rfl
    | cons e rest ih =>
      have hhead := h e List.mem_cons_self
      have hstep : Event.depth n e = n := by cases e <;> first | rfl | exact hhead.elim
      rw [List.foldl_cons,hstep]
      exact ih fun e he => h e (List.mem_cons_of_mem _ he)

theorem Mirrored.silent (h : Mirrored b) (hs : Silently Event.Silent b b') : Mirrored b' := by
  obtain ⟨more,hh,hl,hm,he⟩ := hs
  obtain ⟨hp,hd,hsub,-⟩ := silent_reads he
  exact h.hear more hh (by rw [hl,hp,List.append_nil]) hm hd hsub

theorem Caught.silent (h : Caught b) (hs : Silently Event.Silent b b') : Caught b' := by
  refine ⟨h.mirrored.silent hs,?_,?_⟩
  · obtain ⟨more,-,hl,hm,-⟩ := hs
    unfold CaughtUp
    rw [hl,hm]
    exact h.caughtUp
  · obtain ⟨more,hh,-,-,he⟩ := hs
    rw [hh]
    refine Throughout.append.mpr ⟨h.prompt,Throughout.of_forall fun before hb e _ _ => ?_⟩
    -- Nothing was published since everything had been passed.
    obtain ⟨hp,hd,-,-⟩ := silent_reads fun e hm => he e (hb e hm)
    rw [dispatched_append,published_append,hp,hd,List.append_nil,List.append_nil]
    exact h.mirrored.all h.caughtUp

theorem Ready.still (h : Ready b) (hs : Silently Event.Still b b') : Ready b' := by
  refine ⟨h.mirrored.silent (hs.mono fun _ he => he.1),?_,?_⟩
  · obtain ⟨more,hh,-,-,he⟩ := hs
    rw [hh]
    exact Throughout.append.mpr ⟨h.prompt,Throughout.of_forall fun before _ e hm hp =>
      absurd hp (he e hm).2⟩
  · obtain ⟨more,hh,hl,hm,he⟩ := hs
    obtain ⟨-,-,-,hdepth⟩ := silent_reads fun e hm => (he e hm).1
    refine h.fresh.imp (fun hc => ?_) fun hd => ?_
    · unfold CaughtUp
      rw [hl,hm]
      exact hc
    · rw [hh,depth_append,hd,hdepth]

/-- The broker comes from one condition to the other if the reactions meanwhile are not too deep. -/
structure Leads (P Q : Broker → Prop) (b b' : Broker) : Prop where
  grows : b.history <+: b'.history
  leads : Shallow b'.history → P b → Q b'

section Leads
variable {P Q R : Broker → Prop} {b'' : Broker}

theorem Leads.refl (b : Broker) : Leads P P b b := ⟨List.prefix_refl _,fun _ h => h⟩

theorem Leads.trans (h : Leads P Q b b') (k : Leads Q R b' b'') : Leads P R b b'' :=
  ⟨h.grows.trans k.grows,fun hs hp => k.leads hs (h.leads (hs.of_prefix k.grows) hp)⟩

theorem Leads.foldl {α : Type} {f : Broker → α → Broker} (hf : ∀ b item, Leads P P b (f b item))
    (items : List α) (b : Broker) : Leads P P b (items.foldl f b) := by
  induction items generalizing b with
  | nil => exact .refl b
  | cons item rest ih => exact (hf b item).trans (ih (f b item))

theorem Leads.weaken (h : Leads P Q b b') (hr : ∀ b, R b → P b) : Leads R Q b b' :=
  ⟨h.grows,fun hs hb => h.leads hs (hr b hb)⟩

end Leads

theorem Silently.grows {P : Event → Prop} (h : Silently P b b') : b.history <+: b'.history := by
  obtain ⟨more,hh,-⟩ := h
  exact ⟨more,hh.symm⟩

theorem Silently.caught (h : Silently Event.Silent b b') : Leads Caught Caught b b' :=
  ⟨h.grows,fun _ hc => hc.silent h⟩

theorem Silently.ready (h : Silently Event.Still b b') : Leads Ready Ready b b' :=
  ⟨h.grows,fun _ hc => hc.still h⟩

theorem Silently.still (h : Silently Event.Still b b') : Silently Event.Silent b b' :=
  h.mono fun _ he => he.1

/-! Calls into Lua. -/

theorem spoken_unpaused {routed opened : List PluginName} {calls : List Call} {h : History}
    (hs : Spoken routed opened calls h) : ∀ e ∈ h, ¬ e.Pauses := by
  intro e he hp
  obtain ⟨call,-,rfl⟩ | hlua := hs.mem he
  · exact hp
  · cases hlua <;> exact hp

/-- Where nothing pauses nothing is asked. -/
theorem prompt_append {more : History} (hp : Prompt b.history) (hm : ∀ e ∈ more, ¬ e.Pauses) :
    Prompt (b.history ++ more) :=
  Throughout.append.mpr ⟨hp,Throughout.of_forall fun _ _ e he h => absurd h (hm e he)⟩

theorem depth_lua {routed : List PluginName} {events : History} (h : ∀ e ∈ events, ByLua routed e)
    (n : Nat) : events.foldl Event.depth n = n := by
  induction events generalizing n with
  | nil => rfl
  | cons e rest ih =>
    have hstep : Event.depth n e = n := by cases h e List.mem_cons_self <;> rfl
    rw [List.foldl_cons,hstep]
    exact ih (fun e he => h e (List.mem_cons_of_mem _ he)) n

/-- A call that is not a round of dispatch. -/
def Call.Plain : Call → Prop
  | .dispatch _ | .subscriptions _ => False
  | _ => True

theorem Mirrored.enter (h : Mirrored b) (w : World) {call : Call} (hcall : call.Plain) :
    Mirrored (enter w call b) := by
  obtain ⟨spoken,heq,hspoken⟩ := enter_spoken w call b
  rw [heq]
  refine h.hear spoken rfl rfl rfl ?_ ?_
  · rw [dispatched_spoken hspoken]
    cases call <;> first | rfl | exact hcall.elim
  · rw [subscribed_spoken hspoken]
    cases call <;> first | rfl | exact hcall.elim

/-- What Lua publishes in such a call can be passed. -/
theorem enter_ready (w : World) (call : Call) (hcall : call.Plain) (b : Broker) :
    Leads Ready Ready b (enter w call b) := by
  obtain ⟨events,heq,hlua⟩ := enter_eq w call b
  obtain ⟨spoken,heq',hspoken⟩ := enter_spoken w call b
  have hhist : (enter w call b).history = b.history ++ spoken := by rw [heq']; rfl
  refine ⟨⟨spoken,hhist.symm⟩,fun _ h => ⟨h.mirrored.enter w hcall,?_,.inr ?_⟩⟩
  · rw [hhist]
    exact prompt_append h.prompt (spoken_unpaused hspoken)
  · rw [heq,hear_history,depth_append,List.foldl_cons]
    have hstep : ∀ n, Event.depth n (.entered call b.conns b.opened) = 0 := by
      intro n
      cases call <;> first | rfl | exact hcall.elim
    rw [hstep,depth_lua hlua]

/-! Rounds of dispatch. -/

/-- A round is one reaction deeper than what it passes. -/
theorem round_depth {routed opened : List PluginName} {tail tail' : List LogEntry} {h : History}
    (hs : Spoken routed opened [.dispatch tail,.subscriptions tail'] h) (n : Nat) :
    h.foldl Event.depth n = n + 1 ∧
      Throughout (fun before e => e.Reacts → before.foldl Event.depth n = n + 1) h := by
  cases hs with
  | @cons _ _ first _ hfirst hs =>
    cases hs with
    | @cons _ _ second _ hsecond hs =>
      cases hs
      rw [List.append_nil]
      refine ⟨?_,?_⟩
      · rw [List.foldl_cons,List.foldl_append,List.foldl_cons,depth_lua hfirst]
        exact depth_lua hsecond _
      · refine Throughout.cons.mpr ⟨fun h => h.elim,Throughout.append.mpr ⟨?_,?_⟩⟩
        · refine Throughout.of_forall fun before hb _ _ _ => ?_
          exact depth_lua (fun e he => hfirst e (hb e he)) _
        · refine Throughout.cons.mpr ⟨fun h => h.elim,Throughout.of_forall fun before hb _ _ _ => ?_⟩
          rw [List.foldl_cons,List.foldl_append,List.foldl_cons,depth_lua hfirst]
          exact depth_lua (fun e he => hsecond e (hb e he)) _

/-- In a last round that is not too deep nothing is published. -/
theorem published_last {routed opened : List PluginName} {tail tail' : List LogEntry} {h more : History}
    (hs : Spoken routed opened [.dispatch tail,.subscriptions tail'] more) (hd : depth h = 7)
    (hshallow : Shallow (h ++ more)) : published more = [] := by
  apply List.filterMap_eq_nil_iff.mpr
  intro e he
  obtain ⟨before,after,rfl⟩ := List.append_of_mem he
  have hless : e.Reacts → depth (h ++ before) < 8 :=
    (Throughout.append.mp hshallow).2 before e after rfl
  have hdepth : e.Reacts → before.foldl Event.depth (depth h) = depth h + 1 :=
    (round_depth hs (depth h)).2 before e after rfl
  rw [depth_append] at hless
  obtain ⟨call,-,rfl⟩ | hlua := hs.mem he
  · rfl
  · cases hlua with
    | sent target payload =>
      have := hless trivial
      have := hdepth trivial
      omega
    | delivered => rfl
    | refused => rfl

/-- The rounds that are left are as many as the reactions may still be deep. -/
theorem drainRounds_caught {rounds : Nat} (hm : Mirrored b) (hp : Prompt b.history)
    (hf : CaughtUp b ∨ depth b.history + rounds = 8 ∧ 0 < rounds)
    (hs : Shallow (drainRounds w rounds b).history) : Caught (drainRounds w rounds b) := by
  induction rounds generalizing b with
  | zero => exact ⟨hm,hf.elim id fun h => absurd h.2 (Nat.lt_irrefl 0),hp⟩
  | succ rounds ih =>
    rw [drainRounds] at hs ⊢
    split
    · rename_i hc
      exact ⟨hm,hc,hp⟩
    · rename_i hc
      rw [if_neg hc] at hs
      have hdepth : depth b.history + (rounds + 1) = 8 := (hf.resolve_left hc).1
      obtain ⟨more,heq,hspoken⟩ := dispatchTail_spoken w b
      have hhist : (b.dispatchTail w).history = b.history ++ more := by rw [heq]; rfl
      apply ih (hm.dispatchTail w)
      · rw [hhist]
        exact prompt_append hp (spoken_unpaused hspoken)
      · cases rounds with
        | zero =>
          left
          rw [drainRounds,hhist] at hs
          unfold CaughtUp
          rw [heq,hear_eventLog,published_last hspoken (by omega) hs,List.append_nil]
          exact le_rfl
        | succ rounds =>
          right
          rw [hhist,depth_append,(round_depth hspoken _).1]
          omega
      · exact hs

theorem drainPendingDispatch_caught (w : World) (b : Broker) :
    Leads Ready Caught b (drainPendingDispatch w b) := by
  refine ⟨(Acts.drainPendingDispatch w b).grows,fun hs h => ?_⟩
  refine drainRounds_caught h.mirrored h.prompt (h.fresh.imp_right fun hd => ?_) hs
  rw [hd]
  exact ⟨rfl,Nat.succ_pos 7⟩

/-- What the engine puts on the bus. -/
theorem publishEngineEnvelopes_eq (b : Broker) : b.publishEngineEnvelopes =
    Broker.hear { b with pendingEngineEnvelopes := [] }
      (b.pendingEngineEnvelopes.map fun fact => .published (.engine fact)) := by
  refine (publish_eq _ _).trans ?_
  rw [List.map_map]
  rfl

theorem Mirrored.publishEngineEnvelopes (h : Mirrored b) : Mirrored b.publishEngineEnvelopes := by
  rw [publishEngineEnvelopes_eq]
  refine h.hear _ rfl rfl rfl ?_ ?_
  · apply List.filterMap_eq_nil_iff.mpr
    intro e he
    obtain ⟨fact,-,rfl⟩ := List.mem_map.mp he
    rfl
  · apply List.filterMap_eq_nil_iff.mpr
    intro e he
    obtain ⟨fact,-,rfl⟩ := List.mem_map.mp he
    rfl

/-- The envelopes of the engine can be passed. -/
theorem drainEngineEnvelopes_caught (w : World) {b : Broker} (h : b.pendingEngineEnvelopes ≠ []) :
    Leads Ready Caught b (drainEngineEnvelopes w b) := by
  unfold drainEngineEnvelopes
  rw [if_neg h]
  refine Leads.trans ⟨?_,fun _ hb => ⟨hb.mirrored.publishEngineEnvelopes,?_,.inr ?_⟩⟩
    (drainPendingDispatch_caught w _)
  · rw [publishEngineEnvelopes_eq]
    exact List.prefix_append _ _
  · rw [publishEngineEnvelopes_eq]
    refine prompt_append hb.prompt ?_
    intro e he hp
    obtain ⟨fact,-,rfl⟩ := List.mem_map.mp he
    exact hp
  · have hengine : ∀ (facts : List Fact) (n : Nat), facts ≠ [] →
        (facts.map fun fact => Event.published (.engine fact)).foldl Event.depth n = 0 := by
      intro facts
      induction facts with
      | nil => exact fun _ hne => absurd rfl hne
      | cons fact rest ih =>
        intro n _
        cases rest with
        | nil => rfl
        | cons more rest => exact ih 0 (List.cons_ne_nil more rest)
    rw [publishEngineEnvelopes_eq,hear_history,depth_append]
    exact hengine _ _ h

theorem drainEngineEnvelopes_leads (w : World) (b : Broker) :
    Leads Caught Caught b (drainEngineEnvelopes w b) := by
  by_cases h : b.pendingEngineEnvelopes = []
  · unfold drainEngineEnvelopes
    rw [if_pos h]
    exact .refl b
  · exact (drainEngineEnvelopes_caught w h).weaken fun _ => Caught.ready

/-! The handlers of the loop: whoever finds everything passed leaves everything passed. -/

theorem recordFailure_still {name : PluginName} {phase kind : String} :
    Silently Event.Still b (b.recordFailure w id name phase kind) :=
  .single rfl rfl rfl ⟨trivial,fun h => h⟩

theorem transportFailed_leads (w : World) (b : Broker) (id : ConnectionId) (phase kind : String) :
    Leads Caught Caught b (b.transportFailed w id phase kind) := by
  unfold Broker.transportFailed
  split
  · exact .refl b
  · rename_i record _
    split
    · exact .refl b
    · have hrecord : Leads Caught Caught b (drainEngineEnvelopes w
          (b.recordFailure w id record.name phase kind)) :=
        recordFailure_still.still.caught.trans (drainEngineEnvelopes_leads w _)
      simp only
      split
      · exact hrecord
      · exact hrecord.trans (remove_still _ id).still.caught

theorem handleReaderClosed_leads (w : World) (b : Broker) (closed : ConnectionId × ReaderEnd) :
    Leads Caught Caught b (b.handleReaderClosed w closed.1 closed.2) := by
  obtain ⟨id,reason⟩ := closed
  cases reason with
  | eof =>
    unfold handleReaderClosed
    simp only
    have hclose : Leads Caught Caught b (b.forceClose w id) := forceClose_silent.caught
    split
    · exact hclose
    · split
      · exact hclose
      · exact hclose.trans (remove_still _ id).still.caught
  | ioError => exact transportFailed_leads w b id _ _
  | invalidUtf8 => exact transportFailed_leads w b id _ _
  | lineTooLong => exact transportFailed_leads w b id _ _

theorem handleExit_silent {outcome : ExitOutcome} :
    Silently Event.Silent b (b.handleExit w id outcome) :=
  Silently.trans (.none rfl rfl rfl)
    (forceClose_silent (b := b.update id fun record => { record with pendingExit := some outcome }))

theorem accountExit_leads (w : World) (b : Broker) (id : ConnectionId) :
    Leads Caught Caught b (b.accountExit w id) := by
  unfold accountExit
  split
  · exact .refl b
  · split
    · exact ((remove_still b id).trans (unroute_still _ _)).still.caught
    · exact reportExit_still.still.caught.trans (drainEngineEnvelopes_leads w _)

theorem accountUnreapedProcesses_leads (w : World) (b : Broker) :
    Leads Caught Caught b (b.accountUnreapedProcesses w) := by
  refine Leads.trans (Leads.foldl ?_ b.ids b) (drainEngineEnvelopes_leads w _)
  intro b id
  unfold accountUnreaped
  split
  · exact .refl b
  · exact reportExit_still.still.caught

/-- The reactions to the shutdown are passed before any connection is closed. -/
theorem beginShutdown_leads (w : World) (b : Broker) : Leads Caught Caught b (b.beginShutdown w) := by
  have hlua : Leads Caught Caught b (drainPendingDispatch w (enter w .shutdown b)) :=
    ((enter_ready w .shutdown trivial b).weaken fun _ => Caught.ready).trans
      (drainPendingDispatch_caught w _)
  exact hlua.trans (Leads.foldl (fun b id => forceClose_silent.caught) _ _)

theorem passBatch_ready (w : World) (first : ConnectionId × ConnectionInbound) (b : Broker) :
    Leads Ready Ready b (b.passBatch w first) := by
  refine (burst_still 255).ready.trans (Leads.foldl ?_ _ _)
  intro b peer
  unfold passLines
  split
  · exact .refl b
  · exact enter_ready w (.fromPlugin peer.1 peer.2) trivial b

theorem handleInboundTick_leads (w : World) (first : ConnectionId × ConnectionInbound) (b : Broker) :
    Leads Caught Caught b (b.handleInboundTick w first) := by
  have hpass : Leads Caught Caught b (drainPendingDispatch w (b.passBatch w first)) :=
    ((passBatch_ready w first b).trans (drainPendingDispatch_caught w _)).weaken fun _ => Caught.ready
  exact hpass.trans (Leads.foldl (handleReaderClosed_leads w) _ _)

theorem handleRuntimeCallbacks_leads (w : World) (b : Broker) :
    Leads Caught Caught b (b.handleRuntimeCallbacks w) := by
  have hcall := enter_ready w .runtimeCallback trivial
  have hmore : ∀ (more : Nat) (b : Broker), Leads Ready Ready b (moreCallbacks w more b) := by
    intro more
    induction more with
    | zero => exact fun b => .refl b
    | succ more ih =>
      intro b
      rw [moreCallbacks]
      split
      · exact (hcall b).trans (ih _)
      · exact .refl b
  refine Leads.weaken ?_ fun _ => Caught.ready
  exact (hcall b).trans ((hmore 255 _).trans (drainPendingDispatch_caught w _))

/-! Turns. -/
namespace Loop
variable {s : Loop}

theorem drainNotices_leads (w : World) (b : Broker) : Leads Caught Caught b (drainNotices w b) := by
  have htake : ∀ (more : Nat) (b : Broker), Leads Caught Caught b (takeInbound w more b) := by
    intro more
    induction more with
    | zero => exact fun b => .refl b
    | succ more ih =>
      intro b
      rw [takeInbound]
      cases hr : tryRecv w b with
      | none => exact .refl b
      | some got =>
        exact ((tryRecv_still hr).still.caught.trans (handleInboundTick_leads w got.1 got.2)).trans (ih _)
  unfold drainNotices
  split
  · exact (htake _ b).trans (Leads.foldl (fun b _ => transportFailed_leads w b _ _ _) _ _)
  · exact .refl b

theorem settle_leads (w : World) (b : Broker) : Leads Caught Caught b (settle w b) := by
  have hobserve : ∀ b : Broker, Leads Caught Caught b (b.observeLossesAndLocalDeadlines w) :=
    fun b => observeLossesAndLocalDeadlines_still.still.caught
  refine ((drainNotices_leads w b).trans (hobserve _)).trans ?_
  exact (Leads.foldl (accountExit_leads w) _ _).trans (drainEngineEnvelopes_leads w _)

theorem expireGrace_leads (w : World) (s : Loop) :
    Leads Caught Caught s.broker (expireGrace w s).broker := by
  unfold expireGrace
  split
  · exact forceTerminateAll_still.still.caught
  · exact .refl _

/-- A deferred task passes whatever is left. -/
theorem task_caught (w : World) (b : Broker) :
    Leads Ready Caught b (drainPendingDispatch w (enter w .cooperativeTask b)) :=
  (enter_ready w .cooperativeTask trivial b).trans (drainPendingDispatch_caught w _)

theorem runTask_leads (w : World) (s : Loop) : Leads Caught Caught s.broker (runTask w s).broker := by
  unfold runTask
  split
  · exact (task_caught w _).weaken fun _ => Caught.ready
  · exact .refl _

theorem select_leads (w : World) (s : Loop) : Leads Caught Caught s.broker (select w s).broker := by
  unfold select
  simp only
  split
  · split
    · exact handleRuntimeCallbacks_leads w _
    · exact .refl _
  · split
    · exact .refl _
    · rename_i hr
      exact (tryRecv_still hr).still.caught.trans (handleInboundTick_leads w _ _)
  · exact transportFailed_leads w _ _ _ _
  · exact ((note_silent s.broker (.exited _ _) trivial).trans handleExit_silent).caught
  · split
    · exact (queue_still _ _).still.caught.trans (drainEngineEnvelopes_leads w _)
    · exact .refl _
  · split
    · exact (note_silent s.broker (.shutdownRequested _) trivial).caught.trans
        (beginShutdown_leads w _)
    · exact .refl _
  · exact .refl _

theorem await_leads (w : World) (s : Loop) : Leads Caught Caught s.broker (await w s).broker := by
  unfold await
  split
  · exact .refl _
  · split
    · exact .refl _
    · exact (note_silent s.broker (.waits _) trivial).caught.trans
        (select_leads w { s with broker := s.broker.note _ })

/-- What follows when the facts of the engine are published. -/
def proceed (w : World) (s : Loop) : Loop :=
  if s.forcedExitDeadline.any (w.reached s.broker.history none) then
    { s with broker := accountUnreapedProcesses w s.broker, stopped := some .shutdown }
  else await w (runTask w s)

theorem turn_eq (w : World) (h : s.stopped = none) :
    turn w s = proceed w (expireGrace w { s with broker := settle w s.broker }) := by
  unfold turn
  rw [h]
  rfl

theorem proceed_leads (w : World) (s : Loop) : Leads Caught Caught s.broker (proceed w s).broker := by
  unfold proceed
  split
  · exact accountUnreapedProcesses_leads w _
  · exact (runTask_leads w s).trans (await_leads w _)

theorem turn_leads (w : World) (s : Loop) : Leads Caught Caught s.broker (turn w s).broker := by
  cases hs : s.stopped with
  | some reason =>
    unfold turn
    rw [hs]
    exact .refl _
  | none =>
    rw [turn_eq w hs]
    have hexpire := expireGrace_leads w { s with broker := settle w s.broker }
    exact ((settle_leads w s.broker).trans hexpire).trans (proceed_leads w _)

end Loop

/-! Every run. -/

theorem Act.mirrored (h : Act w b b') (hm : Mirrored b) : Mirrored b' := by
  cases h with
  | enter call h => exact hm.enter w (by rcases h with rfl | rfl | rfl <;> trivial)
  | dispatchTail h => exact hm.dispatchTail w
  | publishEngineEnvelopes => exact hm.publishEngineEnvelopes
  | queue fact h => exact hm.silent (queue_still b fact).still
  | shutdownRequested request => exact hm.silent (note_silent b (.shutdownRequested request) trivial)
  | forceClose id h => exact hm.silent forceClose_silent
  | recordFailure phase kind hr hf => exact hm.silent recordFailure_still.still
  | remove hr hw hc => exact hm.silent (remove_still b _).still
  | expire id => exact hm.silent expire_still.still
  | fireTerminate id => exact hm.silent fireTerminate_still.still
  | discard hr hw hs => exact hm.silent ((remove_still b _).trans (unroute_still _ _)).still
  | reportExit hr he => exact hm.silent reportExit_still.still
  | waits tasks => exact hm.silent (note_silent b (.waits tasks) trivial)

theorem Acts.mirrored (h : Acts w b b') (hm : Mirrored b) : Mirrored b' := by
  induction h with
  | refl => exact hm
  | tail _ h ih => exact h.mirrored ih

theorem Move.mirrored (h : Move w b b') (hm : Mirrored b) : Mirrored b' := by
  cases h with
  | act h => exact h.mirrored hm
  | exit id outcome =>
    exact hm.silent ((note_silent b (.exited id outcome) trivial).trans handleExit_silent)
  | tick h =>
    apply (Acts.handleInboundTick w h).mirrored
    have hpass : ∀ (peers : List (PluginName × List String)) (b : Broker), Mirrored b →
        Mirrored (peers.foldl (passLines w) b) := by
      intro peers
      induction peers with
      | nil => exact fun _ hb => hb
      | cons peer rest ih =>
        intro b hb
        apply ih
        unfold passLines
        split
        · exact hb
        · exact hb.enter w trivial
    exact hpass _ _ ((hm.silent (tryRecv_still h).still).silent (burst_still 255).still)

namespace Setup
variable {setup : Setup}

/-- Whatever was published before the loop is entered is passed in the first turn, or there is no
loop: some fact of the engine or some task of Lua makes the broker drain. -/
def Opens (w : World) (setup : Setup) : Prop :=
  (setup.start w).broker.eventLog = [] ∨ setup.connections = [] ∨ setup.failures ≠ [] ∨
    w.hasTasks (setup.start w).broker.history = true ∨
      ∃ c ∈ setup.connections, w.lost (setup.start w).broker.history c.id > 0

theorem Started.ready (h : Started setup b) : Ready b := by
  have hread : ∀ e ∈ b.history, e.dispatched? = none ∧ e.subscribed? = none ∧ ¬ e.Pauses ∧
      ∀ n, n = 0 → Event.depth n e = 0 := by
    intro e he
    cases h.early e he with
    | loaded target payload => exact ⟨rfl,rfl,fun hp => hp,fun _ hn => hn⟩
    | cli name args => exact ⟨rfl,rfl,fun hp => hp,fun _ _ => rfl⟩
    | lua hlua => cases hlua <;> exact ⟨rfl,rfl,fun hp => hp,fun _ hn => hn⟩
  have hd : dispatched b.history = [] := List.filterMap_eq_nil_iff.mpr fun e he => (hread e he).1
  have hs : subscribed b.history = [] := List.filterMap_eq_nil_iff.mpr fun e he => (hread e he).2.1
  refine ⟨⟨h.log,?_,?_,hs.trans hd.symm⟩,?_,.inr ?_⟩
  · rw [h.mirrored]
    exact Nat.zero_le _
  · rw [hd,h.mirrored,List.take_zero]
    rfl
  · exact Throughout.of_forall fun _ _ e he hp => absurd hp (hread e he).2.2.1
  · have hzero : ∀ more : History, (∀ e ∈ more, e ∈ b.history) → more.foldl Event.depth 0 = 0 := by
      intro more
      induction more with
      | nil => exact fun _ => rfl
      | cons e rest ih =>
        intro hmem
        rw [List.foldl_cons,(hread e (hmem e List.mem_cons_self)).2.2.2 0 rfl]
        exact ih fun e he => hmem e (List.mem_cons_of_mem _ he)
    exact hzero _ fun _ he => he

/-- The losses that the broker finds. -/
def losses (w : World) (b : Broker) : List Fact :=
  (b.ids.filterMap fun id => (b.connsById id).bind fun record =>
    if w.lost b.history id > 0 then some (record.name,w.lost b.history id) else none).map
      fun loss => .deliveryLost loss.1 loss.2

theorem Started.losses (h : Started setup b) {c : Connection} (hc : c ∈ setup.connections)
    (hlost : w.lost b.history c.id > 0) : losses w b ≠ [] := by
  intro hnil
  have hid : c.id ∈ b.ids := by
    unfold Broker.ids
    rw [h.order,List.mem_filter,h.attached c hc]
    exact ⟨List.mem_map_of_mem hc,rfl⟩
  have hnone := List.filterMap_eq_nil_iff.mp (List.map_eq_nil_iff.mp hnil) c.id hid
  rw [h.attached c hc] at hnone
  simp [hlost] at hnone

/-- In the first turn nothing but losses is found before the facts of the engine are published. -/
theorem Started.settle (h : Started setup b) (w : World) : Loop.settle w b = drainEngineEnvelopes w
    { b with pendingEngineEnvelopes := b.pendingEngineEnvelopes ++ Setup.losses w b } := by
  have hquiet : ∀ p : ConnectionId → ConnectionRecord → Bool,
      (∀ id, ∀ c ∈ setup.connections, p id c.record = false) →
      b.ids.filter (fun id => (b.connsById id).any (p id)) = [] := by
    intro p hp
    apply List.filter_eq_nil_iff.mpr
    intro id _
    cases hr : b.connsById id with
    | none => exact Bool.false_ne_true
    | some record =>
      obtain ⟨c,hc,-,rfl⟩ := h.record hr
      rw [Option.any_some,hp id c hc]
      exact Bool.false_ne_true
  have hnotices : Loop.drainNotices w b = b := by
    have hexits := hquiet (fun _ record => record.pendingExit.isSome) fun _ _ _ => rfl
    unfold Loop.drainNotices
    rw [if_neg]
    intro hany
    obtain ⟨id,hid,hexit⟩ := List.any_eq_true.mp hany
    exact absurd hexit (List.filter_eq_nil_iff.mp hexits id hid)
  have hobserve : observeLossesAndLocalDeadlines w b =
      { b with pendingEngineEnvelopes := b.pendingEngineEnvelopes ++ Setup.losses w b } := by
    have hdue := hquiet
      (fun id record => record.closeDeadline.any (w.reached b.history (some id))) fun _ _ _ => rfl
    unfold observeLossesAndLocalDeadlines
    simp only [hdue,List.filter_nil,List.foldl_nil]
    exact foldl_queue (fun loss : PluginName × UInt64 => .deliveryLost loss.1 loss.2) _ b
  unfold Loop.settle
  rw [hnotices,hobserve]
  have hexits := hquiet (fun id record => record.pendingExit.isSome && w.finished b.history id)
    fun _ _ _ => rfl
  exact congrArg (fun due => drainEngineEnvelopes w (List.foldl (accountExit w) _ due)) hexits

/-- The first turn passes everything, or the loop stops at once. -/
theorem Opens.first (h : Opens w setup) :
    Leads Ready Caught (setup.start w).broker ((setup.start w).turn w).broker ∨
      ((setup.start w).turn w).stopped.isSome ∧
        ((setup.start w).turn w).broker = (setup.start w).broker := by
  have hstart := started setup w
  unfold Opens at h
  generalize hs : setup.start w = s at hstart h
  obtain ⟨hnone,hdeadline,hforced,hgrace⟩ : s.stopped = none ∧ s.shutdownDeadline = none ∧
      s.forcedExitDeadline = none ∧ s.shutdownGrace = none := by
    rw [← hs]
    exact ⟨rfl,rfl,rfl,rfl⟩
  by_cases hlog : s.broker.eventLog = []
  · left
    have hturn := Loop.turn_leads w s
    refine ⟨hturn.grows,fun hshallow hr => hturn.leads hshallow ⟨hr.mirrored,?_,hr.prompt⟩⟩
    unfold CaughtUp
    rw [hlog]
    exact Nat.zero_le _
  have hsettle := hstart.settle w
  have hgracing : ∀ b, Loop.expireGrace w { s with broker := b } = { s with broker := b } := by
    intro b
    unfold Loop.expireGrace
    rw [hdeadline]
    rfl
  rw [Loop.turn_eq w hnone,hgracing]
  by_cases hpending : s.broker.pendingEngineEnvelopes ++ losses w s.broker = []
  · -- Nothing is settled: what is left is to be passed by a task.
    obtain ⟨hfacts,hlosses⟩ := List.append_eq_nil_iff.mp hpending
    have hsame : Loop.settle w s.broker = s.broker := by
      rw [hsettle,hpending,← hfacts]
      unfold drainEngineEnvelopes
      rw [if_pos hfacts]
    rw [hsame]
    unfold Loop.proceed Loop.runTask
    simp only [hforced,hgrace,Option.any_none,Option.isNone_none,Bool.true_and,Bool.false_eq_true,
      if_false]
    split
    · have htask := Loop.task_caught w s.broker
      exact .inl (htask.trans (Loop.await_leads w ⟨_,none,s.shutdownDeadline,none,s.stopped⟩))
    · rename_i htask
      right
      have hids : s.broker.ids = [] := by
        obtain hnil | hnil | hfail | htasks | ⟨c,hc,hlost⟩ := h
        · exact absurd hnil hlog
        · unfold Broker.ids
          rw [hstart.order,hnil]
          rfl
        · rw [hstart.pending] at hfacts
          exact absurd (List.map_eq_nil_iff.mp hfacts) hfail
        · exact absurd htasks htask
        · exact absurd hlosses (hstart.losses hc hlost)
      unfold Loop.await
      simp [hids]
  · left
    have hdrain : Leads Ready Caught s.broker (Loop.settle w s.broker) := by
      have hqueue : Silently Event.Still s.broker { s.broker with
          pendingEngineEnvelopes := s.broker.pendingEngineEnvelopes ++ losses w s.broker } :=
        .none rfl rfl rfl
      rw [hsettle]
      exact hqueue.ready.trans (drainEngineEnvelopes_caught w hpending)
    exact hdrain.trans (Loop.proceed_leads w { s with broker := Loop.settle w s.broker })

end Setup

instance : DecidablePred Event.Reacts
  | .published (.step ..) => .isTrue trivial
  | .published (.engine _) | .entered .. | .delivered .. | .received .. | .exited ..
  | .shutdownRequested _ | .transportFailed _ | .closeQueued _ | .terminated _ | .waits _ =>
    .isFalse fun h => h

instance : DecidablePred Event.Pauses
  | .waits false | .closeQueued _ => .isTrue trivial
  | .waits true | .published _ | .entered .. | .delivered .. | .received .. | .exited ..
  | .shutdownRequested _ | .transportFailed _ | .terminated _ => .isFalse fun h => h

instance : DecidablePred Shallow := fun h =>
  inferInstanceAs (Decidable (Throughout (fun before e => e.Reacts → depth before < 8) h))

instance : DecidablePred Prompt := fun h => inferInstanceAs
  (Decidable (Throughout (fun before e => e.Pauses → (dispatched before).flatten = published before) h))

end Nefor.Ncp
