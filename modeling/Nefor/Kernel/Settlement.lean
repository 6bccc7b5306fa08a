import Nefor.Kernel.RunContext
import Nefor.Trace

/-! The completion of a run tells whether the accepted result was written exactly as long as the
result's own write decides the path that is published. -/
namespace Nefor.Kernel.RunContext
open Nefor.Lua

variable {run : RunMeta} {host : Host} {ctx ctx' : RunContext} {act : Act} {w : Write} {c : Completion}

/-! What holds of every run. -/

/-- The writes that were made for an accepted result. -/
def resultWrites (ctx : RunContext) : List Write := ctx.writes.filter (·.ofResult)

/-- No result has been published. -/
structure Unpublished (ctx : RunContext) : Prop where
  settlement : ctx.terminalSettlement = none
  writes : ctx.resultWrites = []
  complete : ctx.runComplete = none
  event : ∀ fromNode result path persisted, .runComplete fromNode result path persisted ∉ ctx.emitted
  taken : ctx.runCompleteTaken = false
  unanswered : ctx.active = true → ctx.replies = []

/-- One result has been published, after one write and with one completion. -/
structure Published (ctx : RunContext) (w : Write) (c : Completion) : Prop where
  settlement : ∃ settlement, ctx.terminalSettlement = some settlement ∧ settlement.completion = some c ∧
    w.node = settlement.fromNode ∧ w.output = settlement.output ∧ c.result = settlement.result
  writes : ctx.resultWrites = [w]
  complete : ctx.runComplete = none ∨ ctx.runComplete = some c
  event : ∀ fromNode result path persisted, .runComplete fromNode result path persisted ∈ ctx.emitted →
    path = c.outputPath ∧ persisted = c.persisted
  pending : ctx.pendingCompletion = none
  reply : ctx.runCompleteTaken = true → ∀ reply ∈ ctx.replies, reply.persisted = some c.persisted ∧ reply.outputPath = c.outputPath
  untaken : ctx.active = true → ctx.runCompleteTaken = false
  unanswered : ctx.active = true → ctx.replies = []

/-- The path and the flag are those of the write. -/
def Tells (w : Write) (path : Option String) (persisted : Bool) : Prop := path = w.landed ∧ persisted = w.landed.isSome

/-- The write that was performed for the accepted result. -/
structure AcceptedWrite (ctx : RunContext) (w : Write) : Prop where
  only : ctx.resultWrites = [w]
  accepted : ∃ settlement, ctx.terminalSettlement = some settlement ∧ w.node = settlement.fromNode ∧
    w.output = settlement.output

/-- The published completion, the event and the reply to the taken completion tell of that write. -/
structure Truthful (ctx : RunContext) : Prop where
  complete : ∀ c, ctx.runComplete = some c → ∃ w, ctx.AcceptedWrite w ∧ Tells w c.outputPath c.persisted
  event : ∀ fromNode result path persisted, .runComplete fromNode result path persisted ∈ ctx.emitted →
    ∃ w, ctx.AcceptedWrite w ∧ Tells w path persisted
  reply : ctx.runCompleteTaken = true → ∀ reply ∈ ctx.replies,
    ∃ w, ctx.AcceptedWrite w ∧ ∃ persisted, reply.persisted = some persisted ∧ Tells w reply.outputPath persisted

theorem Published.accepted (h : Published ctx w c) : ctx.AcceptedWrite w := by
  obtain ⟨settlement,hs,-,hnode,houtput,-⟩ := h.settlement
  exact ⟨h.writes,settlement,hs,hnode,houtput⟩

theorem Unpublished.truthful (h : Unpublished ctx) : Truthful ctx := by
  constructor
  · intro c hc
    rw [h.complete] at hc
    cases hc
  · intro fromNode result path persisted he
    exact absurd he (h.event _ _ _ _)
  · intro ht
    rw [h.taken] at ht
    cases ht

theorem Published.truthful (h : Published ctx w c) (ht : Tells w c.outputPath c.persisted) : Truthful ctx := by
  constructor
  · intro c' hc
    obtain hn | hs := h.complete
    · rw [hn] at hc
      cases hc
    · rw [hs] at hc
      obtain rfl := Option.some.inj hc
      exact ⟨w,h.accepted,ht⟩
  · intro fromNode result path persisted he
    obtain ⟨rfl,rfl⟩ := h.event _ _ _ _ he
    exact ⟨w,h.accepted,ht⟩
  · intro htaken reply hr
    obtain ⟨hp,ho⟩ := h.reply htaken reply hr
    exact ⟨w,h.accepted,_,hp,ho ▸ ht⟩

/-! Steps that publish nothing. -/

/-- What has been published stays, but a completion may be withdrawn. -/
structure Keeps (ctx ctx' : RunContext) : Prop where
  settlement : ctx'.terminalSettlement = ctx.terminalSettlement
  writes : ctx'.resultWrites = ctx.resultWrites
  complete : ctx'.runComplete = none ∨ ctx'.runComplete = ctx.runComplete
  event : ∀ fromNode result path persisted, .runComplete fromNode result path persisted ∈ ctx'.emitted →
    .runComplete fromNode result path persisted ∈ ctx.emitted
  grows : ctx.emitted ⊆ ctx'.emitted
  pending : ctx.terminalSettlement ≠ none → ctx.pendingCompletion = none → ctx'.pendingCompletion = none
  taken : ctx'.runCompleteTaken = ctx.runCompleteTaken
  active : ctx'.active = ctx.active
  replies : ctx'.replies = ctx.replies

theorem Keeps.refl (ctx : RunContext) : Keeps ctx ctx :=
  ⟨rfl,rfl,.inr rfl,fun _ _ _ _ h => h,List.Subset.refl _,fun _ h => h,rfl,rfl,rfl⟩

theorem Keeps.trans {ctx'' : RunContext} (h : Keeps ctx ctx') (h' : Keeps ctx' ctx'') : Keeps ctx ctx'' := by
  refine ⟨h'.settlement.trans h.settlement,h'.writes.trans h.writes,?_,?_,List.Subset.trans h.grows h'.grows,?_,
    h'.taken.trans h.taken,h'.active.trans h.active,h'.replies.trans h.replies⟩
  · obtain hn | hc := h'.complete
    · exact .inl hn
    · rw [hc]
      exact h.complete
  · intro fromNode result path persisted he
    exact h.event _ _ _ _ (h'.event _ _ _ _ he)
  · intro hs hp
    apply h'.pending
    · rw [h.settlement]
      exact hs
    · exact h.pending hs hp

theorem Keeps.unpublished (h : Keeps ctx ctx') (hu : Unpublished ctx) : Unpublished ctx' := by
  refine ⟨h.settlement.trans hu.settlement,h.writes.trans hu.writes,?_,?_,h.taken.trans hu.taken,?_⟩
  · obtain hn | hs := h.complete
    · exact hn
    · exact hs.trans hu.complete
  · intro fromNode result path persisted he
    exact hu.event _ _ _ _ (h.event _ _ _ _ he)
  · rw [h.active,h.replies]
    exact hu.unanswered

theorem Keeps.published (h : Keeps ctx ctx') (hp : Published ctx w c) : Published ctx' w c := by
  obtain ⟨settlement,hs,hrest⟩ := hp.settlement
  refine ⟨⟨settlement,h.settlement.trans hs,hrest⟩,h.writes.trans hp.writes,?_,?_,?_,?_,?_,?_⟩
  · obtain hn | hc := h.complete
    · exact .inl hn
    · rw [hc]
      exact hp.complete
  · intro fromNode result path persisted he
    exact hp.event _ _ _ _ (h.event _ _ _ _ he)
  · exact h.pending (by simp [hs]) hp.pending
  · rw [h.taken,h.replies]
    exact hp.reply
  · rw [h.active,h.taken]
    exact hp.untaken
  · rw [h.active,h.replies]
    exact hp.unanswered

theorem keeps_persistOutput {node : String} {output : LuaValue} :
    Keeps ctx (persistOutput run host false node output ctx).1 := by
  unfold persistOutput
  split
  · simp only
    split
    · exact ⟨rfl,by simp [resultWrites],.inr rfl,fun _ _ _ _ h => h,List.Subset.refl _,fun _ h => h,rfl,rfl,rfl⟩
    · exact ⟨rfl,by simp [resultWrites],.inr rfl,fun _ _ _ _ h => h,List.Subset.refl _,fun _ h => h,rfl,rfl,rfl⟩
  · exact ⟨rfl,by simp [resultWrites],.inr rfl,fun _ _ _ _ h => h,List.Subset.refl _,fun _ h => h,rfl,rfl,rfl⟩

theorem keeps_emitEvent {event : RunEvent} (h : ∀ fromNode result path persisted,
    event ≠ .runComplete fromNode result path persisted) : Keeps ctx (emitEvent event ctx) := by
  cases event with
  | runComplete fromNode result path persisted => exact absurd rfl (h _ _ _ _)
  | _ =>
    exact ⟨rfl,rfl,.inr rfl,fun _ _ _ _ h => by simpa [emitEvent] using h,List.subset_append_left _ _,fun _ h => h,
      rfl,rfl,rfl⟩

/-- A change of what does not belong to the publication. -/
theorem keeps_change (hsettlement : ctx'.terminalSettlement = ctx.terminalSettlement) (hwrites : ctx'.writes = ctx.writes)
    (hcomplete : ctx'.runComplete = none ∨ ctx'.runComplete = ctx.runComplete) (hemitted : ctx'.emitted = ctx.emitted)
    (hpending : ctx.pendingCompletion = none → ctx'.pendingCompletion = none)
    (htaken : ctx'.runCompleteTaken = ctx.runCompleteTaken) (hactive : ctx'.active = ctx.active)
    (hreplies : ctx'.replies = ctx.replies) : Keeps ctx ctx' := by
  refine ⟨hsettlement,?_,hcomplete,?_,?_,fun _ => hpending,htaken,hactive,hreplies⟩
  · rw [resultWrites,hwrites]
    rfl
  · rw [hemitted]
    exact fun _ _ _ _ h => h
  · rw [hemitted]
    exact List.Subset.refl _

/-! The publication. -/

/-- What the path and the flag say is what the write did: the file was opened and written, or
neither this write nor an earlier one has left a path. -/
def Faithful (run : RunMeta) (host : Host) (node : String) (output : LuaValue) (ctx : RunContext) : Prop :=
  run.persistence = true ∧ (openedPath host (persistBody run node) output).isSome = true ∧ host.written = true ∨
    (run.persistence = true → openedPath host (persistBody run node) output = none ∧ pathOf output = none) ∧
      ctx.lastOutputPath = none

instance {node : String} {output : LuaValue} : Decidable (Faithful run host node output ctx) :=
  inferInstanceAs (Decidable (_ ∨ _))

/-- The write that a persisted output adds. -/
theorem persistOutput_write {ofResult : Bool} {node : String} {output : LuaValue} : ∃ w,
    (persistOutput run host ofResult node output ctx).1 =
      { ctx with
        lastOutputPath := (persistOutput run host ofResult node output ctx).1.lastOutputPath
        writes := ctx.writes ++ [w] } ∧
      w.node = node ∧ w.output = output ∧ w.ofResult = ofResult ∧
      ((persistOutput run host ofResult node output ctx).1.lastOutputPath = w.landed ↔ Faithful run host node output ctx) := by
  unfold persistOutput Faithful
  split
  · rename_i hpersistence
    refine ⟨⟨node,output,ofResult,landedPath host (persistBody run node) output⟩,?_,rfl,rfl,rfl,?_⟩
    · simp only
      split
      · rfl
      · rfl
    · simp only [pathOf_persist,landedPath,hpersistence,true_and,forall_const]
      cases openedPath host (persistBody run node) output with
      | some path => cases host.written <;> simp
      | none => cases pathOf output <;> simp
  · rename_i hpersistence
    exact ⟨⟨node,output,ofResult,none⟩,rfl,rfl,rfl,rfl,by simp [hpersistence]⟩

theorem tells_iff {path : Option String} : Tells w path path.isSome ↔ path = w.landed := by
  constructor
  · exact fun h => h.1
  · intro h
    exact ⟨h,by rw [h]⟩

theorem publishCompletion_published {settlement : Settlement} (hu : Unpublished ctx)
    (hpending : ctx.pendingCompletion = none) : ∃ w c,
      Published (publishCompletion run host settlement ctx) w c ∧
      (Tells w c.outputPath c.persisted ↔ Faithful run host settlement.fromNode settlement.output ctx) ∧
      .runComplete settlement.fromNode settlement.result c.outputPath c.persisted ∈
        (publishCompletion run host settlement ctx).emitted := by
  obtain ⟨w,hctx,hnode,houtput,hresult,hiff⟩ :=
    @persistOutput_write run host ctx true settlement.fromNode settlement.output
  unfold publishCompletion
  rw [hctx]
  refine ⟨w,⟨_,_,settlement.result⟩,⟨⟨_,rfl,rfl,hnode,houtput,rfl⟩,?_,.inr rfl,?_,hpending,?_,fun _ => hu.taken,hu.unanswered⟩,
    tells_iff.trans hiff,?_⟩
  · have hw := hu.writes
    unfold resultWrites at hw ⊢
    simp [emitEvent,hw,hresult]
  · intro fromNode result path persisted he
    obtain hold | hnew := List.mem_append.mp he
    · exact absurd hold (hu.event _ _ _ _)
    · simp only [List.mem_singleton,RunEvent.runComplete.injEq] at hnew
      exact hnew.2.2
  · intro ht
    exact absurd (hu.taken.symm.trans ht) (by decide)
  · simp [emitEvent]

/-! Which steps publish. -/

/-- A result is accepted and nothing defers it. -/
structure Immediate (run : RunMeta) (ctx : RunContext) : Prop where
  error : ctx.operationError = none
  failed : ctx.operationFailed = false
  settlement : ctx.terminalSettlement = none
  pending : ctx.pendingCompletion = none
  operations : run.operations = []
  draining : ctx.operationDraining = false
  queue : ctx.operationQueue = []

theorem settleResult_immediate {node : String} {result persistedResult : LuaValue} (h : Immediate run ctx) :
    settleResult run host node result persistedResult ctx =
      publishCompletion run host ⟨node,result,persistedResult,none⟩ ctx := by
  simp [settleResult,h.error,h.failed,h.settlement,h.pending,h.operations,h.draining,h.queue]

/-- Otherwise a result is ignored or waits. -/
theorem settleResult_keeps {node : String} {result persistedResult : LuaValue} (h : ¬ Immediate run ctx) :
    Keeps ctx (settleResult run host node result persistedResult ctx) ∧
      ¬ Immediate run (settleResult run host node result persistedResult ctx) := by
  unfold settleResult
  split
  · exact ⟨Keeps.refl ctx,h⟩
  · rename_i hfailed
    obtain ⟨herror,hfailed⟩ : ctx.operationError = none ∧ ctx.operationFailed = false := by simpa using hfailed
    split
    · refine ⟨keeps_emitEvent (by simp),fun hi => h ?_⟩
      exact ⟨hi.error,hi.failed,hi.settlement,hi.pending,hi.operations,hi.draining,hi.queue⟩
    · rename_i hnone
      obtain ⟨hsettlement,hpending⟩ := Option.or_eq_none_iff.mp hnone
      simp only
      split
      · refine ⟨⟨rfl,rfl,.inr rfl,fun _ _ _ _ h => h,List.Subset.refl _,fun hs => absurd hsettlement hs,rfl,rfl,rfl⟩,fun hi => ?_⟩
        cases hi.pending
      · rename_i hidle
        have hall : run.operations = [] ∧ ctx.operationDraining = false ∧ ctx.operationQueue = [] := by
          simpa [and_assoc] using hidle
        exact absurd ⟨herror,hfailed,hsettlement,hpending,hall.1,hall.2.1,hall.2.2⟩ h

theorem settleResults_keeps {node : String} {results : List LuaValue} (h : ¬ Immediate run ctx) :
    Keeps ctx (results.foldl (fun ctx result => settleResult run host node result result ctx) ctx) := by
  induction results generalizing ctx with
  | nil => exact Keeps.refl ctx
  | cons result results ih =>
    obtain ⟨hkeeps,hnot⟩ := @settleResult_keeps run host ctx node result result h
    exact hkeeps.trans (ih hnot)

/-- The result that a step publishes. -/
inductive Publishes (run : RunMeta) (ctx : RunContext) : Act → Host → Settlement → Prop
  | output {host : Host} {node wire : String} {source : Arrival} {result : LuaValue} {results : List LuaValue} :
    Immediate run ctx → ctx.runFailed = none →
    Publishes run ctx (.output host node wire source (result :: results)) host ⟨node,result,result,none⟩
  | settle {host : Host} {node : String} {result persistedResult : LuaValue} : Immediate run ctx →
    Publishes run ctx (.settle host node result persistedResult) host ⟨node,result,persistedResult,none⟩
  | drained {host : Host} {settlement : Settlement} : ctx.operationFailed = false →
    ctx.pendingCompletion = some settlement → Publishes run ctx (.drained host) host settlement

theorem triggers_nil (h : run.operations = []) (node wire : String) (output : LuaValue) (n : Nat) :
    triggers run node wire output n = [] := by
  simp [triggers,h]

/-- An output that is not refused leaves what decides on publication. -/
theorem observe_immediate {node wire : String} {output : LuaValue}
    (h : observeTypedOutput run node wire output ctx = some ctx') :
    Keeps ctx ctx' ∧ ctx.runFailed = none ∧ ctx'.lastOutputPath = ctx.lastOutputPath ∧
      (Immediate run ctx' ↔ Immediate run ctx) := by
  unfold observeTypedOutput at h
  split at h
  · cases h
  · rename_i hfailed
    obtain ⟨hoperation,hrun⟩ : ctx.operationFailed = false ∧ ctx.runFailed = none := by simpa using hfailed
    obtain rfl := Option.some.inj h
    refine ⟨⟨rfl,rfl,.inr rfl,fun _ _ _ _ h => h,List.Subset.refl _,fun _ h => h,rfl,rfl,rfl⟩,hrun,rfl,?_,?_⟩
    · intro hi
      exact ⟨hi.error,hi.failed,hi.settlement,hi.pending,hi.operations,hi.draining,
        (List.append_eq_nil_iff.mp hi.queue).1⟩
    · intro hi
      refine ⟨hi.error,hi.failed,hi.settlement,hi.pending,hi.operations,hi.draining,?_⟩
      rw [triggers_nil hi.operations,hi.queue]
      rfl

/-- A step publishes in one place, between changes that keep what has been published. -/
structure Publication (run : RunMeta) (host : Host) (settlement : Settlement) (ctx ctx' : RunContext) : Prop where
  split : ∃ base, Keeps ctx base ∧ base.pendingCompletion = none ∧ base.lastOutputPath = ctx.lastOutputPath ∧
    Keeps (publishCompletion run host settlement base) ctx'

theorem publishCompletion_not_immediate {settlement : Settlement} :
    ¬ Immediate run (publishCompletion run host settlement ctx) := by
  intro h
  cases h.settlement

theorem next_output {node wire : String} {source : Arrival} {results : List LuaValue} :
    (∀ host' settlement, ¬ Publishes run ctx (.output host node wire source results) host' settlement) ∧
      Keeps ctx (routeOutput run host node wire source results ctx) ∨
    ∃ settlement, Publishes run ctx (.output host node wire source results) host settlement ∧
      Publication run host settlement ctx (routeOutput run host node wire source results ctx) := by
  unfold routeOutput
  cases hobserve : observeTypedOutput run node wire source.observed ctx with
  | none =>
    refine .inl ⟨fun host' settlement hp => ?_,Keeps.refl ctx⟩
    cases hp with
    | output hi hrun => simp [observeTypedOutput,hi.failed,hrun] at hobserve
  | some base =>
    obtain ⟨hkeeps,hrun,hpath,hiff⟩ := observe_immediate hobserve
    cases results with
    | nil =>
      refine .inl ⟨fun host' settlement hp => ?_,hkeeps.trans keeps_persistOutput⟩
      cases hp
    | cons result results =>
      by_cases hi : Immediate run ctx
      · have hbase := hiff.mpr hi
        refine .inr ⟨_,.output hi hrun,⟨base,hkeeps,hbase.pending,hpath,?_⟩⟩
        simp only [List.isEmpty_cons,Bool.false_eq_true,if_false,List.foldl_cons,settleResult_immediate hbase]
        exact settleResults_keeps publishCompletion_not_immediate
      · refine .inl ⟨fun host' settlement hp => ?_,hkeeps.trans ?_⟩
        · cases hp with
          | output hi' _ => exact hi hi'
        · exact settleResults_keeps fun hi' => hi (hiff.mp hi')

/-- A step keeps what has been published or publishes one result. -/
theorem next_cases (h : Next run ctx act ctx') (hact : act ≠ .settleRun) :
    (∀ host settlement, ¬ Publishes run ctx act host settlement) ∧ Keeps ctx ctx' ∨
      ∃ host settlement, Publishes run ctx act host settlement ∧ Publication run host settlement ctx ctx' := by
  cases h with
  | output =>
    obtain hk | ⟨settlement,hp,hpub⟩ := next_output
    · exact .inl hk
    · exact .inr ⟨_,settlement,hp,hpub⟩
  | write =>
    refine .inl ⟨fun host settlement hp => ?_,keeps_persistOutput⟩
    cases hp
  | settle =>
    by_cases hi : Immediate run ctx
    · refine .inr ⟨_,_,.settle hi,⟨ctx,Keeps.refl ctx,hi.pending,rfl,?_⟩⟩
      rw [settleResult_immediate hi]
      exact Keeps.refl _
    · refine .inl ⟨fun host settlement hp => ?_,(settleResult_keeps hi).1⟩
      cases hp with
      | settle hi' => exact hi hi'
  | event =>
    refine .inl ⟨fun host settlement hp => ?_,keeps_emitEvent (by simp)⟩
    cases hp
  | fail =>
    refine .inl ⟨fun host settlement hp => ?_,keeps_emitEvent (by simp)⟩
    cases hp
  | drain =>
    refine .inl ⟨fun host settlement hp => ?_,keeps_change rfl rfl (.inr rfl) rfl id rfl rfl rfl⟩
    cases hp
  | trigger =>
    refine .inl ⟨fun host settlement hp => ?_,keeps_change rfl rfl (.inr rfl) rfl id rfl rfl rfl⟩
    cases hp
  | triggerFailed =>
    refine .inl ⟨fun host settlement hp => ?_,keeps_change rfl rfl (.inl rfl) rfl (fun _ => rfl) rfl rfl rfl⟩
    cases hp
  | drained hdraining hend =>
    unfold settleQuiescent
    simp only
    split
    · rename_i hfailed
      apply Or.inl
      refine ⟨fun host settlement hp => ?_,keeps_change rfl rfl (.inl rfl) rfl (fun _ => rfl) rfl rfl rfl⟩
      cases hp with
      | drained hok _ => simp [hok] at hfailed
    · rename_i hfailed
      have hqueue := hend.resolve_left hfailed
      cases hpending : ctx.pendingCompletion with
      | none =>
        refine .inl ⟨fun host settlement hp => ?_,keeps_change rfl rfl (.inr rfl) rfl (fun _ => rfl) rfl rfl rfl⟩
        cases hp with
        | drained _ hsome =>
          rw [hpending] at hsome
          cases hsome
      | some settlement =>
        refine .inr ⟨_,settlement,.drained (by simpa using hfailed) hpending,
          ⟨{ ctx with operationDraining := false, pendingCompletion := none },?_,rfl,rfl,?_⟩⟩
        · exact keeps_change rfl rfl (.inr rfl) rfl (fun _ => rfl) rfl rfl rfl
        · simp only [hqueue,List.isEmpty_nil,Bool.not_false,Bool.and_self,if_true]
          exact Keeps.refl _
  | failOutput =>
    refine .inl ⟨fun host settlement hp => ?_,keeps_change rfl rfl (.inr rfl) rfl id rfl rfl rfl⟩
    cases hp
  | settleRun => exact absurd rfl hact

/-- A reply to a run without a completion. -/
theorem send_unpublished {reply : Reply} (hu : Unpublished ctx) : Unpublished (send reply ctx) :=
  ⟨hu.settlement,hu.writes,hu.complete,hu.event,hu.taken,fun ha => by cases ha⟩

/-- The first reply to a run with a completion. -/
theorem send_published {reply : Reply} (hp : Published ctx w c) (hr : ctx.replies = [])
    (hreply : ctx.runCompleteTaken = true → reply.persisted = some c.persisted ∧ reply.outputPath = c.outputPath) :
    Published (send reply ctx) w c := by
  refine ⟨hp.settlement,hp.writes,hp.complete,hp.event,hp.pending,fun ht reply' hmem => ?_,fun ha => ?_,fun ha => ?_⟩
  · rw [send,hr] at hmem
    obtain rfl := List.mem_singleton.mp hmem
    exact hreply ht
  · cases ha
  · cases ha

theorem settleRun_unpublished (hu : Unpublished ctx) : Unpublished ctx.settleRun := by
  have htake : ctx.takeRunComplete = none := by
    rw [takeRunComplete,hu.complete,ite_self]
  unfold settleRun
  rw [htake]
  split
  · simp only
    split
    · exact send_unpublished hu
    · split
      · exact send_unpublished ⟨hu.settlement,hu.writes,hu.complete,hu.event,hu.taken,hu.unanswered⟩
      · exact hu
  · exact hu

/-- The host replies once, with the completion that it takes. -/
theorem settleRun_published (hp : Published ctx w c) : Published ctx.settleRun w c := by
  unfold settleRun
  split
  · rename_i hactive
    have hr := hp.unanswered hactive
    have htaken := hp.untaken hactive
    have hnot : ∀ {p : Prop}, ctx.runCompleteTaken = true → p := fun ht => by simp [ht] at htaken
    have htake : ctx.takeRunComplete = ctx.runComplete := by
      rw [takeRunComplete,htaken,if_neg (by decide)]
    obtain hn | hc := hp.complete
    · rw [htake.trans hn]
      simp only
      split
      · exact send_published hp hr hnot
      · split
        · exact send_published ⟨hp.settlement,hp.writes,hp.complete,hp.event,hp.pending,hp.reply,hp.untaken,
            hp.unanswered⟩ hr hnot
        · exact hp
    · rw [htake.trans hc]
      simp only
      refine ⟨hp.settlement,hp.writes,?_,hp.event,hp.pending,fun _ reply hmem => ?_,fun ha => ?_,fun ha => ?_⟩
      · exact .inr hc
      · rw [send,hr] at hmem
        obtain rfl := List.mem_singleton.mp hmem
        split
        · exact ⟨rfl,rfl⟩
        · exact ⟨rfl,rfl⟩
      · cases ha
      · cases ha
  · exact hp

/-! Runs. -/

/-- The step publishes nothing or a path and a flag that its write decides. -/
def Honest (run : RunMeta) (ctx : RunContext) (act : Act) : Prop :=
  ∀ host settlement, Publishes run ctx act host settlement →
    Faithful run host settlement.fromNode settlement.output ctx

theorem new_unpublished : Unpublished new := ⟨rfl,rfl,rfl,fun _ _ _ _ h => (by cases h),rfl,fun _ => rfl⟩

/-- Only a run that has published nothing publishes. -/
theorem Publishes.unpublished {settlement : Settlement} (h : Publishes run ctx act host settlement)
    (hp : Published ctx w c) : False := by
  obtain ⟨accepted,haccepted,-⟩ := hp.settlement
  cases h with
  | output hi _ =>
    rw [hi.settlement] at haccepted
    cases haccepted
  | settle hi =>
    rw [hi.settlement] at haccepted
    cases haccepted
  | drained _ hpending =>
    rw [hp.pending] at hpending
    cases hpending

theorem faithful_congr {node : String} {output : LuaValue} (h : ctx'.lastOutputPath = ctx.lastOutputPath) :
    Faithful run host node output ctx' ↔ Faithful run host node output ctx := by
  rw [Faithful,Faithful,h]

theorem Publication.published {settlement : Settlement} (h : Publication run host settlement ctx ctx')
    (hu : Unpublished ctx) : ∃ w c, Published ctx' w c ∧
      (Tells w c.outputPath c.persisted ↔ Faithful run host settlement.fromNode settlement.output ctx) ∧
      .runComplete settlement.fromNode settlement.result c.outputPath c.persisted ∈ ctx'.emitted := by
  obtain ⟨base,hbase,hpending,hpath,hkeeps⟩ := h.split
  obtain ⟨w,c,hpublished,hiff,hevent⟩ :=
    @publishCompletion_published run host base settlement (hbase.unpublished hu) hpending
  exact ⟨w,c,hkeeps.published hpublished,hiff.trans (faithful_congr hpath),hkeeps.grows hevent⟩

/-- A run has published nothing, or one completion. -/
theorem next_published (h : Next run ctx act ctx') (hi : Unpublished ctx ∨ ∃ w c, Published ctx w c) :
    Unpublished ctx' ∨ ∃ w c, Published ctx' w c := by
  by_cases hact : act = .settleRun
  · rw [hact] at h
    cases h
    obtain hu | ⟨w,c,hp⟩ := hi
    · exact .inl (settleRun_unpublished hu)
    · exact .inr ⟨w,c,settleRun_published hp⟩
  · obtain ⟨-,hkeeps⟩ | ⟨host,settlement,hpublishes,hpublication⟩ := next_cases h hact
    · exact hi.imp hkeeps.unpublished fun ⟨w,c,hp⟩ => ⟨w,c,hkeeps.published hp⟩
    · obtain hu | ⟨w,c,hp⟩ := hi
      · obtain ⟨w,c,hp,-⟩ := hpublication.published hu
        exact .inr ⟨w,c,hp⟩
      · exact absurd hp fun hp => hpublishes.unpublished hp

theorem next_tells (h : Next run ctx act ctx') (hhonest : Honest run ctx act)
    (hi : Unpublished ctx ∨ ∃ w c, Published ctx w c ∧ Tells w c.outputPath c.persisted) :
    Unpublished ctx' ∨ ∃ w c, Published ctx' w c ∧ Tells w c.outputPath c.persisted := by
  by_cases hact : act = .settleRun
  · rw [hact] at h
    cases h
    obtain hu | ⟨w,c,hp,ht⟩ := hi
    · exact .inl (settleRun_unpublished hu)
    · exact .inr ⟨w,c,settleRun_published hp,ht⟩
  · obtain ⟨-,hkeeps⟩ | ⟨host,settlement,hpublishes,hpublication⟩ := next_cases h hact
    · exact hi.imp hkeeps.unpublished fun ⟨w,c,hp,ht⟩ => ⟨w,c,hkeeps.published hp,ht⟩
    · obtain hu | ⟨w,c,hp,-⟩ := hi
      · obtain ⟨w,c,hp,hiff,-⟩ := hpublication.published hu
        exact .inr ⟨w,c,hp,hiff.mpr (hhonest host settlement hpublishes)⟩
      · exact absurd hp fun hp => hpublishes.unpublished hp

theorem Publishes.unique {host' : Host} {settlement settlement' : Settlement} (h : Publishes run ctx act host settlement)
    (h' : Publishes run ctx act host' settlement') : host' = host ∧ settlement' = settlement := by
  cases h with
  | output _ _ =>
    cases h'
    exact ⟨rfl,rfl⟩
  | settle _ =>
    cases h'
    exact ⟨rfl,rfl⟩
  | drained _ hpending =>
    cases h' with
    | drained _ hpending' =>
      rw [hpending] at hpending'
      exact ⟨rfl,(Option.some.inj hpending').symm⟩

/-- A step that publishes against its write leaves a run that does not tell the truth. -/
theorem not_truthful (h : Next run ctx act ctx') (hi : Unpublished ctx ∨ ∃ w c, Published ctx w c)
    (hdishonest : ¬ Honest run ctx act) : ¬ Truthful ctx' := by
  intro htruthful
  apply hdishonest
  intro host settlement hpublishes
  have hact : act ≠ .settleRun := by
    intro hact
    rw [hact] at hpublishes
    cases hpublishes
  obtain ⟨hno,-⟩ | ⟨host',settlement',hpublishes',hpublication⟩ := next_cases h hact
  · exact absurd hpublishes (hno _ _)
  · obtain ⟨rfl,rfl⟩ := hpublishes.unique hpublishes'
    obtain hu | ⟨w,c,hp⟩ := hi
    · obtain ⟨w,c,hp,hiff,hevent⟩ := hpublication.published hu
      obtain ⟨w',haccepted,htells⟩ := htruthful.event _ _ _ _ hevent
      have hw : w = w' := by simpa [hp.writes] using haccepted.only
      exact hiff.mp (hw ▸ htells)
    · exact absurd hp fun hp => hpublishes.unpublished hp

/-- The completion, the event and the reply tell of the result's own write in every state of a run
whose steps publish faithfully, and the first step that does not ends this. -/
theorem settlement_truthful (run : RunMeta) (acts : List Act) (ctx : RunContext)
    (h : Trace (fun ctx act ctx' => Honest run ctx act ∧ Next run ctx act ctx') new acts ctx) :
    Truthful ctx ∧ ∀ act ctx', Next run ctx act ctx' → ¬ Honest run ctx act → ¬ Truthful ctx' := by
  have htells : Unpublished ctx ∨ ∃ w c, Published ctx w c ∧ Tells w c.outputPath c.persisted :=
    Trace.preserves (P := fun ctx => Unpublished ctx ∨ ∃ w c, Published ctx w c ∧ Tells w c.outputPath c.persisted)
      (fun _ _ _ hi hstep => next_tells hstep.2 hstep.1 hi) h (.inl new_unpublished)
  constructor
  · obtain hu | ⟨w,c,hp,ht⟩ := htells
    · exact hu.truthful
    · exact hp.truthful ht
  · intro act ctx' hnext
    exact not_truthful hnext (htells.imp_right fun ⟨w,c,hp,_⟩ => ⟨w,c,hp⟩)

/-- The only result is written where the host can write. -/
theorem settlement_truthful_written :
    Truthful (settleResult ⟨"run",some "session",true,[],fun _ _ => true⟩ ⟨some "/data",none,true,true,true⟩ "sink"
      (.table false [(.str "text",.str "done")]) .nil new) ∧
    ∀ act ctx', Next ⟨"run",some "session",true,[],fun _ _ => true⟩
      (settleResult ⟨"run",some "session",true,[],fun _ _ => true⟩ ⟨some "/data",none,true,true,true⟩ "sink"
        (.table false [(.str "text",.str "done")]) .nil new) act ctx' →
      ¬ Honest ⟨"run",some "session",true,[],fun _ _ => true⟩
        (settleResult ⟨"run",some "session",true,[],fun _ _ => true⟩ ⟨some "/data",none,true,true,true⟩ "sink"
          (.table false [(.str "text",.str "done")]) .nil new) act → ¬ Truthful ctx' := by
  refine settlement_truthful _ [.settle ⟨some "/data",none,true,true,true⟩ "sink" (.table false [(.str "text",.str "done")])
    .nil] _ (.single ⟨?_,.settle⟩)
  intro host settlement hpublishes
  cases hpublishes with
  | settle _ => decide

/-- A node is written; the result is not, where no directory can be made any more. -/
theorem settlement_untruthful : ¬ ∀ run acts ctx, Trace (Next run) new acts ctx → Truthful ctx := by
  intro h
  have hstep : Next ⟨"run",some "session",true,[],fun _ _ => true⟩
      (persistOutput ⟨"run",some "session",true,[],fun _ _ => true⟩ ⟨some "/data",none,true,true,true⟩ false "worker"
        (.table false [(.str "text",.str "draft")]) new).1
      (.settle ⟨some "/data",none,false,true,true⟩ "sink" (.table false [(.str "text",.str "done")]) .nil) _ := .settle
  refine not_truthful hstep (.inl (keeps_persistOutput.unpublished new_unpublished)) ?_
    (h _ _ _ (.cons .write (.single hstep)))
  intro hhonest
  have himmediate : Immediate ⟨"run",some "session",true,[],fun _ _ => true⟩
      (persistOutput ⟨"run",some "session",true,[],fun _ _ => true⟩ ⟨some "/data",none,true,true,true⟩ false "worker"
        (.table false [(.str "text",.str "draft")]) new).1 := ⟨rfl,rfl,rfl,rfl,rfl,rfl,rfl⟩
  have hfaithful := hhonest _ _ (.settle himmediate)
  revert hfaithful
  decide

end Nefor.Kernel.RunContext
