import Nefor.Ncp.Teardown

/-! The last lines of a plugin reach Lua before its end is reported, provided that they were received
before the exit of its process was heard of. -/
namespace Nefor.Ncp
open Broker

/-! What is read off a history. -/

def Event.passed (name : PluginName) : Event → List String
  | .entered (.fromPlugin source lines) _ _ => if source = name then lines else []
  | _ => []

/-- The lines of a plugin that were passed to Lua, in order. -/
def passed (name : PluginName) (h : History) : List String := h.flatMap (Event.passed name)

def Event.message? (id : ConnectionId) : Event → Option ConnectionInbound
  | .received other message => if other = id then some message else none
  | _ => none

/-- What was received from the reader of a connection, in order. -/
def receivedFrom (id : ConnectionId) (h : History) : List ConnectionInbound :=
  h.filterMap (Event.message? id)

def Event.disturbs (id : ConnectionId) : Event → Bool
  | .shutdownRequested _ => true
  | .transportFailed other => other = id
  | _ => false

/-- No shutdown was requested, and the transport of the connection did not fail. -/
def Calm (h : History) (id : ConnectionId) : Prop := ∀ e ∈ h, e.disturbs id = false

instance (h : History) (id : ConnectionId) : Decidable (Calm h id) := by
  unfold Calm
  infer_instance

/-- Every line that the plugin wrote was received. -/
def Drained (h : History) (c : Connection) : Prop := linesOf (receivedFrom c.id h) = c.output.lines

/-- The exit of the process is heard of only after all its lines. -/
def ExitsDrained (h : History) (c : Connection) : Prop :=
  Throughout (fun before e => ∀ outcome, e = .exited c.id outcome → Drained before c) h

/-- The last words of a connection: when its end is reported, all its lines were passed; and no line
is passed once its transport failed. -/
structure LastWords (h : History) (c : Connection) : Prop where
  told : Throughout (fun before e => ∀ outcome,
    e = .published (.engine (.processTerminated c.name outcome)) → Calm before c.id →
      ExitsDrained before c → passed c.name before = c.output.lines) h
  unheard : Throughout (fun before e => ∀ lines routed opened,
    e = .entered (.fromPlugin c.name lines) routed opened → .transportFailed c.id ∉ before) h

@[simp] theorem passed_append (name : PluginName) (h k : History) :
    passed name (h ++ k) = passed name h ++ passed name k := List.flatMap_append

@[simp] theorem receivedFrom_append (id : ConnectionId) (h k : History) :
    receivedFrom id (h ++ k) = receivedFrom id h ++ receivedFrom id k := List.filterMap_append

theorem Calm.of_prefix {h k : History} {id : ConnectionId} (hc : Calm k id) (hk : h <+: k) :
    Calm h id := fun e he => hc e (hk.subset he)

theorem Calm.unrequested {h : History} {id : ConnectionId} (hc : Calm h id)
    (hs : ∃ request, .shutdownRequested request ∈ h) : False := by
  obtain ⟨request,hm⟩ := hs
  have := hc _ hm
  simp [Event.disturbs] at this

theorem Calm.unfailed {h : History} {id : ConnectionId} (hc : Calm h id) :
    .transportFailed id ∉ h := by
  intro hm
  have := hc _ hm
  simp [Event.disturbs] at this

variable {w : World} {setup : Setup} {b b' : Broker} {c : Connection} {id : ConnectionId}

/-! Events of an act. -/

/-- What does not come from a task of a connection. -/
def Event.Outward : Event → Prop
  | .received .. | .exited .. | .entered (.fromPlugin ..) .. => False
  | _ => True

theorem passed_outward {name : PluginName} {h : History} (ho : ∀ e ∈ h, e.Outward) :
    passed name h = [] := by
  apply List.flatMap_eq_nil_iff.mpr
  intro e he
  have := ho e he
  unfold Event.passed
  split
  · exact absurd this fun hf => hf
  · rfl

theorem receivedFrom_outward {h : History} (ho : ∀ e ∈ h, e.Outward) : receivedFrom id h = [] := by
  apply List.filterMap_eq_nil_iff.mpr
  intro e he
  have := ho e he
  unfold Event.message?
  split
  · exact absurd this fun hf => hf
  · rfl

theorem outward_spoken {routed opened : List PluginName} {calls : List Call} {h : History}
    (hs : Spoken routed opened calls h)
    (hcalls : ∀ call ∈ calls, ∀ source lines, call ≠ .fromPlugin source lines) :
    ∀ e ∈ h, e.Outward := by
  intro e he
  obtain ⟨call,hc,rfl⟩ | hlua := hs.mem he
  · cases call with
    | fromPlugin source lines => exact absurd rfl (hcalls _ hc source lines)
    | _ => trivial
  · cases hlua <;> trivial

/-- What an act adds to the history. -/
structure Added (b b' : Broker) (more : History) : Prop where
  history : b'.history = b.history ++ more
  outward : ∀ e ∈ more, e.Outward
  facts : ∀ fact, .published (.engine fact) ∈ more → fact ∈ b.pendingEngineEnvelopes
  failures : ∀ id, .transportFailed id ∈ more → Holds (fun record => record.closing) b' id

theorem Added.none (h : b'.history = b.history) : Added b b' [] :=
  ⟨by rw [h,List.append_nil],fun _ he => absurd he List.not_mem_nil,
    fun _ he => absurd he List.not_mem_nil,fun _ he => absurd he List.not_mem_nil⟩

theorem Added.single {event : Event} (h : b'.history = b.history ++ [event]) (ho : event.Outward)
    (hp : event.published? = Option.none) (hf : ∀ id, event ≠ .transportFailed id) :
    Added b b' [event] := by
  refine ⟨h,?_,?_,?_⟩
  · intro e he
    cases List.mem_singleton.mp he
    exact ho
  · intro fact he
    cases List.mem_singleton.mp he
    cases hp
  · intro id he
    exact absurd (List.mem_singleton.mp he).symm (hf id)

theorem Added.spoken {more : History} {routed opened : List PluginName} {calls : List Call}
    (h : b'.history = b.history ++ more) (hs : Spoken routed opened calls more)
    (hcalls : ∀ call ∈ calls, ∀ source lines, call ≠ .fromPlugin source lines) : Added b b' more := by
  refine ⟨h,outward_spoken hs hcalls,?_,?_⟩
  · intro fact he
    obtain ⟨call,-,heq⟩ | hlua := hs.mem he
    · cases heq
    · cases hlua
  · intro id he
    obtain ⟨call,-,heq⟩ | hlua := hs.mem he
    · cases heq
    · cases hlua

theorem added_fireTerminate (b : Broker) (id : ConnectionId) :
    ∃ more, Added b (b.fireTerminate id) more := by
  unfold Broker.fireTerminate
  split
  · exact ⟨_,.none rfl⟩
  · split
    · exact ⟨_,.single rfl trivial rfl fun _ => Event.noConfusion⟩
    · exact ⟨_,.none rfl⟩

theorem Act.added (h : Act w b b') : ∃ more, Added b b' more := by
  cases h with
  | enter call hcall =>
    obtain ⟨more,heq,hspoken⟩ := enter_spoken w call b
    refine ⟨more,.spoken (by rw [heq]; rfl) hspoken ?_⟩
    intro call' hc source lines
    cases List.mem_singleton.mp hc
    obtain rfl | rfl | rfl := hcall <;> exact Call.noConfusion
  | dispatchTail hlen =>
    obtain ⟨more,heq,hspoken⟩ := dispatchTail_spoken w b
    refine ⟨more,.spoken (by rw [heq]; rfl) hspoken ?_⟩
    intro call' hc source lines
    simp only [List.mem_cons,List.not_mem_nil,or_false] at hc
    obtain rfl | rfl := hc <;> exact Call.noConfusion
  | publishEngineEnvelopes =>
    refine ⟨_,rfl,?_,?_,?_⟩
    · intro e he
      obtain ⟨entry,-,rfl⟩ := List.mem_map.mp he
      trivial
    · intro fact he
      obtain ⟨entry,hentry,heq⟩ := List.mem_map.mp he
      obtain ⟨queued,hqueued,rfl⟩ := List.mem_map.mp hentry
      cases heq
      exact hqueued
    · intro id he
      obtain ⟨entry,-,heq⟩ := List.mem_map.mp he
      cases heq
  | queue fact hfact => exact ⟨_,.none rfl⟩
  | shutdownRequested request => exact ⟨_,.single rfl trivial rfl fun _ => Event.noConfusion⟩
  | forceClose id hid =>
    unfold Broker.forceClose
    split
    · exact ⟨_,.none rfl⟩
    · split
      · exact ⟨_,.none rfl⟩
      · simp only
        split
        · exact ⟨_,.single rfl trivial rfl fun _ => Event.noConfusion⟩
        · exact ⟨_,.none rfl⟩
  | @recordFailure id record phase kind hr hf =>
    refine ⟨[.transportFailed id],rfl,?_,?_,?_⟩
    · intro e he
      cases List.mem_singleton.mp he
      trivial
    · intro fact he
      cases List.mem_singleton.mp he
    · intro other he
      cases List.mem_singleton.mp he
      intro failed hfailed
      rw [recordFailure_connsById,Function.update_self,hr] at hfailed
      cases hfailed
      rfl
  | remove hr hw hc => exact ⟨_,.none rfl⟩
  | expire id =>
    obtain ⟨more,hm⟩ := added_fireTerminate (b.update id _) id
    exact ⟨more,hm.history,hm.outward,hm.facts,hm.failures⟩
  | fireTerminate id => exact added_fireTerminate b id
  | discard hr hw hs => exact ⟨_,.none rfl⟩
  | reportExit hr he => exact ⟨_,.none reportExit_history⟩
  | waits tasks => exact ⟨_,.single rfl trivial rfl fun _ => Event.noConfusion⟩

theorem Act.inbound (h : Act w b b') : b'.inbound = b.inbound := by
  have hfire : ∀ b₀ : Broker, b₀.inbound = b.inbound → ∀ id,
      (b₀.fireTerminate id).inbound = b.inbound := by
    intro b₀ hb id
    unfold Broker.fireTerminate
    split
    · exact hb
    · split <;> exact hb
  cases h with
  | enter call hcall =>
    obtain ⟨more,heq,-⟩ := enter_spoken w call b
    rw [heq]
    rfl
  | dispatchTail hlen =>
    obtain ⟨more,heq,-⟩ := dispatchTail_spoken w b
    rw [heq]
    rfl
  | publishEngineEnvelopes => rfl
  | queue fact hfact => rfl
  | shutdownRequested request => rfl
  | forceClose id hid =>
    unfold Broker.forceClose
    split
    · rfl
    · split
      · rfl
      · simp only
        split <;> rfl
  | recordFailure phase kind hr hf => rfl
  | remove hr hw hc => rfl
  | expire id => exact hfire (b.update id _) rfl id
  | fireTerminate id => exact hfire b rfl id
  | discard hr hw hs => rfl
  | reportExit hr he =>
    unfold Broker.reportExit
    simp only [queue_inbound]
    split <;> rfl
  | waits tasks => rfl

/-! The invariant. -/

/-- While nothing disturbs the connection, it is open until its lines were received, and each of
these was passed. -/
structure Kept (b : Broker) (c : Connection) : Prop where
  opened : ¬ Drained b.history c → ∃ record, b.connsById c.id = some record ∧ record.closing = false
  passed : passed c.name b.history = linesOf (receivedFrom c.id b.history)
  exiting : Holds (fun record => record.pendingExit.isSome → Drained b.history c) b c.id
  reported : ∀ outcome, .processTerminated c.name outcome ∈ b.pendingEngineEnvelopes →
    Drained b.history c

structure Listening (b : Broker) (c : Connection) : Prop where
  fifo : receivedFrom c.id b.history ++ b.inbound c.id = runReader c.output
  silent : .transportFailed c.id ∈ b.history → Holds (fun record => record.closing) b c.id
  words : LastWords b.history c
  kept : Calm b.history c.id → ExitsDrained b.history c → Kept b c

theorem mem_receivedFrom {h : History} {message : ConnectionInbound} :
    message ∈ receivedFrom id h ↔ .received id message ∈ h := by
  constructor
  · intro hm
    obtain ⟨e,he,hmessage⟩ := List.mem_filterMap.mp hm
    unfold Event.message? at hmessage
    split at hmessage
    · split at hmessage
      · rename_i hid
        subst hid
        cases hmessage
        exact he
      · cases hmessage
    · cases hmessage
  · intro hm
    exact List.mem_filterMap.mpr ⟨_,hm,by simp [Event.message?]⟩

/-- No line is left when all were received. -/
theorem Drained.rest {h : History} {rest : List ConnectionInbound} (hd : Drained h c)
    (hr : receivedFrom c.id h ++ rest = runReader c.output) : linesOf rest = [] := by
  have hpre := linesOf_runReader c.output
  rw [← hr,linesOf_append,hd] at hpre
  have hlen := hpre.length_le
  rw [List.length_append] at hlen
  exact List.eq_nil_of_length_eq_zero (by omega)

/-- A good end of the stream comes after all lines. -/
theorem Listening.drained (h : Listening b c) (hc : .received c.id (.closed .eof) ∈ b.history) :
    Drained b.history c := by
  obtain ⟨ls,r,hread,-,heof⟩ := runReader_ends c.output
  have hfifo := h.fifo
  rw [hread] at hfifo
  rcases List.eq_nil_or_concat' (b.inbound c.id) with hnil | ⟨front,last,hlast⟩
  · rw [hnil,List.append_nil] at hfifo
    have hr : r = .eof := by
      have hmem := mem_receivedFrom.mpr hc
      rw [hfifo] at hmem
      rcases List.mem_append.mp hmem with hm | hm
      · obtain ⟨line,-,hline⟩ := List.mem_map.mp hm
        cases hline
      · cases List.mem_singleton.mp hm
        rfl
    rw [Drained,hfifo,← heof hr,linesOf_append,linesOf_map,linesOf_closed,List.append_nil]
  · -- Otherwise the end stands among the lines.
    rw [hlast,← List.append_assoc] at hfifo
    have hfront := (List.append_inj' hfifo rfl).1
    have hmem : ConnectionInbound.closed .eof ∈ ls.map ConnectionInbound.line := by
      rw [← hfront]
      exact List.mem_append_left _ (mem_receivedFrom.mpr hc)
    obtain ⟨line,-,hline⟩ := List.mem_map.mp hmem
    cases hline

namespace Act

/-- An open connection stays open until its lines were received, while nothing disturbs it. -/
theorem opened (h : Act w b b') (hl : Listening b c) (hcalm : Calm b'.history c.id)
    (hdrained : ¬ Drained b.history c)
    (hexit : Holds (fun record => record.pendingExit.isSome → Drained b.history c) b c.id)
    (ho : ∃ record, b.connsById c.id = some record ∧ record.closing = false) :
    ∃ record, b'.connsById c.id = some record ∧ record.closing = false := by
  obtain ⟨record,hrec,hopen⟩ := ho
  have hcalm' : Calm b.history c.id := hcalm.of_prefix h.grows
  have hsame : b'.connsById = b.connsById →
      ∃ record, b'.connsById c.id = some record ∧ record.closing = false :=
    fun hb => ⟨record,by rw [hb]; exact hrec,hopen⟩
  have hother : ∀ {id entry}, b'.connsById = Function.update b.connsById id entry → id ≠ c.id →
      ∃ record, b'.connsById c.id = some record ∧ record.closing = false :=
    fun hb hne => ⟨record,by rw [hb,Function.update_of_ne (Ne.symm hne)]; exact hrec,hopen⟩
  have hchange : ∀ {id} {f : ConnectionRecord → ConnectionRecord},
      b'.connsById = Function.update b.connsById id ((b.connsById id).map f) →
      (f record).closing = record.closing →
      ∃ record, b'.connsById c.id = some record ∧ record.closing = false := by
    intro id f hb hf
    by_cases hid : id = c.id
    · subst hid
      exact ⟨f record,by rw [hb,Function.update_self,hrec]; rfl,hf.trans hopen⟩
    · exact hother hb hid
  cases h with
  | enter call hcall =>
    obtain ⟨more,heq,-⟩ := enter_spoken w call b
    exact hsame (by rw [heq]; rfl)
  | dispatchTail hlen => exact hsame dispatchTail_connsById
  | publishEngineEnvelopes => exact hsame rfl
  | queue fact hfact => exact hsame rfl
  | shutdownRequested request => exact hsame rfl
  | forceClose id htold =>
    refine hother forceClose_connsById ?_
    rintro rfl
    exact htold.elim (fun heof => hdrained (hl.drained heof)) hcalm'.unrequested
  | recordFailure phase kind hr hf =>
    refine hother recordFailure_connsById ?_
    rintro rfl
    exact hcalm.unfailed (by simp [Broker.recordFailure])
  | remove hr hw hc =>
    refine hother rfl ?_
    rintro rfl
    rw [hr] at hrec
    cases hrec
    rw [hopen] at hc
    cases hc
  | expire id => exact hchange expire_connsById rfl
  | fireTerminate id => exact hchange fireTerminate_connsById rfl
  | discard hr hw hs => exact (hcalm'.unrequested hs).elim
  | reportExit hr he =>
    refine hother reportExit_connsById ?_
    rintro rfl
    obtain he | hs := he
    · exact hdrained (hexit _ hr (by simp [he]))
    · exact hcalm'.unrequested hs
  | waits tasks => exact hsame rfl

/-- A process is reported only when its exit was heard of. -/
theorem reported (h : Act w b b') (hb : Books setup b) (hc : c ∈ setup.connections)
    (hcalm : Calm b.history c.id) {outcome : ExitOutcome}
    (hf : .processTerminated c.name outcome ∈ b'.pendingEngineEnvelopes) :
    .processTerminated c.name outcome ∈ b.pendingEngineEnvelopes ∨
      ∃ record, b.connsById c.id = some record ∧ record.pendingExit.isSome := by
  have hfire : ∀ b₀ : Broker, ∀ id,
      (b₀.fireTerminate id).pendingEngineEnvelopes = b₀.pendingEngineEnvelopes := by
    intro b₀ id
    unfold Broker.fireTerminate
    split
    · rfl
    · split <;> rfl
  cases h with
  | enter call hcall =>
    obtain ⟨more,heq,-⟩ := enter_spoken w call b
    rw [heq] at hf
    exact .inl hf
  | dispatchTail hlen =>
    obtain ⟨more,heq,-⟩ := dispatchTail_spoken w b
    rw [heq] at hf
    exact .inl hf
  | publishEngineEnvelopes => cases hf
  | queue fact hfact =>
    obtain hf | hf := List.mem_append.mp hf
    · exact .inl hf
    · obtain rfl | ⟨plugin,count,rfl⟩ := hfact <;> simp at hf
  | shutdownRequested request => exact .inl hf
  | forceClose id htold =>
    unfold Broker.forceClose at hf
    split at hf
    · exact .inl hf
    · split at hf
      · exact .inl hf
      · simp only at hf
        split at hf <;> exact .inl hf
  | recordFailure phase kind hr hfail =>
    obtain hf | hf := List.mem_append.mp hf
    · exact .inl hf
    · simp at hf
  | remove hr hw hclosing => exact .inl hf
  | expire id =>
    rw [Broker.expire,hfire] at hf
    exact .inl hf
  | fireTerminate id =>
    rw [hfire] at hf
    exact .inl hf
  | discard hr hw hs => exact .inl hf
  | @reportExit id record reported hr he =>
    rw [reportExit_pending] at hf
    obtain hf | hf := List.mem_append.mp hf
    · exact .inl hf
    · obtain ⟨d,hd,rfl⟩ := hb.table id record hr
      have hname := ((hb.accounted d hd).present record hr).name
      obtain ⟨hsame,-⟩ := Fact.processTerminated.inj (List.mem_singleton.mp hf)
      have hdc := Setup.eq_of_name hd hc (hname.symm.trans hsame.symm)
      subst hdc
      obtain he | hs := he
      · exact .inr ⟨record,hr,by simp [he]⟩
      · exact (hcalm.unrequested hs).elim
  | waits tasks => exact .inl hf

end Act
/-- An act keeps listening. -/
theorem Listening.act (hl : Listening b c) (h : Act w b b') (hb : Books setup b)
    (hc : c ∈ setup.connections) : Listening b' c := by
  obtain ⟨more,hm⟩ := h.added
  have hgrows := h.grows
  have hreceived : receivedFrom c.id b'.history = receivedFrom c.id b.history := by
    rw [hm.history,receivedFrom_append,receivedFrom_outward hm.outward,List.append_nil]
  have hpassed : passed c.name b'.history = passed c.name b.history := by
    rw [hm.history,passed_append,passed_outward hm.outward,List.append_nil]
  have hdrained : Drained b'.history c ↔ Drained b.history c := by
    rw [Drained,Drained,hreceived]
  refine ⟨?_,?_,⟨?_,?_⟩,?_⟩
  · rw [hreceived,h.inbound]
    exact hl.fifo
  · intro hfail
    rw [hm.history] at hfail
    obtain hfail | hfail := List.mem_append.mp hfail
    · refine h.holds ?_ ?_ ?_ ?_ (hl.silent hfail)
      · intro now record hclosing
        simp [ConnectionRecord.close,hclosing]
      · exact fun _ _ _ => rfl
      · exact fun _ hclosing => hclosing
      · exact fun _ hclosing => hclosing
    · exact hm.failures c.id hfail
  · rw [hm.history]
    refine Throughout.append.mpr ⟨hl.words.told,Throughout.of_forall ?_⟩
    rintro before hbefore e he outcome rfl hcalm hends
    have hkept := hl.kept (hcalm.of_prefix (List.prefix_append _ _))
      (Throughout.of_prefix hends (List.prefix_append _ _))
    rw [passed_append,passed_outward fun e he => hm.outward e (hbefore e he),List.append_nil,
      hkept.passed]
    exact hkept.reported outcome (hm.facts _ he)
  · rw [hm.history]
    refine Throughout.append.mpr ⟨hl.words.unheard,Throughout.of_forall ?_⟩
    rintro before - e he lines routed opened rfl
    exact (hm.outward _ he).elim
  · intro hcalm hends
    have hcalm' := hcalm.of_prefix hgrows
    have hkept := hl.kept hcalm' (Throughout.of_prefix hends hgrows)
    refine ⟨?_,?_,?_,?_⟩
    · intro hopen
      rw [hdrained] at hopen
      exact h.opened hl hcalm hopen hkept.exiting (hkept.opened hopen)
    · rw [hpassed,hreceived]
      exact hkept.passed
    · rw [hdrained]
      refine h.holds ?_ ?_ ?_ ?_ hkept.exiting
      · intro now record hp
        unfold ConnectionRecord.close
        split
        · exact hp
        · exact hp
      · exact fun _ _ hp => hp
      · exact fun _ hp => hp
      · exact fun _ hp => hp
    · intro outcome hf
      rw [hdrained]
      obtain hf | ⟨record,hr,hexit⟩ := h.reported hb hc hcalm' hf
      · exact hkept.reported outcome hf
      · exact hkept.exiting record hr hexit

theorem Listening.acts (hl : Listening b c) (h : Acts w b b') (hb : Books setup b)
    (hc : c ∈ setup.connections) : Listening b' c := by
  induction h with
  | refl => exact hl
  | tail hs h ih => exact ih.act h (hb.acts hs) hc

/-! The inbound tick. -/

/-- The lines a batch holds for a peer. -/
def linesFor (name : PluginName) (lines : List (PluginName × List String)) : List String :=
  lines.flatMap fun peer => if peer.1 = name then peer.2 else []

theorem linesFor_of_not_mem {name : PluginName} {lines : List (PluginName × List String)}
    (h : name ∉ lines.map (·.1)) : linesFor name lines = [] := by
  apply List.flatMap_eq_nil_iff.mpr
  intro peer hp
  rw [if_neg]
  rintro rfl
  exact h (List.mem_map_of_mem hp)

theorem addLine_keys (name : PluginName) (line : String) (lines : List (PluginName × List String)) :
    (addLine name line lines).map (·.1) =
      if name ∈ lines.map (·.1) then lines.map (·.1) else lines.map (·.1) ++ [name] := by
  induction lines with
  | nil => rfl
  | cons peer rest ih =>
    rw [addLine]
    by_cases hp : peer.1 = name
    · simp [hp]
    · have hp' : name ≠ peer.1 := Ne.symm hp
      simp only [hp,if_false,List.map_cons,ih,List.mem_cons,hp',false_or]
      split <;> rfl

theorem linesFor_addLine {name other : PluginName} {line : String}
    {lines : List (PluginName × List String)} (hn : (lines.map (·.1)).Nodup) :
    linesFor name (addLine other line lines) =
      linesFor name lines ++ if other = name then [line] else [] := by
  induction lines with
  | nil => by_cases ho : other = name <;> simp [addLine,linesFor,ho]
  | cons peer rest ih =>
    rw [List.map_cons,List.nodup_cons] at hn
    have hcons : ∀ peer rest, linesFor name (peer :: rest) =
        (if peer.1 = name then peer.2 else []) ++ linesFor name rest := fun _ _ => rfl
    rw [addLine]
    by_cases hp : peer.1 = other
    · simp only [hp,if_true,hcons]
      by_cases ho : other = name
      · have hrest : linesFor name rest = [] := linesFor_of_not_mem (ho ▸ hp ▸ hn.1)
        simp [ho,hrest]
      · simp [ho]
    · simp only [hp,if_false,hcons,ih hn.2,List.append_assoc]

theorem addLine_nodup {name : PluginName} {line : String} {lines : List (PluginName × List String)}
    (hn : (lines.map (·.1)).Nodup) : ((addLine name line lines).map (·.1)).Nodup := by
  rw [addLine_keys]
  split
  · exact hn
  · rename_i hname
    rw [List.nodup_append]
    refine ⟨hn,List.nodup_singleton _,?_⟩
    rintro other ho peer hp rfl
    exact hname (List.mem_singleton.mp hp ▸ ho)

/-- The messages of one connection. -/
def messagesOf (id : ConnectionId) (messages : List (ConnectionId × ConnectionInbound)) :
    List ConnectionInbound := (messages.filter (·.1 = id)).map (·.2)

/-- All lines of an open connection get into the batch of its peer, and only these. -/
theorem sort_lines {table : ConnectionId → Option ConnectionRecord} {name : PluginName}
    {messages : List (ConnectionId × ConnectionInbound)} {start : Batch}
    (honly : ∀ other record, table other = some record → record.name = name → other = id)
    (hopen : ∀ line, (id,ConnectionInbound.line line) ∈ messages →
      ∃ record, table id = some record ∧ record.closing = false ∧ record.name = name)
    (hn : (start.lines.map (·.1)).Nodup) :
    linesFor name (messages.foldl (sort table) start).lines =
      linesFor name start.lines ++ linesOf (messagesOf id messages) := by
  induction messages generalizing start with
  | nil => simp [messagesOf,linesOf]
  | cons message rest ih =>
    have hopen' : ∀ line, (id,ConnectionInbound.line line) ∈ rest →
        ∃ record, table id = some record ∧ record.closing = false ∧ record.name = name :=
      fun line hm => hopen line (List.mem_cons_of_mem _ hm)
    have hstep : ((sort table start message).lines.map (·.1)).Nodup ∧
        linesFor name (sort table start message).lines =
          linesFor name start.lines ++ linesOf (messagesOf id [message]) := by
      obtain ⟨sender,content⟩ := message
      by_cases hid : sender = id
      · subst hid
        cases content with
        | line text =>
          obtain ⟨record,hr,hclosing,hname⟩ := hopen text List.mem_cons_self
          simp only [sort,hr,hclosing,Bool.false_eq_true,if_false]
          refine ⟨addLine_nodup hn,?_⟩
          rw [linesFor_addLine hn,if_pos hname]
          simp [messagesOf,linesOf,ConnectionInbound.line?]
        | closed reason =>
          have hlines : (sort table start (sender,.closed reason)).lines = start.lines := by
            unfold sort
            split <;> rfl
          rw [hlines]
          exact ⟨hn,by simp [messagesOf,linesOf,ConnectionInbound.line?]⟩
      · have hnone : linesOf (messagesOf id [(sender,content)]) = [] := by
          simp [messagesOf,linesOf,hid]
        rw [hnone,List.append_nil]
        unfold sort
        cases hr : table sender with
        | none => exact ⟨hn,rfl⟩
        | some record =>
          cases content with
          | line text =>
            simp only
            split
            · exact ⟨hn,rfl⟩
            · refine ⟨addLine_nodup hn,?_⟩
              rw [linesFor_addLine hn,if_neg fun hname => hid (honly sender record hr hname),
                List.append_nil]
          | closed reason => exact ⟨hn,rfl⟩
    rw [List.foldl_cons,ih hopen' hstep.1,hstep.2,List.append_assoc]
    congr 1
    rw [← linesOf_append]
    congr 1
    simp [messagesOf,List.filter_cons]
    split <;> rfl

theorem receivedFrom_receipts (id : ConnectionId) (messages : List (ConnectionId × ConnectionInbound)) :
    receivedFrom id (receipts messages) = messagesOf id messages := by
  induction messages with
  | nil => rfl
  | cons message rest ih =>
    have hcons : receivedFrom id (receipts (message :: rest)) =
        (Event.message? id (.received message.1 message.2)).toList ++ receivedFrom id (receipts rest) := by
      simp only [receipts,receivedFrom,List.map_cons,List.filterMap_cons]
      cases Event.message? id (.received message.1 message.2) <;> rfl
    rw [hcons,ih]
    by_cases hid : message.1 = id <;> simp [Event.message?,messagesOf,hid]

theorem passed_spoken {routed opened : List PluginName} {calls : List Call} {h : History}
    (name : PluginName) (hs : Spoken routed opened calls h) :
    passed name h = calls.flatMap fun call => Event.passed name (.entered call routed opened) := by
  induction hs with
  | nil => rfl
  | @cons call calls events more hl hk ih =>
    have hquiet : passed name events = [] := by
      apply List.flatMap_eq_nil_iff.mpr
      intro e he
      cases hl e he <;> rfl
    have hcons : passed name (.entered call routed opened :: (events ++ more)) =
        Event.passed name (.entered call routed opened) ++ passed name (events ++ more) := rfl
    rw [hcons,passed_append,hquiet,List.nil_append,ih]
    rfl

theorem passed_batch {routed opened : List PluginName} {lines : List (PluginName × List String)}
    {h : History} (name : PluginName)
    (hs : Spoken routed opened ((lines.filter fun peer => peer.2 ≠ []).map
      fun peer => .fromPlugin peer.1 peer.2) h) : passed name h = linesFor name lines := by
  rw [passed_spoken name hs]
  clear hs
  induction lines with
  | nil => rfl
  | cons peer rest ih =>
    have hcons : linesFor name (peer :: rest) =
        (if peer.1 = name then peer.2 else []) ++ linesFor name rest := rfl
    rw [hcons,← ih,List.filter_cons]
    by_cases hempty : peer.2 = []
    · simp [hempty]
    · simp [hempty,Event.passed]

/-- Who has lines in a batch has an open connection. -/
theorem mem_sort_lines {table : ConnectionId → Option ConnectionRecord}
    {messages : List (ConnectionId × ConnectionInbound)} {start : Batch}
    {peer : PluginName × List String} (h : peer ∈ (messages.foldl (sort table) start).lines) :
    peer.1 ∈ start.lines.map (·.1) ∨
      ∃ id record, table id = some record ∧ record.closing = false ∧ record.name = peer.1 := by
  induction messages generalizing start with
  | nil => exact .inl (List.mem_map_of_mem h)
  | cons message rest ih =>
    rcases ih h with hs | hs
    · unfold sort at hs
      cases hr : table message.1 with
      | none =>
        rw [hr] at hs
        exact .inl hs
      | some record =>
        rw [hr] at hs
        cases hm : message.2 with
        | line text =>
          simp only [hm] at hs
          split at hs
          · exact .inl hs
          · rename_i hclosing
            rw [addLine_keys] at hs
            split at hs
            · exact .inl hs
            · rcases List.mem_append.mp hs with hs | hs
              · exact .inl hs
              · exact .inr ⟨_,record,hr,Bool.eq_false_iff.mpr hclosing,(List.mem_singleton.mp hs).symm⟩
        | closed reason =>
          simp only [hm] at hs
          exact .inl hs
    · exact .inr hs

theorem tryRecv_connsById {first : ConnectionId × ConnectionInbound}
    (h : tryRecv w b = some (first,b')) : b'.connsById = b.connsById := by
  obtain ⟨rest,-,rfl⟩ := tryRecv_eq h
  rfl

/-- The lines of a tick are passed as they were received. -/
theorem Listening.passBatch (hl : Listening b c) (hb : Books setup b) (hc : c ∈ setup.connections)
    {first : ConnectionId × ConnectionInbound} (h : tryRecv w b = some (first,b')) :
    Listening (b'.passBatch w first) c := by
  obtain ⟨left,spoken,heq,htaken,hspoken⟩ := passBatch_eq h
  rw [heq]
  generalize hmessages : first :: (burst w 255 b').1 = messages at htaken
  have honly : ∀ other record, b.connsById other = some record → record.name = c.name → other = c.id := by
    intro other record hr hname
    obtain ⟨d,hd,rfl⟩ := hb.table other record hr
    have hdn := ((hb.accounted d hd).present record hr).name
    rw [Setup.eq_of_name hd hc (hdn.symm.trans hname)]
  have hquiet : ∀ e ∈ receipts messages ++ spoken, e ≠ .transportFailed c.id ∧
      ∀ fact, e ≠ .published (.engine fact) := by
    intro e he
    rcases List.mem_append.mp he with he | he
    · obtain ⟨message,-,rfl⟩ := List.mem_map.mp he
      exact ⟨Event.noConfusion,fun _ => Event.noConfusion⟩
    · obtain ⟨call,-,rfl⟩ | hlua := hspoken.mem he
      · exact ⟨Event.noConfusion,fun _ => Event.noConfusion⟩
      · cases hlua with
        | sent target payload =>
          exact ⟨Event.noConfusion,fun _ hp => by cases hp⟩
        | delivered target lines hroute => exact ⟨Event.noConfusion,fun _ => Event.noConfusion⟩
        | refused target lines error => exact ⟨Event.noConfusion,fun _ => Event.noConfusion⟩
  have hnew : receivedFrom c.id (receipts messages ++ spoken) = messagesOf c.id messages := by
    have hno : receivedFrom c.id spoken = [] := by
      apply List.filterMap_eq_nil_iff.mpr
      intro e he
      obtain ⟨call,-,rfl⟩ | hlua := hspoken.mem he
      · rfl
      · cases hlua <;> rfl
    rw [receivedFrom_append,receivedFrom_receipts,hno,List.append_nil]
  have hlines : passed c.name (receipts messages ++ spoken) =
      linesFor c.name (batch w first b').lines := by
    have hno : passed c.name (receipts messages) = [] := by
      apply List.flatMap_eq_nil_iff.mpr
      intro e he
      obtain ⟨message,-,rfl⟩ := List.mem_map.mp he
      rfl
    rw [passed_append,hno,List.nil_append,passed_batch c.name hspoken]
  have hbatch : batch w first b' = messages.foldl (sort b.connsById) ⟨[],[]⟩ := by
    rw [batch,hmessages,tryRecv_connsById h]
  have hgrows : b.history <+: ((b.withInbound left).hear (receipts messages ++ spoken)).history :=
    List.prefix_append _ _
  refine ⟨?_,?_,⟨?_,?_⟩,?_⟩
  · rw [hear_history,receivedFrom_append,hnew,List.append_assoc]
    exact (congrArg (receivedFrom c.id b.history ++ ·) (htaken c.id)).trans hl.fifo
  · intro hfail
    obtain hfail | hfail := List.mem_append.mp hfail
    · exact hl.silent hfail
    · exact absurd rfl (hquiet _ hfail).1
  · refine Throughout.append.mpr ⟨hl.words.told,Throughout.of_forall ?_⟩
    rintro before - e he outcome rfl
    exact absurd rfl ((hquiet _ he).2 _)
  · refine Throughout.append.mpr ⟨hl.words.unheard,Throughout.of_forall ?_⟩
    rintro before hbefore e he lines routed opened rfl hfail
    obtain hfail | hfail := List.mem_append.mp hfail
    · -- The peer of a batch is open, but what failed is closing.
      obtain he | he := List.mem_append.mp he
      · obtain ⟨message,-,hm⟩ := List.mem_map.mp he
        cases hm
      · obtain ⟨call,hcall,hce⟩ | hlua := hspoken.mem he
        · obtain ⟨peer,hpeer,hpe⟩ := List.mem_map.mp hcall
          have hpn : peer.1 = c.name :=
            (Call.fromPlugin.inj (hpe.trans (Event.entered.inj hce).1.symm)).1
          have hpeer := (List.mem_filter.mp hpeer).1
          rw [hbatch] at hpeer
          obtain hp | ⟨id,record,hr,hopen,hname⟩ := mem_sort_lines hpeer
          · cases hp
          · have hid := honly id record hr (hname.trans hpn)
            subst hid
            rw [hl.silent hfail record hr] at hopen
            cases hopen
        · cases hlua
    · exact absurd rfl (hquiet _ (hbefore _ hfail)).1
  · intro hcalm hends
    have hkept := hl.kept (hcalm.of_prefix hgrows) (Throughout.of_prefix hends hgrows)
    have hall : receivedFrom c.id b.history ++ (messagesOf c.id messages ++ left c.id) =
        runReader c.output :=
      (congrArg (receivedFrom c.id b.history ++ ·) (htaken c.id)).trans hl.fifo
    have hdrained : Drained b.history c →
        Drained ((b.withInbound left).hear (receipts messages ++ spoken)).history c := by
      intro hd
      have hrest := hd.rest hall
      rw [linesOf_append,List.append_eq_nil_iff] at hrest
      rw [Drained,hear_history,withInbound_history,receivedFrom_append,hnew,linesOf_append,hrest.1,
        List.append_nil]
      exact hd
    refine ⟨?_,?_,?_,?_⟩
    · exact fun hopen => hkept.opened fun hd => hopen (hdrained hd)
    · rw [hear_history,withInbound_history,passed_append,receivedFrom_append,linesOf_append,hnew,
        hlines,hkept.passed,hbatch]
      congr 1
      refine Eq.trans (sort_lines honly ?_ List.nodup_nil) (List.nil_append _)
      intro line hm
      have hopen : ¬ Drained b.history c := by
        intro hd
        have hrest := hd.rest hall
        rw [linesOf_append,List.append_eq_nil_iff] at hrest
        have hline : line ∈ linesOf (messagesOf c.id messages) := by
          refine List.mem_filterMap.mpr ⟨.line line,?_,rfl⟩
          exact List.mem_map.mpr ⟨_,List.mem_filter.mpr ⟨hm,by simp⟩,rfl⟩
        rw [hrest.1] at hline
        cases hline
      obtain ⟨record,hr,hclosing⟩ := hkept.opened hopen
      exact ⟨record,hr,hclosing,((hb.accounted c hc).present record hr).name⟩
    · exact fun record hr hexit => hdrained (hkept.exiting record hr hexit)
    · exact fun outcome hf => hdrained (hkept.reported outcome hf)

/-! Exits. -/

theorem handleExit_added (w : World) (b : Broker) (id : ConnectionId) (outcome : ExitOutcome) : ∃ more,
    Added (b.note (.exited id outcome)) ((b.note (.exited id outcome)).handleExit w id outcome) more := by
  unfold handleExit Broker.forceClose
  split
  · exact ⟨_,.none rfl⟩
  · split
    · exact ⟨_,.none rfl⟩
    · simp only
      split
      · exact ⟨_,.single rfl trivial rfl fun _ => Event.noConfusion⟩
      · exact ⟨_,.none rfl⟩

theorem handleExit_inbound {outcome : ExitOutcome} :
    (b.handleExit w id outcome).inbound = b.inbound ∧
      (b.handleExit w id outcome).pendingEngineEnvelopes = b.pendingEngineEnvelopes := by
  unfold handleExit Broker.forceClose
  split
  · exact ⟨rfl,rfl⟩
  · split
    · exact ⟨rfl,rfl⟩
    · simp only
      split <;> exact ⟨rfl,rfl⟩

/-- The exit of a process, of this connection or of another. -/
theorem Listening.exit (hl : Listening b c) (id : ConnectionId) (outcome : ExitOutcome) :
    Listening ((b.note (.exited id outcome)).handleExit w id outcome) c := by
  obtain ⟨more,hm⟩ := handleExit_added w b id outcome
  have hhist : ((b.note (.exited id outcome)).handleExit w id outcome).history =
      b.history ++ (.exited id outcome :: more) := by
    rw [hm.history,note_history,List.append_assoc]
    rfl
  have hgrows : b.history <+: ((b.note (.exited id outcome)).handleExit w id outcome).history := by
    rw [hhist]
    exact List.prefix_append _ _
  have hreceived : receivedFrom c.id
      ((b.note (.exited id outcome)).handleExit w id outcome).history = receivedFrom c.id b.history := by
    rw [hm.history,note_history,receivedFrom_append,receivedFrom_append,
      receivedFrom_outward hm.outward]
    simp [receivedFrom,Event.message?]
  have hpassed : passed c.name
      ((b.note (.exited id outcome)).handleExit w id outcome).history = passed c.name b.history := by
    rw [hm.history,note_history,passed_append,passed_append,passed_outward hm.outward]
    simp [passed,Event.passed]
  have hdrained : Drained ((b.note (.exited id outcome)).handleExit w id outcome).history c ↔
      Drained b.history c := by
    rw [Drained,Drained,hreceived]
  have hend : ExitsDrained ((b.note (.exited id outcome)).handleExit w id outcome).history c →
      id = c.id → Drained b.history c := by
    rintro hends rfl
    rw [hhist] at hends
    have hlast := (Throughout.cons.mp (Throughout.append.mp hends).2).1 outcome rfl
    rwa [List.append_nil] at hlast
  have hothers : ∀ e ∈ Event.exited id outcome :: more, (∀ fact, e ≠ .published (.engine fact) ∨
      fact ∈ b.pendingEngineEnvelopes) ∧
      ∀ lines routed opened, e ≠ .entered (.fromPlugin c.name lines) routed opened := by
    intro e he
    obtain rfl | he := List.mem_cons.mp he
    · exact ⟨fun _ => .inl Event.noConfusion,fun _ _ _ => Event.noConfusion⟩
    · refine ⟨fun fact => ?_,fun lines routed opened heq => ?_⟩
      · by_cases heq : e = .published (.engine fact)
        · exact .inr (hm.facts fact (heq ▸ he))
        · exact .inl heq
      · subst heq
        exact hm.outward _ he
  refine ⟨?_,?_,⟨?_,?_⟩,?_⟩
  · rw [hreceived,handleExit_inbound.1]
    exact hl.fifo
  · intro hfail
    have hclose : ∀ now (record : ConnectionRecord), record.closing = true →
        (ConnectionRecord.close now { record with pendingExit := some outcome }).closing = true := by
      intro now record hclosing
      simp [ConnectionRecord.close,hclosing]
    rw [hm.history,note_history,List.append_assoc] at hfail
    obtain hfail | hfail := List.mem_append.mp hfail
    · exact (hl.silent hfail).change (b := b.note (.exited id outcome)) handleExit_connsById (hclose _)
    · obtain hfail | hfail := List.mem_append.mp hfail
      · cases List.mem_singleton.mp hfail
      · exact hm.failures c.id hfail
  · rw [hhist]
    refine Throughout.append.mpr ⟨hl.words.told,Throughout.of_forall ?_⟩
    rintro before hbefore e he told rfl hcalm hends
    have hkept := hl.kept (hcalm.of_prefix (List.prefix_append _ _))
      (Throughout.of_prefix hends (List.prefix_append _ _))
    have hpending := ((hothers _ he).1 (.processTerminated c.name told)).resolve_left fun h => h rfl
    have hbefore' : passed c.name before = [] := by
      apply List.flatMap_eq_nil_iff.mpr
      intro e he
      have := (hothers e (hbefore e he)).2
      unfold Event.passed
      split
      · rename_i source lines routed opened
        split
        · rename_i hsource
          exact absurd rfl (hsource ▸ this lines routed opened)
        · rfl
      · rfl
    rw [passed_append,hbefore',List.append_nil,hkept.passed]
    exact hkept.reported told hpending
  · rw [hhist]
    refine Throughout.append.mpr ⟨hl.words.unheard,Throughout.of_forall ?_⟩
    rintro before - e he lines routed opened rfl
    exact absurd rfl ((hothers _ he).2 lines routed opened)
  · intro hcalm hends
    have hkept := hl.kept (hcalm.of_prefix hgrows) (Throughout.of_prefix hends hgrows)
    refine ⟨?_,?_,?_,?_⟩
    · intro hopen
      rw [hdrained] at hopen
      obtain ⟨record,hrec,hclosing⟩ := hkept.opened hopen
      have hne : c.id ≠ id := fun hid => hopen (hend hends hid.symm)
      refine ⟨record,?_,hclosing⟩
      rw [handleExit_connsById,Function.update_of_ne hne]
      exact hrec
    · rw [hpassed,hreceived]
      exact hkept.passed
    · intro record hrec hexit
      rw [hdrained]
      by_cases hid : id = c.id
      · exact hend hends hid
      · rw [handleExit_connsById,Function.update_of_ne (Ne.symm hid)] at hrec
        exact hkept.exiting record hrec hexit
    · intro told hf
      rw [handleExit_inbound.2] at hf
      rw [hdrained]
      exact hkept.reported told hf

theorem Listening.move (h : Move w b b') (hb : Books setup b) (hc : c ∈ setup.connections)
    (hl : Listening b c) : Listening b' c := by
  cases h with
  | act h => exact hl.act h hb hc
  | tick h => exact (hl.passBatch hb hc h).acts (Acts.handleInboundTick w h) (hb.passBatch h) hc
  | exit id outcome => exact hl.exit id outcome

theorem listening_start (h : setup.Started b) (hc : c ∈ setup.connections) :
    Listening b c := by
  have hearly : ∀ e ∈ b.history, e.Outward ∧ (∀ id, e ≠ .transportFailed id) ∧
      ∀ fact, e ≠ .published (.engine fact) := by
    intro e he
    cases h.early e he with
    | loaded target payload =>
      exact ⟨trivial,fun _ => Event.noConfusion,fun _ heq => by cases heq⟩
    | cli name args => exact ⟨trivial,fun _ => Event.noConfusion,fun _ => Event.noConfusion⟩
    | lua hlua =>
      cases hlua with
      | sent target payload =>
        exact ⟨trivial,fun _ => Event.noConfusion,fun _ heq => by cases heq⟩
      | delivered target lines hroute =>
        exact ⟨trivial,fun _ => Event.noConfusion,fun _ => Event.noConfusion⟩
      | refused target lines error =>
        exact ⟨trivial,fun _ => Event.noConfusion,fun _ => Event.noConfusion⟩
  have houtward : ∀ e ∈ b.history, e.Outward := fun e he => (hearly e he).1
  refine ⟨?_,?_,⟨?_,?_⟩,fun _ _ => ⟨?_,?_,?_,?_⟩⟩
  · rw [receivedFrom_outward houtward]
    exact h.inbound c hc
  · exact fun hfail => absurd rfl ((hearly _ hfail).2.1 c.id)
  · refine Throughout.of_forall ?_
    rintro before - e he outcome rfl
    exact absurd rfl ((hearly _ he).2.2 _)
  · refine Throughout.of_forall ?_
    rintro before - e he lines routed opened rfl
    exact (houtward _ he).elim
  · exact fun _ => ⟨c.record,h.attached c hc,rfl⟩
  · rw [passed_outward houtward,receivedFrom_outward houtward]
    rfl
  · intro record hrec hexit
    rw [h.attached c hc] at hrec
    cases hrec
    cases hexit
  · intro outcome hf
    rw [h.pending] at hf
    obtain ⟨failure,hfailure,heq⟩ := List.mem_map.mp hf
    have hname := (Fact.processTerminated.inj heq).1
    exact absurd (hname ▸ List.mem_map_of_mem hc) (setup.failures_apart failure hfailure)

theorem run_listening (w : World) (setup : Setup) (turns : Nat) (hc : c ∈ setup.connections) :
    Listening (run w setup turns).broker c := by
  have hstart := setup.started w
  have hmoves := (run_moves w setup turns).1
  have hall : ∀ b, Moves w (setup.start w).broker b → Listening b c := by
    intro b hb
    induction hb with
    | refl => exact listening_start hstart hc
    | tail hs h ih => exact Listening.move h (.moves hs (.start hstart)) hc ih
  exact hall _ hmoves

/-- In every run the last words of every connection are heard, if nothing disturbs it and its exit
is heard of after all its lines; and none are once its transport failed. -/
theorem run_lastWords (w : World) (setup : Setup) (turns : Nat) :
    ∀ c ∈ setup.connections, LastWords (run w setup turns).broker.history c :=
  fun _ hc => (run_listening w setup turns hc).words

/-- A plugin that writes a line before it exits. -/
def talkingPlugin : Connection := ⟨1,"tool",true,true,⟨[104,105,10],.eof⟩⟩

/-- Its exit is heard of when the line was received. -/
def patientWorld : World :=
  { World.idle with
    arrival := fun h => if h.length ≤ 2 then some 1 else none
    select := fun h => if h.length = 1 then .inbound else .exit 1 .cleanExit }

theorem talkingPlugin_lastWords : passed "tool" [.waits false,.received 1 (.line "hi"),
    .received 1 (.closed .eof),.entered (.fromPlugin "tool" ["hi"]) ["tool"] ["tool"],
    .closeQueued 1,.waits false,.exited 1 .cleanExit] = talkingPlugin.output.lines := by
  refine (run_lastWords patientWorld (.single talkingPlugin) 3 talkingPlugin List.mem_cons_self).told
    _ (.published (.engine (.processTerminated "tool" .cleanExit)))
    ((run patientWorld (.single talkingPlugin) 3).broker.history.drop 8) (by decide)
    .cleanExit rfl (by decide) ?_
  have hdrained : Drained [.waits false,.received 1 (.line "hi"),.received 1 (.closed .eof),
      .entered (.fromPlugin "tool" ["hi"]) ["tool"] ["tool"],.closeQueued 1,.waits false]
      talkingPlugin := by
    unfold Drained
    decide
  simpa [ExitsDrained,Throughout.cons,Throughout.nil] using fun _ => hdrained

/-- Its exit is heard of while the line still waits to be received. -/
def hastyWorld : World :=
  { World.idle with
    pending := fun _ => 2
    arrival := fun _ => some 1
    select := fun _ => .exit 1 .cleanExit }

/-- The line is received before the end of the plugin is reported, and yet is not passed. -/
theorem talkingPlugin_lineLost : ¬ ∀ (w : World) (setup : Setup) (turns : Nat),
    ∀ c ∈ setup.connections, Throughout (fun before e => ∀ outcome,
      e = .published (.engine (.processTerminated c.name outcome)) → Calm before c.id →
        passed c.name before = c.output.lines) (run w setup turns).broker.history := by
  intro h
  have hlost := h hastyWorld (.single talkingPlugin) 2 talkingPlugin List.mem_cons_self
    [.waits false,.exited 1 .cleanExit,.closeQueued 1,.received 1 (.line "hi"),
      .received 1 (.closed .eof)]
    (.published (.engine (.processTerminated "tool" .cleanExit)))
    ((run hastyWorld (.single talkingPlugin) 2).broker.history.drop 6) (by decide)
    .cleanExit rfl (by decide)
  revert hlost
  decide

end Nefor.Ncp
