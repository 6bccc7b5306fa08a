import Nefor.Behaviour
import Nefor.Kernel.Constellation
import Nefor.Maps
import Nefor.Trace

/-! The life of an actor: it is spawned once, it is ready once, its activity opens and closes in turn,
it dies once, and after its signal handler nothing is heard of it. -/
namespace Nefor.Kernel
open Nefor.Lua Behaviour

inductive Life
  | unborn
  | alive (ready busy : Bool)
  | dying
  | gone
  deriving DecidableEq

/-- The actor that an event is about. The run's completion is accepted from anyone. -/
def KernelEvent.actor : KernelEvent → Option (String × String)
  | spawned scope id | delivered scope id | ready scope id | busy scope id | idle scope id _ | output scope id _
  | failed scope id _ | signal scope id _ | approvalRequest scope id | approvalCancel scope id | invoke _ scope id
  | reply _ scope id _ | died scope id | forgotten scope id => some (scope,id)
  | runComplete _ _ | ignored _ _ _ | cancel _ _ | dropped _ | rejected _ _ => none

/-- The request that an event is about. -/
def KernelEvent.request : KernelEvent → Option String
  | invoke request _ _ | cancel request _ | reply request _ _ _ | dropped request => some request
  | _ => none

def life : Behaviour Life KernelEvent where
  start := .unborn
  next
    | .unborn, .spawned _ _ => some (.alive false false)
    | .alive false busy, .ready _ _ => some (.alive true busy)
    | .alive ready false, .busy _ _ => some (.alive ready true)
    | .alive ready true, .idle _ _ _ => some (.alive ready false)
    | .alive ready busy, .delivered _ _ => some (.alive ready busy)
    | .alive ready busy, .output _ _ _ => some (.alive ready busy)
    | .alive ready busy, .failed _ _ _ => some (.alive ready busy)
    | .alive ready busy, .signal _ _ _ => some (.alive ready busy)
    | .alive ready busy, .approvalRequest _ _ => some (.alive ready busy)
    | .alive ready busy, .approvalCancel _ _ => some (.alive ready busy)
    | .alive ready busy, .invoke _ _ _ => some (.alive ready busy)
    | .alive ready busy, .reply _ _ _ _ => some (.alive ready busy)
    | .alive _ _, .died _ _ => some .dying
    | .dying, .signal _ _ _ => some .dying
    | .dying, .approvalCancel _ _ => some .dying
    | .dying, .forgotten _ _ => some .gone
    | _, _ => none

section
variable (scope id : String)

end

namespace Constellation

/-- Where the tables say that an actor stands, while its signal handler may be running. -/
def lifeOf (forgetting : Bool) (c : Constellation) (id : String) : Life :=
  match c.actors.lookup id with
  | none => .unborn
  | some actor =>
    if actor.alive then .alive (decide (id ∈ c.ready)) (c.busy.lookup id).isSome
    else if forgetting then .dying else .gone

/-- An actor that is not forgotten yet. -/
def Standing (forgetting : String → Bool) (c : Constellation) (id : String) : Prop :=
  c.isAlive id = true ∨ c.actors.lookup id ≠ none ∧ forgetting id = true

/-- What holds of the tables of one run. -/
structure Coherent (forgetting : String → Bool) (c : Constellation) : Prop where
  named : ∀ id, c.actors.lookup id ≠ none → id ≠ ""
  ready : ∀ id, id ∈ c.ready → c.actors.lookup id ≠ none
  busy : ∀ id, c.busy.lookup id ≠ none → c.actors.lookup id ≠ none
  signaling : ∀ id, id ∈ c.signaling → Standing forgetting c id
  instances : ∀ id, c.instances.lookup id ≠ none → Standing forgetting c id
  requester : ∀ request entry, c.pending.lookup request = some entry → c.isAlive entry.requester = true
  minted : ∀ request entry, c.pending.lookup request = some entry →
    ∃ n, 1 ≤ n ∧ n ≤ c.capSeq ∧ request = requestId c.scope n

/-- One step of a run: its actors follow their lives through the events. -/
structure Lives (forgetting forgetting' : String → Bool) (c : Constellation) (events : List KernelEvent)
    (c' : Constellation) : Prop where
  scope : c'.scope = c.scope
  follows : ∀ id, life.after (lifeOf (forgetting id) c id) (about KernelEvent.actor (c.scope,id) events) =
    some (lifeOf (forgetting' id) c' id)
  own : ∀ e ∈ events, ∀ scope id, e.actor = some (scope,id) → scope = c.scope

variable {forgetting forgetting' : String → Bool} {c c' c'' : Constellation} {id : String} {events : List KernelEvent}

theorem isAlive_iff : c.isAlive id = true ↔ ∃ actor, c.actors.lookup id = some actor ∧ actor.alive = true := by
  unfold isAlive
  cases c.actors.lookup id <;> simp

theorem isAlive_congr (h : c'.actors = c.actors) (id : String) : c'.isAlive id = c.isAlive id := by
  rw [isAlive,isAlive,h]

theorem exists_of_isAlive (h : c.isAlive id = true) : c.actors.lookup id ≠ none := by
  obtain ⟨actor,hactor,_⟩ := isAlive_iff.mp h
  simp [hactor]

namespace Lives

theorem refl (c : Constellation) : Lives forgetting forgetting c [] c :=
  ⟨rfl,fun _ => rfl,fun _ he => by cases he⟩

theorem trans {forgetting'' : String → Bool} {events' : List KernelEvent} (h : Lives forgetting forgetting' c events c')
    (h' : Lives forgetting' forgetting'' c' events' c'') : Lives forgetting forgetting'' c (events ++ events') c'' := by
  constructor
  · exact h'.scope.trans h.scope
  · intro id
    rw [about_append,after_append,h.follows id,Option.bind_some,← h.scope]
    exact h'.follows id
  · intro e he scope id hkey
    cases List.mem_append.mp he with
    | inl hleft => exact h.own e hleft scope id hkey
    | inr hright => exact (h'.own e hright scope id hkey).trans h.scope

/-- Events about no actor. -/
theorem silent (hscope : c'.scope = c.scope) (hevents : ∀ e ∈ events, e.actor = none)
    (hsame : ∀ id, lifeOf (forgetting' id) c' id = lifeOf (forgetting id) c id) :
    Lives forgetting forgetting' c events c' := by
  refine ⟨hscope,fun id => ?_,?_⟩
  · rw [about_eq_nil,after_nil,hsame]
    intro e he
    simp [hevents e he]
  · intro e he scope id hkey
    rw [hevents e he] at hkey
    cases hkey

/-- One event about one actor. -/
theorem event {e : KernelEvent} (hscope : c'.scope = c.scope) (hkey : e.actor = some (c.scope,id))
    (hself : life.next (lifeOf (forgetting id) c id) e = some (lifeOf (forgetting' id) c' id))
    (hother : ∀ other, other ≠ id → lifeOf (forgetting' other) c' other = lifeOf (forgetting other) c other) :
    Lives forgetting forgetting' c [e] c' := by
  refine ⟨hscope,fun other => ?_,?_⟩
  · by_cases heq : other = id
    · subst heq
      rw [about_singleton _ hkey,after_singleton]
      exact hself
    · rw [about_eq_nil,after_nil,hother other heq]
      intro e' he
      rw [List.mem_singleton.mp he,hkey]
      simpa using Ne.symm heq
  · intro e' he scope id' hkey'
    rw [List.mem_singleton.mp he,hkey] at hkey'
    cases hkey'
    rfl

/-- One event after which the actor stands where it stood. -/
theorem stays {e : KernelEvent} (hkey : e.actor = some (c.scope,id))
    (hself : life.next (lifeOf (forgetting id) c id) e = some (lifeOf (forgetting id) c id)) (hscope : c'.scope = c.scope)
    (hsame : ∀ other, lifeOf (forgetting other) c' other = lifeOf (forgetting other) c other) :
    Lives forgetting forgetting c [e] c' :=
  event hscope hkey (hself.trans (by rw [hsame])) fun other _ => hsame other

end Lives

/-! Each function of a run. -/

/-- An actor that is heard is alive, or its signal handler is running. -/
theorem heard {generation : Nat} {message : Emission}
    (h : ¬(!c.terminalControlSignal id message &&
      (c.staleGeneration id generation || !c.isAlive id && !c.signalBusEnvelope id message)) = true) :
    c.isAlive id = true ∨ c.terminalControlSignal id message = true ∨ c.signalBusEnvelope id message = true := by
  revert h
  cases c.terminalControlSignal id message <;> cases c.isAlive id <;> cases c.signalBusEnvelope id message <;> simp

/-- Nobody is spawned or killed. -/
structure Framed (c c' : Constellation) : Prop where
  scope : c'.scope = c.scope
  actors : c'.actors = c.actors

theorem Framed.isAlive (h : Framed c c') (id : String) : c'.isAlive id = c.isAlive id := isAlive_congr h.actors id

theorem framed_onReady (c : Constellation) (id : String) : Framed c (c.onReady id).1 := by
  unfold onReady
  split <;> exact ⟨rfl,rfl⟩

theorem framed_markBusy (c : Constellation) (id : String) (now : Int) : Framed c (c.markBusy id now).1 := by
  unfold markBusy
  split <;> exact ⟨rfl,rfl⟩

theorem framed_markIdle (c : Constellation) (id : String) (now : Int) : Framed c (c.markIdle id now).1 := by
  unfold markIdle
  split <;> exact ⟨rfl,rfl⟩

theorem framed_applyCompletion (c : Constellation) (id : String) (completion : ActorCompletion) (now : Int) :
    Framed c (c.applyCompletion id completion now).1 := by
  cases completion with
  | pending => exact ⟨rfl,rfl⟩
  | ok routed => exact framed_markIdle c id now
  | failed failure routed => exact framed_markIdle c id now

theorem framed_onEmit (c : Constellation) (id : String) (generation : Nat) (message : Emission) (now : Int) :
    Framed c (c.onEmit id generation message now).1 := by
  unfold onEmit
  split
  · exact ⟨rfl,rfl⟩
  · cases message with
    | ready => exact framed_onReady c id
    | complete completion => exact framed_applyCompletion c id completion now
    | output wire error =>
      dsimp only
      split
      · exact ⟨rfl,rfl⟩
      · cases error <;> exact ⟨rfl,rfl⟩
    | capabilityInvoke | runComplete | approvalRequest | approvalCancel => exact ⟨rfl,rfl⟩

/-- A response closes the request, whatever becomes of the reply. -/
theorem respond_closes (c : Constellation) (request : String) (entry : Correlation) :
    (c.respond request entry).1 = { c with pending := c.pending.erase request } := by
  unfold respond
  dsimp only
  split
  · rfl
  · split
    · split <;> rfl
    · rfl

theorem framed_respond (c : Constellation) (request : String) (entry : Correlation) :
    Framed c (c.respond request entry).1 := by
  rw [respond_closes]
  exact ⟨rfl,rfl⟩

/-- A run without other requests than before. -/
structure Unasked (c : Constellation) (events : List KernelEvent) (c' : Constellation) : Prop where
  pending : c'.pending = c.pending
  capSeq : c'.capSeq = c.capSeq
  silent : ∀ e ∈ events, e.request = none

attribute [local simp] KernelEvent.request

theorem unasked_spawn (c : Constellation) (id : String) (actor : LuaValue) :
    Unasked c (c.spawn id actor).2 (c.spawn id actor).1 := by
  unfold spawn
  split <;> exact ⟨rfl,rfl,by simp⟩

theorem unasked_send (c : Constellation) (target : String) : Unasked c (c.send target) c := by
  unfold send
  split <;> exact ⟨rfl,rfl,by simp⟩

theorem unasked_onReady (c : Constellation) (id : String) : Unasked c (c.onReady id).2 (c.onReady id).1 := by
  unfold onReady
  split <;> exact ⟨rfl,rfl,by simp⟩

theorem unasked_markBusy (c : Constellation) (id : String) (now : Int) :
    Unasked c (c.markBusy id now).2 (c.markBusy id now).1 := by
  unfold markBusy
  split <;> exact ⟨rfl,rfl,by simp⟩

theorem unasked_markIdle (c : Constellation) (id : String) (now : Int) :
    Unasked c (c.markIdle id now).2 (c.markIdle id now).1 := by
  unfold markIdle
  split <;> exact ⟨rfl,rfl,by simp⟩

theorem unasked_applyCompletion (c : Constellation) (id : String) (completion : ActorCompletion) (now : Int) :
    Unasked c (c.applyCompletion id completion now).2 (c.applyCompletion id completion now).1 := by
  have hidle := unasked_markIdle c id now
  cases completion with
  | pending => exact ⟨rfl,rfl,by simp [applyCompletion]⟩
  | ok routed =>
    refine ⟨hidle.pending,hidle.capSeq,?_⟩
    intro e he
    cases List.mem_append.mp he with
    | inl hleft => exact hidle.silent e hleft
    | inr hright =>
      cases routed with
      | false => cases hright
      | true =>
        rw [List.mem_singleton.mp hright]
        rfl
  | failed failure routed =>
    refine ⟨hidle.pending,hidle.capSeq,?_⟩
    intro e he
    cases List.mem_append.mp he with
    | inl hleft => exact hidle.silent e hleft
    | inr hright =>
      rw [List.mem_singleton.mp hright]
      cases routed <;> rfl

/-- Only a live actor asks for something. -/
theorem onEmit_asks (c : Constellation) (id : String) (generation : Nat) (message : Emission) (now : Int) :
    Unasked c (c.onEmit id generation message now).2 (c.onEmit id generation message now).1 ∨
      ∃ ref, c.isAlive id = true ∧ c.onEmit id generation message now = c.onCapabilityInvoke id ref := by
  unfold onEmit
  split
  · exact .inl ⟨rfl,rfl,by simp⟩
  · next hheard =>
    have hheard := heard hheard
    cases message with
    | ready => exact .inl (unasked_onReady c id)
    | capabilityInvoke ref => exact .inr ⟨ref,by simpa [terminalControlSignal,signalBusEnvelope] using hheard,rfl⟩
    | complete completion => exact .inl (unasked_applyCompletion c id completion now)
    | output wire error =>
      left
      dsimp only
      split
      · exact ⟨rfl,rfl,by simp⟩
      · cases error <;> exact ⟨rfl,rfl,by simp⟩
    | runComplete | approvalRequest | approvalCancel => exact .inl ⟨rfl,rfl,by simp⟩

/-- A response settles the request that it is about. -/
theorem events_respond (c : Constellation) (request : String) (entry : Correlation) :
    (c.respond request entry).2.1 = [.reply request c.scope entry.requester entry.ref] ∨
      (c.respond request entry).2.1 = [.dropped request] := by
  unfold respond
  dsimp only
  split
  · exact .inr rfl
  · split
    · split
      · exact .inl rfl
      · exact .inr rfl
    · exact .inr rfl

/-- A reply goes to a live actor. -/
theorem isAlive_respond {request : String} {entry : Correlation} (h : (c.respond request entry).2.2 = some id) :
    c.isAlive id = true := by
  unfold respond at h
  dsimp only at h
  split at h
  · cases h
  · next halive =>
    split at h
    · split at h
      · cases h
        simpa [isAlive] using halive
      · cases h
    · cases h

theorem Standing.exists (h : Standing forgetting c id) : c.actors.lookup id ≠ none := by
  cases h with
  | inl halive => exact exists_of_isAlive halive
  | inr hdead => exact hdead.1

namespace Coherent

theorem new (scope : String) (sessionId : LuaValue) : Coherent forgetting (.new scope sessionId) := by
  constructor <;> intro id <;> simp [Constellation.new]

theorem spawn (hc : Coherent forgetting c) (hid : id ≠ "") (actor : LuaValue) :
    Coherent forgetting (c.spawn id actor).1 := by
  unfold Constellation.spawn
  cases hold : c.actors.lookup id with
  | some old => exact hc
  | none =>
    dsimp only
    have hexists : ∀ other record, c.actors.lookup other ≠ none → (c.actors.insert id record).lookup other ≠ none := by
      intro other record h
      have hne : other ≠ id := by
        rintro rfl
        exact h hold
      rw [AList.lookup_insert_ne hne]
      exact h
    have halive : ∀ other record, c.isAlive other = true →
        Constellation.isAlive { c with actors := c.actors.insert id record } other = true := by
      intro other record h
      obtain ⟨found,hfound,hlive⟩ := isAlive_iff.mp h
      have hne : other ≠ id := by
        rintro rfl
        cases hfound.symm.trans hold
      apply isAlive_iff.mpr
      refine ⟨found,?_,hlive⟩
      dsimp only
      rw [AList.lookup_insert_ne hne]
      exact hfound
    have hstanding : ∀ other record, Standing forgetting c other →
        Standing forgetting { c with actors := c.actors.insert id record } other := by
      intro other record h
      cases h with
      | inl hlive => exact .inl (halive other record hlive)
      | inr hdead => exact .inr ⟨hexists other record hdead.1,hdead.2⟩
    constructor
    · intro other h
      dsimp only at h
      rw [lookup_insert_ite] at h
      split at h
      · next heq => exact heq ▸ hid
      · exact hc.named other h
    · exact fun other h => hexists other _ (hc.ready other h)
    · exact fun other h => hexists other _ (hc.busy other h)
    · exact fun other h => hstanding other _ (hc.signaling other h)
    · exact fun other h => hstanding other _ (hc.instances other h)
    · exact fun request entry h => halive _ _ (hc.requester request entry h)
    · exact hc.minted

theorem onReady (hc : Coherent forgetting c) (h : c.isAlive id = true) : Coherent forgetting (c.onReady id).1 := by
  have hexists := exists_of_isAlive h
  unfold Constellation.onReady
  split
  · exact hc
  · refine ⟨hc.named,?_,hc.busy,hc.signaling,hc.instances,hc.requester,hc.minted⟩
    intro other hother
    cases Finset.mem_insert.mp hother with
    | inl heq =>
      rw [heq]
      exact hexists
    | inr hold => exact hc.ready other hold

theorem onCapabilityInvoke (hc : Coherent forgetting c) (h : c.isAlive id = true) (ref : LuaValue) :
    Coherent forgetting (c.onCapabilityInvoke id ref).1 := by
  refine ⟨hc.named,hc.ready,hc.busy,hc.signaling,hc.instances,?_,?_⟩
  · intro request entry hentry
    simp only [Constellation.onCapabilityInvoke,lookup_insert_ite] at hentry
    split at hentry
    · cases hentry
      exact h
    · exact hc.requester request entry hentry
  · intro request entry hentry
    simp only [Constellation.onCapabilityInvoke,lookup_insert_ite] at hentry ⊢
    split at hentry
    · next heq => exact ⟨c.capSeq + 1,by omega,by omega,heq⟩
    · obtain ⟨n,hone,hle,hn⟩ := hc.minted request entry hentry
      exact ⟨n,hone,by omega,hn⟩

theorem markBusy (hc : Coherent forgetting c) (h : c.isAlive id = true) (now : Int) :
    Coherent forgetting (c.markBusy id now).1 := by
  have hexists := exists_of_isAlive h
  unfold Constellation.markBusy
  split
  · exact hc
  · refine ⟨hc.named,hc.ready,?_,hc.signaling,hc.instances,hc.requester,hc.minted⟩
    intro other hother
    dsimp only at hother
    rw [lookup_insert_ite] at hother
    split at hother
    · next heq =>
      rw [heq]
      exact hexists
    · exact hc.busy other hother

theorem markIdle (hc : Coherent forgetting c) (now : Int) : Coherent forgetting (c.markIdle id now).1 := by
  unfold Constellation.markIdle
  split
  · exact hc
  · refine ⟨hc.named,hc.ready,?_,hc.signaling,hc.instances,hc.requester,hc.minted⟩
    intro other hother
    dsimp only at hother
    rw [lookup_erase_ite] at hother
    split at hother
    · exact absurd rfl hother
    · exact hc.busy other hother

theorem applyCompletion (hc : Coherent forgetting c) (completion : ActorCompletion) (now : Int) :
    Coherent forgetting (c.applyCompletion id completion now).1 := by
  cases completion with
  | pending => exact hc
  | ok routed => exact hc.markIdle now
  | failed failure routed => exact hc.markIdle now

theorem onEmit (hc : Coherent forgetting c) (id : String) (generation : Nat) (message : Emission) (now : Int) :
    Coherent forgetting (c.onEmit id generation message now).1 := by
  unfold Constellation.onEmit
  split
  · exact hc
  · next hheard =>
    have hheard := heard hheard
    cases message with
    | ready => exact hc.onReady (by simpa [terminalControlSignal,signalBusEnvelope] using hheard)
    | capabilityInvoke ref =>
      exact hc.onCapabilityInvoke (by simpa [terminalControlSignal,signalBusEnvelope] using hheard) ref
    | complete completion => exact hc.applyCompletion completion now
    | output wire error =>
      dsimp only
      split
      · exact hc
      · cases error <;> exact hc
    | runComplete | approvalRequest | approvalCancel => exact hc

/-- A request is closed. -/
theorem close (hc : Coherent forgetting c) (request : String) :
    Coherent forgetting { c with pending := c.pending.erase request } := by
  refine ⟨hc.named,hc.ready,hc.busy,hc.signaling,hc.instances,?_,?_⟩
  · intro other entry h
    dsimp only at h
    rw [lookup_erase_ite] at h
    split at h
    · cases h
    · exact hc.requester other entry h
  · intro other entry h
    dsimp only at h
    rw [lookup_erase_ite] at h
    split at h
    · cases h
    · exact hc.minted other entry h

theorem respond (hc : Coherent forgetting c) (request : String) (entry : Correlation) :
    Coherent forgetting (c.respond request entry).1 := by
  rw [respond_closes]
  exact hc.close request

end Coherent

theorem mem_requestsOf {request : String} : request ∈ c.requestsOf id ↔
    ∃ entry, c.pending.lookup request = some entry ∧ entry.requester = id := by
  rw [requestsOf,List.mem_insertionSort,List.mem_filter]
  constructor
  · rintro ⟨_,h⟩
    cases hentry : c.pending.lookup request with
    | none => simp [hentry] at h
    | some entry => exact ⟨entry,rfl,by simpa [hentry] using h⟩
  · rintro ⟨entry,hentry,heq⟩
    refine ⟨AList.lookup_isSome.mp (by simp [hentry]),?_⟩
    simpa [hentry] using heq

theorem nodup_requestsOf (c : Constellation) (id : String) : (c.requestsOf id).Nodup :=
  (List.perm_insertionSort _ _).nodup_iff.mpr (c.pending.nodupKeys.filter _)

theorem mem_handled {handled : Bool} {signaling : Finset String} {other : String}
    (h : other ∈ if handled = true then insert id signaling else signaling) : other = id ∨ other ∈ signaling := by
  cases handled with
  | true => exact Finset.mem_insert.mp h
  | false => exact .inr h

/-- The tables after a kill that found a live actor. -/
theorem kill_alive {actor : Actor} (hactor : c.actors.lookup id = some actor) (halive : actor.alive = true) :
    ∃ signaling, c.kill id = ({ c with
        actors := c.actors.insert id { actor with alive := false }
        pending := (c.requestsOf id).foldl (fun pending request => pending.erase request) c.pending
        signaling := signaling },
      .died c.scope id :: (c.requestsOf id).map fun request => .cancel request .kill,true) ∧
      ∀ other, other ∈ signaling → other = id ∨ other ∈ c.signaling := by
  unfold kill
  rw [hactor]
  dsimp only
  rw [if_neg (by simp [halive])]
  exact ⟨_,rfl,fun other h => mem_handled h⟩

theorem kill_dead (h : c.isAlive id = false) : c.kill id = (c,[],false) := by
  unfold kill
  cases hactor : c.actors.lookup id with
  | none => rfl
  | some actor =>
    dsimp only
    rw [if_pos]
    simpa [isAlive,hactor] using h

namespace Coherent

/-- What a kill leaves: one dead actor that is being forgotten, and none of its requests. -/
theorem killed (hc : Coherent forgetting c) {actor : Actor} (hactor : c.actors.lookup id = some actor)
    {signaling : Finset String} (hsignaling : ∀ other, other ∈ signaling → other = id ∨ other ∈ c.signaling)
    (hid : forgetting' id = true) (hother : ∀ other, other ≠ id → forgetting' other = forgetting other) :
    Coherent forgetting' { c with
      actors := c.actors.insert id { actor with alive := false }
      pending := (c.requestsOf id).foldl (fun pending request => pending.erase request) c.pending
      signaling := signaling } := by
  have hexists : ∀ other, c.actors.lookup other ≠ none →
      (c.actors.insert id { actor with alive := false }).lookup other ≠ none := by
    intro other h
    rw [lookup_insert_ite]
    split
    · simp
    · exact h
  have halive : ∀ other, other ≠ id → c.isAlive other = true → Constellation.isAlive { c with
      actors := c.actors.insert id { actor with alive := false }
      pending := (c.requestsOf id).foldl (fun pending request => pending.erase request) c.pending
      signaling := signaling } other = true := by
    intro other hne h
    obtain ⟨found,hfound,hlive⟩ := isAlive_iff.mp h
    apply isAlive_iff.mpr
    refine ⟨found,?_,hlive⟩
    exact (AList.lookup_insert_ne hne).trans hfound
  have hstanding : ∀ other, c.actors.lookup other ≠ none ∧ (other = id ∨ Standing forgetting c other) →
      Standing forgetting' { c with
        actors := c.actors.insert id { actor with alive := false }
        pending := (c.requestsOf id).foldl (fun pending request => pending.erase request) c.pending
        signaling := signaling } other := by
    rintro other ⟨hex,h⟩
    by_cases heq : other = id
    · right
      refine ⟨hexists other hex,?_⟩
      rw [heq]
      exact hid
    · cases h.resolve_left heq with
      | inl hlive => exact .inl (halive other heq hlive)
      | inr hdead => exact .inr ⟨hexists other hex,(hother other heq).trans hdead.2⟩
  have hpending : ∀ request entry,
      ((c.requestsOf id).foldl (fun pending request => pending.erase request) c.pending).lookup request = some entry →
      c.pending.lookup request = some entry ∧ entry.requester ≠ id := by
    intro request entry h
    rw [lookup_foldl_erase] at h
    split at h
    · cases h
    · next hmem => exact ⟨h,fun heq => hmem (mem_requestsOf.mpr ⟨entry,h,heq⟩)⟩
  constructor
  · intro other h
    dsimp only at h
    rw [lookup_insert_ite] at h
    split at h
    · next heq =>
      rw [heq]
      exact hc.named id (by simp [hactor])
    · exact hc.named other h
  · exact fun other h => hexists other (hc.ready other h)
  · exact fun other h => hexists other (hc.busy other h)
  · intro other h
    apply hstanding
    cases hsignaling other h with
    | inl heq =>
      rw [heq]
      exact ⟨by simp [hactor],.inl rfl⟩
    | inr hold => exact ⟨(hc.signaling other hold).exists,.inr (hc.signaling other hold)⟩
  · exact fun other h => hstanding other ⟨(hc.instances other h).exists,.inr (hc.instances other h)⟩
  · intro request entry h
    obtain ⟨hold,hne⟩ := hpending request entry h
    exact halive _ hne (hc.requester request entry hold)
  · intro request entry h
    exact hc.minted request entry (hpending request entry h).1

theorem forget (hc : Coherent forgetting c) (hother : ∀ other, other ≠ id → forgetting' other = forgetting other) :
    Coherent forgetting' (c.forget id).1 := by
  have hstanding : ∀ other, other ≠ id → Standing forgetting c other → Standing forgetting' (c.forget id).1 other := by
    intro other hne h
    cases h with
    | inl hlive => exact .inl hlive
    | inr hdead => exact .inr ⟨hdead.1,(hother other hne).trans hdead.2⟩
  refine ⟨hc.named,?_,?_,?_,?_,hc.requester,hc.minted⟩
  · exact fun other h => hc.ready other (Finset.mem_of_mem_erase h)
  · intro other h
    dsimp only [Constellation.forget] at h
    rw [lookup_erase_ite] at h
    split at h
    · exact absurd rfl h
    · exact hc.busy other h
  · intro other h
    obtain ⟨hne,hold⟩ := Finset.mem_erase.mp h
    exact hstanding other hne (hc.signaling other hold)
  · intro other h
    dsimp only [Constellation.forget] at h
    rw [lookup_erase_ite] at h
    split at h
    · exact absurd rfl h
    · next hne => exact hstanding other hne (hc.instances other h)

theorem constructed (hc : Coherent forgetting c) (h : c.isAlive id = true) (made : Instance) :
    Coherent forgetting { c with instances := c.instances.insert id made } := by
  refine ⟨hc.named,hc.ready,hc.busy,hc.signaling,?_,hc.requester,hc.minted⟩
  intro other hother
  dsimp only at hother
  rw [lookup_insert_ite] at hother
  split at hother
  · next heq =>
    left
    rw [heq]
    exact h
  · exact hc.instances other hother

theorem signal (hc : Coherent forgetting c) (h : c.instances.lookup id ≠ none) :
    Coherent forgetting { c with signaling := insert id c.signaling } := by
  refine ⟨hc.named,hc.ready,hc.busy,?_,hc.instances,hc.requester,hc.minted⟩
  intro other hother
  cases Finset.mem_insert.mp hother with
  | inl heq =>
    rw [heq]
    exact hc.instances id h
  | inr hold => exact hc.signaling other hold

theorem generation (hc : Coherent forgetting c) (generations : AList fun _ : String => Nat) :
    Coherent forgetting { c with generations := generations } :=
  ⟨hc.named,hc.ready,hc.busy,hc.signaling,hc.instances,hc.requester,hc.minted⟩

theorem drained (hc : Coherent forgetting c) (id : String) :
    Coherent forgetting { c with signaling := c.signaling.erase id } :=
  ⟨hc.named,hc.ready,hc.busy,fun other h => hc.signaling other (Finset.mem_of_mem_erase h),hc.instances,hc.requester,hc.minted⟩

/-- What is forgotten matters for dead actors only. -/
theorem settled (hc : Coherent forgetting c) (h : ∀ id, forgetting id = forgetting' id) : Coherent forgetting' c :=
  (funext h : forgetting = forgetting') ▸ hc

end Coherent

end Constellation
end Nefor.Kernel
