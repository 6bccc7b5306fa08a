import Nefor.Behaviour
import Nefor.Kernel.CompactionBroker
import Nefor.Kernel.RunSteps
import Nefor.Maps
import Nefor.Trace

/-! A command of an actor is answered once at most, to the actor that asked, and never after it was
withdrawn. -/
namespace Nefor.Kernel
open Nefor.Lua Behaviour

inductive CommandState
  | fresh
  | waiting (owner : String)
  | closed
  deriving DecidableEq

def BrokerEvent.command : BrokerEvent → Option String
  | asked id _ _ _ | withdrawn id | cancelled id _ _ | answered id _ _ => some id
  | written _ _ | recorded _ _ _ | rejected _ _ => none

def answering : Behaviour CommandState BrokerEvent where
  start := .fresh
  next
    | .fresh, .asked _ owner _ _ => some (.waiting owner)
    | .fresh, .withdrawn _ => some .fresh
    | .waiting owner, .cancelled _ _ _ => some (.waiting owner)
    | .waiting _, .withdrawn _ => some .closed
    | .waiting owner, .answered _ owner' _ => if owner' = owner then some .closed else none
    | .closed, .withdrawn _ => some .closed
    | _, _ => none

namespace CompactionBroker

theorem commandId_inj {scope : String} {n m : Nat} (h : commandId scope n = commandId scope m) : n = m := by
  have htext := congrArg String.toList h
  simp only [commandId,String.toList_append,List.append_cancel_left_eq] at htext
  exact toString_inj (String.toList_inj.mp htext)

def Minted (b : CompactionBroker) (id : String) : Prop := ∃ n, 1 ≤ n ∧ n ≤ b.serial ∧ id = commandId b.scope n

/-- The command is open, or its answer is in the queue and somebody waits for it. -/
def Waits (b : CompactionBroker) (id owner : String) : Prop :=
  (∃ p, b.pending.lookup id = some p ∧ p.owner = owner) ∨ ∃ entry ∈ b.queue, entry.id = id ∧ entry.done = true ∧ entry.owner = owner

structure Kept (b : CompactionBroker) : Prop where
  pending : ∀ id p, b.pending.lookup id = some p → b.Minted id
  queue : ∀ entry ∈ b.queue, b.Minted entry.id
  nodup : (b.queue.map QueuedAnswer.id).Nodup
  disjoint : ∀ entry ∈ b.queue, b.pending.lookup entry.id = none

/-- Where the tables say that a command stands. -/
def Stands (b : CompactionBroker) (id : String) : CommandState → Prop
  | .fresh => ¬b.Minted id
  | .waiting owner => b.Waits id owner
  | .closed => b.Minted id ∧ ∀ owner, ¬b.Waits id owner

/-- What the events of a step say about one command, when they say at most one thing. -/
inductive Fate (b b' : CompactionBroker) (id : String) : List BrokerEvent → Prop
  | stays : (∀ owner, b'.Waits id owner ↔ b.Waits id owner) → Fate b b' id []
  | withdrawn : (∀ owner, ¬b'.Waits id owner) → Fate b b' id [.withdrawn id]
  | cancelled {conversationId reason : LuaValue} {owner : String} : b.Waits id owner →
    (∀ owner, b'.Waits id owner ↔ b.Waits id owner) → Fate b b' id [.cancelled id conversationId reason]
  | answered {owner : String} {outcome : LuaValue} : b.Waits id owner → (∀ owner, ¬b'.Waits id owner) →
    Fate b b' id [.answered id owner outcome]

/-- One or more steps: the tables are kept, and every command goes on with what the events say. -/
structure Answers (b : CompactionBroker) (events : List BrokerEvent) (b' : CompactionBroker) : Prop where
  kept : b.Kept → b'.Kept
  follows : b.Kept → ∀ id s, b.Stands id s →
    ∃ t, answering.after s (about BrokerEvent.command id events) = some t ∧ b'.Stands id t

variable {b b' b'' : CompactionBroker} {events events' : List BrokerEvent} {id owner : String}

theorem Kept.minted (h : b.Kept) (hw : b.Waits id owner) : b.Minted id := by
  cases hw with
  | inl hpending =>
    obtain ⟨p,hp,_⟩ := hpending
    exact h.pending id p hp
  | inr hqueue =>
    obtain ⟨entry,hentry,rfl,_⟩ := hqueue
    exact h.queue entry hentry

theorem Kept.waits_unique {owner' : String} (h : b.Kept) (hw : b.Waits id owner) (hw' : b.Waits id owner') : owner = owner' := by
  have hunique : ∀ {entry entry'}, entry ∈ b.queue → entry' ∈ b.queue → entry.id = entry'.id → entry = entry' :=
    fun hentry hentry' heq => List.inj_on_of_nodup_map h.nodup hentry hentry' heq
  rcases hw with ⟨p,hp,rfl⟩ | ⟨entry,hentry,rfl,_,rfl⟩ <;> rcases hw' with ⟨p',hp',rfl⟩ | ⟨entry',hentry',heq,_,rfl⟩
  · cases hp.symm.trans hp'
    rfl
  · rw [← heq,h.disjoint entry' hentry'] at hp
    cases hp
  · rw [h.disjoint entry hentry] at hp'
    cases hp'
  · rw [hunique hentry' hentry heq]

namespace Answers

theorem refl (b : CompactionBroker) : Answers b [] b := ⟨fun h => h,fun _ _ s hs => ⟨s,rfl,hs⟩⟩

theorem trans (h : Answers b events b') (h' : Answers b' events' b'') : Answers b (events ++ events') b'' := by
  refine ⟨fun hb => h'.kept (h.kept hb),fun hb id s hs => ?_⟩
  obtain ⟨t,ht,hstands⟩ := h.follows hb id s hs
  obtain ⟨u,hu,hstands'⟩ := h'.follows (h.kept hb) id t hstands
  refine ⟨u,?_,hstands'⟩
  rw [about_append,after_append,ht]
  exact hu

/-- A step that mints nothing and says one thing at most about each command. -/
theorem of_fates (hscope : b'.scope = b.scope) (hserial : b'.serial = b.serial) (hkept : b.Kept → b'.Kept)
    (hfate : b.Kept → ∀ id, Fate b b' id (about BrokerEvent.command id events)) : Answers b events b' := by
  refine ⟨hkept,fun hb id s hs => ?_⟩
  have hminted : b'.Minted id ↔ b.Minted id := by
    unfold Minted
    rw [hscope,hserial]
  have hfate := hfate hb id
  generalize about BrokerEvent.command id events = said at hfate
  cases hfate with
  | stays hsame =>
    refine ⟨s,rfl,?_⟩
    cases s with
    | fresh => exact fun h => hs (hminted.mp h)
    | waiting owner => exact (hsame owner).mpr hs
    | closed => exact ⟨hminted.mpr hs.1,fun owner h => hs.2 owner ((hsame owner).mp h)⟩
  | withdrawn hnone =>
    cases s with
    | fresh => exact ⟨.fresh,rfl,fun h => hs (hminted.mp h)⟩
    | waiting owner => exact ⟨.closed,rfl,hminted.mpr (hb.minted hs),hnone⟩
    | closed => exact ⟨.closed,rfl,hminted.mpr hs.1,hnone⟩
  | cancelled hw hsame =>
    cases s with
    | fresh => exact absurd (hb.minted hw) hs
    | waiting owner => exact ⟨.waiting owner,rfl,(hsame owner).mpr hs⟩
    | closed => exact absurd hw (hs.2 _)
  | answered hw hnone =>
    cases s with
    | fresh => exact absurd (hb.minted hw) hs
    | waiting owner =>
      obtain rfl := hb.waits_unique hw hs
      refine ⟨.closed,?_,hminted.mpr (hb.minted hs),hnone⟩
      rw [after_singleton]
      exact if_pos rfl
    | closed => exact absurd hw (hs.2 _)

/-- Nothing that commands are read from changes. -/
theorem same (hscope : b'.scope = b.scope) (hserial : b'.serial = b.serial) (hpending : b'.pending = b.pending)
    (hqueue : b'.queue = b.queue) (hsilent : ∀ e ∈ events, e.command = none) : Answers b events b' := by
  apply of_fates hscope hserial
  · intro h
    refine ⟨?_,?_,?_,?_⟩
    · unfold Minted
      rw [hpending,hscope,hserial]
      exact h.pending
    · unfold Minted
      rw [hqueue,hscope,hserial]
      exact h.queue
    · rw [hqueue]
      exact h.nodup
    · rw [hqueue,hpending]
      exact h.disjoint
  · intro _ id
    rw [about_eq_nil]
    · apply Fate.stays
      intro owner
      unfold Waits
      rw [hpending,hqueue]
    · intro e he
      simp [hsilent e he]

end Answers

/-- A pending command and the queue never name the same command. -/
theorem Kept.not_queued (h : b.Kept) {p : Command} (hp : b.pending.lookup id = some p) {entry : QueuedAnswer}
    (hentry : entry ∈ b.queue) : entry.id ≠ id := by
  rintro rfl
  cases (h.disjoint entry hentry).symm.trans hp

theorem answers_settle (b : CompactionBroker) (id : String) (outcome : LuaValue) : Answers b [] (b.settle id outcome) := by
  unfold settle
  cases hp : b.pending.lookup id with
  | none => exact Answers.refl b
  | some p =>
    apply Answers.of_fates
    · rfl
    · rfl
    · intro h
      refine ⟨?_,?_,?_,?_⟩
      · intro other q hq
        dsimp only at hq
        rw [lookup_erase_ite] at hq
        split at hq
        · cases hq
        · exact h.pending other q hq
      · intro entry hentry
        cases List.mem_append.mp hentry with
        | inl hold => exact h.queue entry hold
        | inr hnew =>
          rw [List.mem_singleton.mp hnew]
          exact h.pending id p hp
      · rw [List.map_append,List.nodup_append]
        refine ⟨h.nodup,by simp,?_⟩
        intro other hother other' hother'
        obtain ⟨entry,hentry,rfl⟩ := List.mem_map.mp hother
        rw [List.map_singleton,List.mem_singleton] at hother'
        rw [hother']
        exact h.not_queued hp hentry
      · intro entry hentry
        dsimp only
        rw [lookup_erase_ite]
        split
        · rfl
        · next hne =>
          cases List.mem_append.mp hentry with
          | inl hold => exact h.disjoint entry hold
          | inr hnew =>
            rw [List.mem_singleton.mp hnew] at hne
            exact absurd rfl hne
    · intro h other
      apply Fate.stays
      intro owner
      unfold Waits
      dsimp only
      constructor
      · rintro (⟨q,hq,rfl⟩ | ⟨entry,hentry,rfl,hdone,rfl⟩)
        · rw [lookup_erase_ite] at hq
          split at hq
          · cases hq
          · exact .inl ⟨q,hq,rfl⟩
        · cases List.mem_append.mp hentry with
          | inl hold => exact .inr ⟨entry,hold,rfl,hdone,rfl⟩
          | inr hnew =>
            rw [List.mem_singleton.mp hnew]
            exact .inl ⟨p,hp,rfl⟩
      · rintro (⟨q,hq,rfl⟩ | ⟨entry,hentry,rfl,hdone,rfl⟩)
        · by_cases heq : other = id
          · subst heq
            cases hp.symm.trans hq
            exact .inr ⟨_,List.mem_append_right _ List.mem_cons_self,rfl,rfl,rfl⟩
          · exact .inl ⟨q,(AList.lookup_erase_ne heq).trans hq,rfl⟩
        · exact .inr ⟨entry,List.mem_append_left _ hentry,rfl,hdone,rfl⟩

theorem answers_settles (b : CompactionBroker) (answers : List (String × LuaValue)) :
    Answers b [] (answers.foldl (fun b answer => b.settle answer.1 answer.2) b) := by
  induction answers generalizing b with
  | nil => exact Answers.refl b
  | cons answer rest ih => exact (answers_settle b answer.1 answer.2).trans (ih _)

theorem answers_checkBarriers (b : CompactionBroker) (order : List String → List String) :
    Answers b [] (b.checkBarriers order) :=
  (answers_settles b _).trans (.same rfl rfl rfl rfl (by simp))

/-- The queue says the same of every command. -/
theorem answers_requeue (b : CompactionBroker) (outcome : LuaValue) :
    Answers b [] { b with queue := b.queue.map fun entry => { entry with outcome := outcome } } := by
  apply Answers.of_fates
  · rfl
  · rfl
  · intro h
    refine ⟨h.pending,?_,?_,?_⟩
    · intro entry hentry
      obtain ⟨old,hold,rfl⟩ := List.mem_map.mp hentry
      exact h.queue old hold
    · rw [List.map_map]
      exact h.nodup
    · intro entry hentry
      obtain ⟨old,hold,rfl⟩ := List.mem_map.mp hentry
      exact h.disjoint old hold
  · intro h id
    apply Fate.stays
    intro owner
    unfold Waits
    apply or_congr_right
    constructor
    · rintro ⟨entry,hentry,hid,hdone,howner⟩
      obtain ⟨old,hold,rfl⟩ := List.mem_map.mp hentry
      exact ⟨old,hold,hid,hdone,howner⟩
    · rintro ⟨entry,hentry,hid,hdone,howner⟩
      exact ⟨_,List.mem_map_of_mem hentry,hid,hdone,howner⟩

theorem answers_isRequest {p : Command} (hp : b.pending.lookup id = some p) (reason : LuaValue) :
    Answers b (isRequest p id reason) b := by
  unfold isRequest
  split
  · apply Answers.of_fates rfl rfl fun h => h
    intro _ other
    by_cases heq : other = id
    · subst heq
      rw [about_singleton _ (by rfl)]
      exact .cancelled (.inl ⟨p,hp,rfl⟩) fun _ => Iff.rfl
    · rw [about_eq_nil]
      · exact .stays fun _ => Iff.rfl
      · intro e he
        rw [List.mem_singleton.mp he]
        simpa [BrokerEvent.command] using Ne.symm heq
  · exact Answers.refl b

/-- Commands leave the tables. -/
theorem Kept.of_subset (h : b.Kept) (hscope : b'.scope = b.scope) (hserial : b'.serial = b.serial)
    (hpending : ∀ id p, b'.pending.lookup id = some p → b.pending.lookup id = some p)
    (hqueue : (b'.queue.map QueuedAnswer.id).Sublist (b.queue.map QueuedAnswer.id)) : b'.Kept := by
  have hminted : ∀ id, b'.Minted id ↔ b.Minted id := by
    intro id
    unfold Minted
    rw [hscope,hserial]
  have hold : ∀ entry ∈ b'.queue, ∃ old ∈ b.queue, old.id = entry.id := fun entry hentry =>
    List.mem_map.mp (hqueue.subset (List.mem_map_of_mem hentry))
  refine ⟨?_,?_,hqueue.nodup h.nodup,?_⟩
  · exact fun id p hp => (hminted id).mpr (h.pending id p (hpending id p hp))
  · intro entry hentry
    obtain ⟨old,hmem,heq⟩ := hold entry hentry
    rw [hminted,← heq]
    exact h.queue old hmem
  · intro entry hentry
    obtain ⟨old,hmem,heq⟩ := hold entry hentry
    cases hp : b'.pending.lookup entry.id with
    | none => rfl
    | some p =>
      rw [← heq] at hp
      cases (h.disjoint old hmem).symm.trans (hpending _ p hp)

theorem silence_ids (queue : List QueuedAnswer) (gone : QueuedAnswer → Bool) :
    (silence queue gone).map QueuedAnswer.id = queue.map QueuedAnswer.id := by
  rw [silence,List.map_map]
  apply List.map_congr_left
  intro entry _
  rw [Function.comp]
  split <;> rfl

theorem mem_silence {queue : List QueuedAnswer} {gone : QueuedAnswer → Bool} {id owner : String} :
    (∃ entry ∈ silence queue gone, entry.id = id ∧ entry.done = true ∧ entry.owner = owner) ↔
      ∃ entry ∈ queue, entry.id = id ∧ entry.done = true ∧ entry.owner = owner ∧ gone entry = false := by
  constructor
  · rintro ⟨entry,hentry,hid,hdone,howner⟩
    obtain ⟨old,hold,heq⟩ := List.mem_map.mp hentry
    split at heq
    · rw [← heq] at hdone
      cases hdone
    · next hnot =>
      subst heq
      exact ⟨old,hold,hid,hdone,howner,by simpa using hnot⟩
  · rintro ⟨entry,hentry,hid,hdone,howner,hnot⟩
    refine ⟨entry,List.mem_map.mpr ⟨entry,hentry,?_⟩,hid,hdone,howner⟩
    rw [hnot]
    rfl

/-- A command is withdrawn, wherever it is. -/
theorem answers_withdrawn (hscope : b'.scope = b.scope) (hserial : b'.serial = b.serial)
    (hpending : ∀ other, b'.pending.lookup other = if other = id then none else b.pending.lookup other)
    (hqueue : b'.queue = silence b.queue fun entry => entry.id == id) : Answers b [.withdrawn id] b' := by
  have hlookup : ∀ other p, b'.pending.lookup other = some p → other ≠ id ∧ b.pending.lookup other = some p := by
    intro other p hp
    rw [hpending] at hp
    split at hp
    · cases hp
    · next hne => exact ⟨hne,hp⟩
  apply Answers.of_fates hscope hserial
  · intro h
    apply h.of_subset hscope hserial
    · exact fun other p hp => (hlookup other p hp).2
    · rw [hqueue,silence_ids]
  · intro h other
    by_cases heq : other = id
    · subst heq
      rw [about_singleton _ (by rfl)]
      apply Fate.withdrawn
      rintro owner (⟨p,hp,_⟩ | hentry)
      · exact (hlookup other p hp).1 rfl
      · rw [hqueue,mem_silence] at hentry
        obtain ⟨entry,_,hid,_,_,hnot⟩ := hentry
        simp [hid] at hnot
    · rw [about_eq_nil]
      · apply Fate.stays
        intro owner
        unfold Waits
        rw [hpending,hqueue,if_neg heq,mem_silence]
        apply or_congr_right
        constructor
        · rintro ⟨entry,hentry,hid,hdone,howner,_⟩
          exact ⟨entry,hentry,hid,hdone,howner⟩
        · rintro ⟨entry,hentry,hid,hdone,howner⟩
          exact ⟨entry,hentry,hid,hdone,howner,by simpa [hid] using heq⟩
      · intro e he
        rw [List.mem_singleton.mp he]
        simpa [BrokerEvent.command] using Ne.symm heq

theorem answers_abandon {p : Command} (hp : b.pending.lookup id = some p) : Answers b [.withdrawn id] (b.abandon id p) := by
  apply Answers.of_fates
  · rfl
  · rfl
  · intro h
    apply h.of_subset
    · rfl
    · rfl
    · intro other q hq
      dsimp only [abandon] at hq
      rw [lookup_erase_ite] at hq
      split at hq
      · cases hq
      · exact hq
    · exact List.Sublist.refl _
  · intro h other
    by_cases heq : other = id
    · subst heq
      rw [about_singleton _ (by rfl)]
      apply Fate.withdrawn
      rintro owner (⟨q,hq,_⟩ | ⟨entry,hentry,hid,_⟩)
      · dsimp only [abandon] at hq
        rw [AList.lookup_erase] at hq
        cases hq
      · exact h.not_queued hp hentry hid
    · rw [about_eq_nil]
      · apply Fate.stays
        intro owner
        unfold Waits
        dsimp only [abandon]
        rw [AList.lookup_erase_ne heq]
      · intro e he
        rw [List.mem_singleton.mp he]
        simpa [BrokerEvent.command] using Ne.symm heq

/-- A new command. -/
theorem answers_ask (b : CompactionBroker) (owner : String) (op : CommandOp) (args : LuaValue) (captured : List String) :
    Answers b [.asked (commandId b.scope (b.serial + 1)) owner op args]
      { b with serial := b.serial + 1, pending := b.pending.insert (commandId b.scope (b.serial + 1)) ⟨op,args,owner,captured⟩ } := by
  have hfresh : ¬b.Minted (commandId b.scope (b.serial + 1)) := by
    rintro ⟨n,_,hn,heq⟩
    have := commandId_inj heq
    omega
  have hminted : ∀ id, b.Minted id → ∃ n, 1 ≤ n ∧ n ≤ b.serial + 1 ∧ id = commandId b.scope n := by
    rintro id ⟨n,hone,hn,heq⟩
    exact ⟨n,hone,by omega,heq⟩
  constructor
  · intro h
    refine ⟨?_,fun entry hentry => hminted entry.id (h.queue entry hentry),h.nodup,?_⟩
    · intro id p hp
      dsimp only at hp
      rw [lookup_insert_ite] at hp
      split at hp
      · next heq => exact ⟨b.serial + 1,by omega,Nat.le_refl _,heq⟩
      · exact hminted id (h.pending id p hp)
    · intro entry hentry
      have hne : entry.id ≠ commandId b.scope (b.serial + 1) := fun heq => hfresh (heq ▸ h.queue entry hentry)
      exact (AList.lookup_insert_ne hne).trans (h.disjoint entry hentry)
  · intro h id s hs
    by_cases heq : id = commandId b.scope (b.serial + 1)
    · subst heq
      cases s with
      | fresh =>
        refine ⟨.waiting owner,?_,.inl ⟨_,AList.lookup_insert _,rfl⟩⟩
        rw [about_singleton _ (by rfl),after_singleton]
        rfl
      | waiting other => exact absurd (h.minted hs) hfresh
      | closed => exact absurd hs.1 hfresh
    · refine ⟨s,?_,?_⟩
      · rw [about_eq_nil]
        · rfl
        · intro e he
          rw [List.mem_singleton.mp he]
          simpa [BrokerEvent.command] using Ne.symm heq
      · have hsame : ∀ other, Waits { b with
            serial := b.serial + 1
            pending := b.pending.insert (commandId b.scope (b.serial + 1)) ⟨op,args,owner,captured⟩ } id other ↔ b.Waits id other := by
          intro other
          unfold Waits
          dsimp only
          rw [AList.lookup_insert_ne heq]
        cases s with
        | fresh =>
          rintro ⟨n,hone,hn,hid⟩
          by_cases hlast : n = b.serial + 1
          · subst hlast
            exact heq hid
          · exact hs ⟨n,hone,by dsimp only at hn; omega,hid⟩
        | waiting other => exact (hsame other).mpr hs
        | closed => exact ⟨hminted id hs.1,fun other h => hs.2 other ((hsame other).mp h)⟩

theorem answers_supersede (b : CompactionBroker) (id request : String) :
    Answers b (b.supersede id request).2 (b.supersede id request).1 := by
  unfold supersede
  dsimp only
  have hfirst : Answers b [.withdrawn request] { b with
      pending := b.pending.erase request, queue := silence b.queue fun entry => entry.id == request } :=
    answers_withdrawn rfl rfl (fun other => lookup_erase_ite b.pending other request) rfl
  cases b.cancellations.lookup request with
  | none => exact hfirst.trans (.same rfl rfl rfl rfl (by simp))
  | some previous => exact hfirst.trans ((answers_settle _ previous _).trans (.same rfl rfl rfl rfl (by simp)))

theorem scope_settle (b : CompactionBroker) (id : String) (outcome : LuaValue) :
    (b.settle id outcome).scope = b.scope ∧ (b.settle id outcome).serial = b.serial := by
  unfold settle
  split <;> exact ⟨rfl,rfl⟩

theorem scope_supersede (b : CompactionBroker) (id request : String) :
    (b.supersede id request).1.scope = b.scope ∧ (b.supersede id request).1.serial = b.serial := by
  unfold supersede
  dsimp only
  cases b.cancellations.lookup request with
  | none => exact ⟨rfl,rfl⟩
  | some previous => exact scope_settle _ previous _

theorem answers_register (b : CompactionBroker) (order : List String → List String) (owner : String) (op : CommandOp)
    (args : LuaValue) : Answers b (b.register order owner op args).2 (b.register order owner op args).1 := by
  have hask : ∀ {b' events input captured}, Answers b events b' → b'.scope = b.scope ∧ b'.serial = b.serial →
      Answers b (events ++ [BrokerEvent.asked (commandId b.scope (b.serial + 1)) owner op input]) { b' with
        serial := b.serial + 1
        pending := b'.pending.insert (commandId b.scope (b.serial + 1)) ⟨op,input,owner,captured⟩ } := by
    rintro b' events input captured h ⟨hscope,hserial⟩
    rw [← hscope,← hserial]
    exact h.trans (answers_ask b' owner op input captured)
  have hcheck : ∀ {b' events}, Answers b events b' → Answers b events (if op = .barrier then b'.checkBarriers order else b') := by
    intro b' events h
    split
    · have hchecked := h.trans (answers_checkBarriers b' order)
      rw [List.append_nil] at hchecked
      exact hchecked
    · exact h
  unfold register
  dsimp only
  split
  · exact hcheck (hask (answers_supersede b _ _) (scope_supersede b _ _))
  · exact hcheck (hask (Answers.refl b) ⟨rfl,rfl⟩)

theorem answers_detach (b : CompactionBroker) (id : String) : Answers b (b.detach id).2 (b.detach id).1 := by
  unfold detach
  dsimp only
  cases hp : b.pending.lookup id with
  | some p => exact answers_withdrawn rfl rfl (fun other => lookup_erase_ite b.pending other id) rfl
  | none =>
    apply answers_withdrawn
    · rfl
    · rfl
    · intro other
      dsimp only
      by_cases heq : other = id
      · rw [heq,if_pos rfl,hp]
      · rw [if_neg heq]
    · rfl

theorem answers_detachOwned {r : CompactionBroker × List BrokerEvent} (h : Answers b r.2 r.1) (owner : String) (ids : List String) :
    Answers b (ids.foldl (detachOwned owner) r).2 (ids.foldl (detachOwned owner) r).1 := by
  induction ids generalizing r with
  | nil => exact h
  | cons id rest ih =>
    apply ih
    unfold detachOwned
    cases hp : r.1.pending.lookup id with
    | none => exact h
    | some p =>
      dsimp only
      split
      · exact h.trans ((answers_isRequest hp _).trans (answers_abandon hp))
      · exact h

/-- What the owner waits for in the queue is withdrawn. -/
theorem answers_silence (b : CompactionBroker) (owner : String) :
    Answers b (((b.queue.filter fun entry => entry.owner == owner).map QueuedAnswer.id).map .withdrawn)
      { b with queue := silence b.queue fun entry => entry.owner == owner } := by
  apply Answers.of_fates
  · rfl
  · rfl
  · intro h
    apply h.of_subset
    · rfl
    · rfl
    · exact fun _ _ hp => hp
    · dsimp only
      rw [silence_ids]
  · intro h id
    by_cases hmem : id ∈ (b.queue.filter fun entry => entry.owner == owner).map QueuedAnswer.id
    · have hnodup : ((b.queue.filter fun entry => entry.owner == owner).map QueuedAnswer.id).Nodup :=
        (List.filter_sublist.map _).nodup h.nodup
      rw [about_map BrokerEvent.command (f := .withdrawn) (fun _ => rfl) hnodup hmem]
      obtain ⟨entry,hentry,rfl⟩ := List.mem_map.mp hmem
      obtain ⟨hqueue,howner⟩ := List.mem_filter.mp hentry
      apply Fate.withdrawn
      rintro other (⟨p,hp,_⟩ | hwaits)
      · exact h.not_queued hp hqueue rfl
      · rw [mem_silence] at hwaits
        obtain ⟨found,hfound,hid,_,_,hnot⟩ := hwaits
        rw [List.inj_on_of_nodup_map h.nodup hfound hqueue hid,howner] at hnot
        cases hnot
    · rw [about_eq_nil]
      · apply Fate.stays
        intro other
        unfold Waits
        rw [mem_silence]
        apply or_congr_right
        constructor
        · rintro ⟨entry,hentry,hid,hdone,howner,_⟩
          exact ⟨entry,hentry,hid,hdone,howner⟩
        · rintro ⟨entry,hentry,rfl,hdone,howner⟩
          refine ⟨entry,hentry,rfl,hdone,howner,?_⟩
          rw [Bool.eq_false_iff]
          exact fun hgone => hmem (List.mem_map_of_mem (List.mem_filter.mpr ⟨hentry,hgone⟩))
      · intro e he
        obtain ⟨other,hother,rfl⟩ := List.mem_map.mp he
        rintro ⟨⟩
        exact hmem hother

theorem answers_detachOwner (b : CompactionBroker) (order : List String → List String) (owner : String) :
    Answers b (b.detachOwner order owner).2 (b.detachOwner order owner).1 :=
  (answers_detachOwned (r := (b,[])) (Answers.refl b) owner (order b.pending.keys)).trans (answers_silence _ owner)

theorem answers_interruptOne {r : CompactionBroker × List BrokerEvent} (h : Answers b r.2 r.1) (reason : LuaValue) (ids : List String) :
    Answers b (ids.foldl (interruptOne reason) r).2 (ids.foldl (interruptOne reason) r).1 := by
  induction ids generalizing r with
  | nil => exact h
  | cons id rest ih =>
    apply ih
    unfold interruptOne
    cases hp : r.1.pending.lookup id with
    | none => exact h
    | some p =>
      have hsettled := h.trans ((answers_isRequest hp reason).trans (answers_settle r.1 id
        (failureOutcome (.str "compaction_interrupted") (.record [("reason",reason)]))))
      rw [List.append_nil] at hsettled
      exact hsettled

theorem answers_interrupt (b : CompactionBroker) (order : List String → List String) (reason : LuaValue) :
    Answers b (b.interrupt order reason).2 (b.interrupt order reason).1 :=
  answers_interruptOne (r := (_,[])) (answers_requeue b _) reason (order b.pending.keys)

theorem answers_take (b : CompactionBroker) (live : Bool) : Answers b (b.take live).2 (b.take live).1 := by
  unfold take
  cases hqueue : b.queue with
  | nil => exact Answers.refl b
  | cons entry rest =>
    have hkept : ∀ h : b.Kept, Kept { b with queue := rest } := by
      intro h
      apply h.of_subset
      · rfl
      · rfl
      · exact fun _ _ hp => hp
      · rw [hqueue,List.map_cons]
        exact List.sublist_cons_self _ _
    have hgone : b.Kept → ∀ owner, ¬Waits { b with queue := rest } entry.id owner := by
      rintro h owner (⟨p,hp,_⟩ | ⟨other,hother,hid,_⟩)
      · exact h.not_queued hp (by rw [hqueue]; exact List.mem_cons_self) rfl
      · have hnodup := h.nodup
        rw [hqueue,List.map_cons,List.nodup_cons] at hnodup
        exact hnodup.1 (List.mem_map.mpr ⟨other,hother,hid⟩)
    have hothers : ∀ id, id ≠ entry.id → ∀ owner, Waits { b with queue := rest } id owner ↔ b.Waits id owner := by
      intro id hne owner
      unfold Waits
      dsimp only
      rw [hqueue]
      apply or_congr_right
      constructor
      · rintro ⟨other,hother,hwaits⟩
        exact ⟨other,List.mem_cons_of_mem _ hother,hwaits⟩
      · rintro ⟨other,hother,hid,hwaits⟩
        cases List.mem_cons.mp hother with
        | inl heq =>
          rw [heq] at hid
          exact absurd hid.symm hne
        | inr hrest => exact ⟨other,hrest,hid,hwaits⟩
    have hpop : ∀ e : BrokerEvent, e.command = some entry.id → (b.Kept → Fate b { b with queue := rest } entry.id [e]) →
        Answers b [e] { b with queue := rest } := by
      intro e hkey hfate
      refine Answers.of_fates ?_ ?_ hkept ?_
      · rfl
      · rfl
      · intro h id
        by_cases heq : id = entry.id
        · subst heq
          rw [about_singleton _ hkey]
          exact hfate h
        · rw [about_eq_nil]
          · exact .stays (hothers id heq)
          · intro e' he
            rw [List.mem_singleton.mp he,hkey]
            simpa using Ne.symm heq
    dsimp only
    split
    · next hdone =>
      apply hpop _ (by rfl)
      intro h
      apply Fate.answered _ (hgone h)
      refine .inr ⟨entry,?_,rfl,?_,rfl⟩
      · rw [hqueue]
        exact List.mem_cons_self
      · rw [Bool.and_eq_true] at hdone
        exact hdone.1
    · exact hpop _ (by rfl) fun h => .withdrawn (hgone h)

theorem answers_receipt (b : CompactionBroker) (order : List String → List String) (body : LuaValue) (recorded : Bool) :
    Answers b (b.receipt order body recorded).2 (b.receipt order body recorded).1 := by
  have hchecked : ∀ {b' : CompactionBroker} {e : BrokerEvent}, e.command = none → b'.scope = b.scope → b'.serial = b.serial →
      b'.pending = b.pending → b'.queue = b.queue → Answers b [e] (b'.checkBarriers order) := by
    intro b' e he hscope hserial hpending hqueue
    have hsame : Answers b [e] b' := Answers.same hscope hserial hpending hqueue (by simpa using he)
    have hafter := hsame.trans (answers_checkBarriers b' order)
    rw [List.append_nil] at hafter
    exact hafter
  unfold receipt
  dsimp only
  split
  · exact Answers.refl b
  · split
    · exact Answers.refl b
    · split
      · split
        · split
          · apply hchecked <;> rfl
          · apply hchecked <;> rfl
        · exact Answers.refl b
      · exact Answers.refl b

theorem answers_finished (b : CompactionBroker) (event : LuaValue) : Answers b [] (b.finished event) := by
  unfold finished
  dsimp only
  split
  · exact Answers.refl b
  · split
    · exact Answers.refl b
    · split
      · exact Answers.refl b
      · split
        · exact answers_settle b _ _
        · split
          · exact answers_settle b _ _
          · exact Answers.refl b

theorem answers_answer (b : CompactionBroker) (source kind : String) (body : LuaValue) :
    Answers b [] (b.answer source kind body) := by
  unfold answer
  split
  · exact Answers.refl b
  · split
    · exact Answers.refl b
    · split
      · split
        · exact answers_settle b _ _
        · exact Answers.refl b
      · exact Answers.refl b

theorem answers_event (b : CompactionBroker) (order : List String → List String) (source : String) (body : LuaValue) :
    Answers b (b.event order source body).2 (b.event order source body).1 := by
  unfold event
  split
  · split
    · exact Answers.refl b
    · split
      · exact Answers.refl b
      · split
        · have hfinished := (answers_receipt b order body true).trans (answers_finished _ (body.get "event"))
          rw [List.append_nil] at hfinished
          exact hfinished
        · split
          · exact answers_receipt b order body false
          · exact answers_answer b source _ body
  · exact Answers.refl b

theorem answers_emit (b : CompactionBroker) (eventId conversationId : String) :
    Answers b (b.emit eventId conversationId).2 (b.emit eventId conversationId).1 :=
  .same rfl rfl rfl rfl (by simp [emit,BrokerEvent.command])

theorem answers_perform (b : CompactionBroker) (order : List String → List String) (act : Act) :
    Answers b (b.perform order act).2 (b.perform order act).1 := by
  cases act with
  | emit eventId conversationId => exact answers_emit b eventId conversationId
  | register owner op args => exact answers_register b order owner op args
  | detach id => exact answers_detach b id
  | detachOwner owner => exact answers_detachOwner b order owner
  | interrupt reason => exact answers_interrupt b order reason
  | take live => exact answers_take b live
  | event source body => exact answers_event b order source body

def Session.new (scope : String) : Session := ⟨.new scope,[]⟩

/-- In every run a command is asked once and answered once at most, to the owner that asked, while nobody has
withdrawn it: not by detaching it, not by detaching its owner, not by cancelling its compaction. Where it
stands is what the tables say. -/
theorem commands_answered {scope : String} {acts : List Act} {s : Session} (h : Trace Next (.new scope) acts s) (id : String) :
    ∃ v, answering.after answering.start (about BrokerEvent.command id s.log) = some v ∧
      ∀ owner, v = .waiting owner ↔ s.broker.Waits id owner := by
  have hgood : s.broker.Kept ∧ ∀ id, ∃ v, answering.after answering.start (about BrokerEvent.command id s.log) = some v ∧
      s.broker.Stands id v := by
    apply h.preserves (P := fun s => s.broker.Kept ∧ ∀ id, ∃ v,
      answering.after answering.start (about BrokerEvent.command id s.log) = some v ∧ s.broker.Stands id v)
    · rintro s act s' ⟨hkept,hfollows⟩ hnext
      cases hnext with
      | @perform order horder =>
        have hanswers := answers_perform s.broker order act
        refine ⟨hanswers.kept hkept,fun id => ?_⟩
        obtain ⟨v,hv,hstands⟩ := hfollows id
        obtain ⟨w,hw,hstands'⟩ := hanswers.follows hkept id v hstands
        refine ⟨w,?_,hstands'⟩
        rw [about_append,after_append,hv]
        exact hw
    · constructor
      · constructor <;> simp [Session.new,new]
      · intro id
        refine ⟨.fresh,rfl,?_⟩
        rintro ⟨n,hone,hn,_⟩
        exact absurd (hone.trans hn) (by simp [Session.new,new])
  obtain ⟨v,hv,hstands⟩ := hgood.2 id
  refine ⟨v,hv,fun owner => ?_⟩
  cases v with
  | fresh =>
    constructor
    · exact fun h => by cases h
    · exact fun hwaits => absurd (hgood.1.minted hwaits) hstands
  | waiting other =>
    constructor
    · intro heq
      cases heq
      exact hstands
    · intro hwaits
      rw [hgood.1.waits_unique hwaits hstands]
  | closed =>
    constructor
    · exact fun h => by cases h
    · exact fun hwaits => absurd hwaits (hstands.2 owner)

def preparedNotice : LuaValue :=
  .record [("kind",.str "conversation.compaction.prepared"),("request_id",.str "r1/command-1"),("provider",.str "p"),
    ("outcome",.record [("kind",.str "Ready")])]

theorem commands_answered_prepared : ∃ s : Session, s.log = [
      .asked "r1/command-1" "actor" .prepare (CommandOp.prepare.input "r1/command-1" (.record [("provider",.str "p")])),
      .answered "r1/command-1" "actor" (okOutcome (.record [("kind",.str "Ready")]))] ∧
    ∃ v, answering.after answering.start (about BrokerEvent.command "r1/command-1" s.log) = some v ∧
      ∀ owner, v = .waiting owner ↔ s.broker.Waits "r1/command-1" owner := by
  have horder : ∀ ids : List String, (id ids).Perm ids := fun ids => List.Perm.refl ids
  have htrace : Trace Next (.new "r1") [.register "actor" .prepare (.record [("provider",.str "p")]),.event "p" preparedNotice,
      .take true] _ :=
    .cons (.perform horder) (.cons (.perform horder) (.cons (.perform horder) (.nil _)))
  exact ⟨_,rfl,commands_answered htrace "r1/command-1"⟩

end CompactionBroker
end Nefor.Kernel
