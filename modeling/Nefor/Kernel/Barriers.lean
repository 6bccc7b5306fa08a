import Mathlib.Algebra.Order.Ring.Unbundled.Rat
import Nefor.Kernel.CommandAnswers

/-! What a barrier tells the actor that asked: everything that the run wrote to the conversation before is
recorded, up to the watermark of the answer. -/
namespace Nefor.Lua.LuaNum

theorem lt_irrefl (a : LuaNum) : a.lt a = false := by
  cases a <;> simp [lt,le,eq,toRat]

theorem lt_trans {a b c : LuaNum} (h : a.lt b = true) (h' : b.lt c = true) : a.lt c = true := by
  have hlt : ∀ p q r : ℚ, p ≤ q ∧ ¬p = q → q ≤ r ∧ ¬q = r → p ≤ r ∧ ¬p = r := by
    intro p q r hpq hqr
    have hpr : p < r := lt_of_lt_of_le (lt_of_le_of_ne hpq.1 hpq.2) hqr.1
    exact ⟨hpr.le,hpr.ne⟩
  cases a <;> cases b <;> cases c <;> simp only [lt,le,eq,toRat,Bool.and_eq_true,Bool.not_eq_true',decide_eq_true_eq,
    decide_eq_false_iff_not,Bool.true_and,Bool.false_and,Bool.not_false,Bool.not_true,Bool.and_self,
    Bool.false_eq_true] at h h' ⊢ <;> exact hlt _ _ _ h h'

end Nefor.Lua.LuaNum

namespace Nefor.Kernel
open Nefor.Lua

theorem maxSequence_right (a b : LuaNum) : (maxSequence a b).lt b = false := by
  unfold maxSequence
  split
  · exact LuaNum.lt_irrefl b
  · next h => simpa using h

theorem maxSequence_left {a b c : LuaNum} (h : a.lt c = false) : (maxSequence a b).lt c = false := by
  unfold maxSequence
  split
  · next hab =>
    rw [Bool.eq_false_iff]
    intro hbc
    rw [LuaNum.lt_trans hab hbc] at h
    cases h
  · exact h

theorem watermarkOutcome_inj {n m : LuaNum} (h : watermarkOutcome n = watermarkOutcome m) : n = m := by
  have hvalue := congrArg (fun outcome : LuaValue => (outcome.get "value").get "watermark") h
  exact LuaValue.num.inj hvalue

theorem failureOutcome_ne (code context : LuaValue) (n : LuaNum) : failureOutcome code context ≠ watermarkOutcome n := by
  intro h
  have hkind := congrArg (fun outcome : LuaValue => outcome.get "kind") h
  exact absurd (LuaValue.str.inj hkind) (by decide)

namespace CompactionBroker

def watermark (b : CompactionBroker) (conversation : String) : LuaNum := (b.watermarks.lookup conversation).getD (.int 0)

/-- Whoever wrote the fact, wrote it to this conversation. -/
def Sole (log : List BrokerEvent) (eventId conversation : String) : Prop :=
  ∀ other, .written eventId other ∈ log → other = conversation

/-- The fact is recorded, at a sequence that is not above. -/
def Recorded (log : List BrokerEvent) (eventId conversation : String) (n : LuaNum) : Prop :=
  ∃ sequence, .recorded eventId conversation sequence ∈ log ∧ n.lt sequence = false

/-- Everything that was written to a conversation so far is recorded. -/
def Covered (log before : List BrokerEvent) (args : LuaValue) (n : LuaNum) : Prop :=
  ∀ eventId conversation, keyText (args.get "conversation_id") = some conversation → .written eventId conversation ∈ before →
    Sole log eventId conversation → Recorded log eventId conversation n

/-- If a command gets this outcome and is a barrier, what it says holds. -/
def Justified (log : List BrokerEvent) (id : String) (outcome : LuaValue) : Prop :=
  ∀ n, outcome = watermarkOutcome n → ∀ owner args before after, log = before ++ .asked id owner .barrier args :: after →
    Covered log before args n

/-- What an open barrier waits for, and what it need not wait for. -/
def Fence (b : CompactionBroker) (log before : List BrokerEvent) (p : Command) : Prop :=
  ∀ eventId conversation, p.conversationId = some conversation → .written eventId conversation ∈ before →
    Sole log eventId conversation → eventId ∈ p.captured ∨ Recorded log eventId conversation (b.watermark conversation)

structure Fenced (b : CompactionBroker) (log : List BrokerEvent) : Prop where
  written : ∀ eventId w, b.writes.lookup eventId = some w → .written eventId w.conversationId ∈ log
  accepted : ∀ eventId w, b.writes.lookup eventId = some w → w.status = .accepted →
    Recorded log eventId w.conversationId (b.watermark w.conversationId)
  tracked : ∀ eventId conversation, .written eventId conversation ∈ log → Sole log eventId conversation →
    b.writes.lookup eventId ≠ none ∨ Recorded log eventId conversation (b.watermark conversation)
  captured : ∀ id p, b.pending.lookup id = some p → ∀ eventId ∈ p.captured, ∃ w, b.writes.lookup eventId = some w ∧
    p.conversationId = some w.conversationId
  asked : ∀ id p, b.pending.lookup id = some p → ∀ owner op args before after,
    log = before ++ .asked id owner op args :: after → op = p.op ∧ args = p.args ∧ (op = .barrier → b.Fence log before p)
  minted : ∀ id owner op args, .asked id owner op args ∈ log → b.Minted id
  queue : ∀ entry ∈ b.queue, Justified log entry.id entry.outcome
  answered : ∀ id owner outcome before after, log = before ++ .answered id owner outcome :: after → Justified before id outcome

/-- A barrier is open while a write that it captured is not decided. -/
def Blocked (b : CompactionBroker) : Prop :=
  ∀ id p, b.pending.lookup id = some p → p.op = .barrier → ∃ eventId ∈ p.captured, ∃ w,
    b.writes.lookup eventId = some w ∧ w.status = .pending

variable {b b' b'' : CompactionBroker} {log events : List BrokerEvent} {id : String} {outcome : LuaValue}

theorem Recorded.mono {eventId conversation : String} {n m : LuaNum} (h : Recorded log eventId conversation n)
    (hn : ∀ sequence, n.lt sequence = false → m.lt sequence = false) (events : List BrokerEvent) :
    Recorded (log ++ events) eventId conversation m := by
  obtain ⟨sequence,hmem,hlt⟩ := h
  exact ⟨sequence,List.mem_append_left _ hmem,hn sequence hlt⟩

theorem Sole.of_append {eventId conversation : String} (h : Sole (log ++ events) eventId conversation) :
    Sole log eventId conversation := fun other hother => h other (List.mem_append_left _ hother)

theorem split_append {e : BrokerEvent} {before after : List BrokerEvent} (h : log ++ events = before ++ e :: after) :
    (∃ after', log = before ++ e :: after') ∨ ∃ middle, before = log ++ middle ∧ events = middle ++ e :: after := by
  cases List.append_eq_append_iff.mp h with
  | inl hright => exact .inr hright
  | inr hleft =>
    obtain ⟨extra,hlog,hafter⟩ := hleft
    cases extra with
    | nil =>
      right
      refine ⟨[],?_,hafter.symm⟩
      rw [hlog,List.append_nil,List.append_nil]
    | cons head extra =>
      cases (List.cons.inj hafter).1
      exact .inl ⟨extra,hlog⟩

/-- Where a command was asked does not move. -/
theorem split_of_append {e : BrokerEvent} {before after : List BrokerEvent} (h : log ++ events = before ++ e :: after)
    (he : e ∉ events) : ∃ after', log = before ++ e :: after' := by
  cases split_append h with
  | inl hleft => exact hleft
  | inr hright =>
    obtain ⟨middle,_,hevents⟩ := hright
    apply absurd _ he
    rw [hevents]
    exact List.mem_append_right _ List.mem_cons_self

theorem split_of_append_singleton {e e' : BrokerEvent} {before after : List BrokerEvent}
    (h : log ++ [e] = before ++ e' :: after) : (∃ after', log = before ++ e' :: after') ∨ before = log ∧ e' = e := by
  apply (split_append h).imp_right
  rintro ⟨middle,hbefore,hevents⟩
  obtain ⟨hmiddle,heq⟩ := List.append_eq_singleton_iff.mp hevents.symm |>.resolve_right (by simp)
  rw [hmiddle,List.append_nil] at hbefore
  exact ⟨hbefore,(List.cons.inj heq).1⟩

theorem Covered.append {before : List BrokerEvent} {args : LuaValue} {n : LuaNum} (h : Covered log before args n)
    (events : List BrokerEvent) : Covered (log ++ events) before args n := by
  intro eventId conversation hconversation hwritten hsole
  exact (h eventId conversation hconversation hwritten hsole.of_append).mono (fun _ hlt => hlt) events

theorem Justified.append (h : Justified log id outcome) (hevents : ∀ owner op args, .asked id owner op args ∉ events) :
    Justified (log ++ events) id outcome := by
  intro n hn owner args before after hsplit
  obtain ⟨after',hlog⟩ := split_of_append hsplit (hevents owner .barrier args)
  exact (h n hn owner args before after' hlog).append events

theorem Justified.failure (log : List BrokerEvent) (id : String) (code context : LuaValue) :
    Justified log id (failureOutcome code context) := fun n hn => absurd hn (failureOutcome_ne code context n)

/-- Only barriers are told watermarks that say something. -/
theorem Fenced.other (h : b.Fenced log) {p : Command} (hp : b.pending.lookup id = some p) (hop : p.op ≠ .barrier)
    (outcome : LuaValue) : Justified log id outcome := by
  intro n _ owner args before after hsplit
  exact absurd (h.asked id p hp owner .barrier args before after hsplit).1.symm hop

/-- What an interrupt leaves of every answer. -/
def interruption (reason : LuaValue) : LuaValue :=
  failureOutcome (.str "compaction_interrupted") (.record [("reason",reason)])

/-- Commands are settled or given up: barriers with failures only. -/
structure Shrinks (b b' : CompactionBroker) : Prop where
  scope : b'.scope = b.scope
  serial : b'.serial = b.serial
  writes : b'.writes = b.writes
  watermarks : b'.watermarks = b.watermarks
  pending : ∀ id p, b'.pending.lookup id = some p → b.pending.lookup id = some p
  queue : ∀ entry ∈ b'.queue, (∃ old ∈ b.queue, old.id = entry.id ∧ old.outcome = entry.outcome) ∨
    (∃ reason, entry.outcome = interruption reason) ∨
    ∃ p, b.pending.lookup entry.id = some p ∧ (p.op = .barrier → ∃ code context, entry.outcome = failureOutcome code context)

namespace Shrinks

theorem refl (b : CompactionBroker) : Shrinks b b :=
  ⟨rfl,rfl,rfl,rfl,fun _ _ h => h,fun entry hentry => .inl ⟨entry,hentry,rfl,rfl⟩⟩

theorem trans (h : Shrinks b b') (h' : Shrinks b' b'') : Shrinks b b'' := by
  refine ⟨h'.scope.trans h.scope,h'.serial.trans h.serial,h'.writes.trans h.writes,h'.watermarks.trans h.watermarks,?_,?_⟩
  · exact fun id p hp => h.pending id p (h'.pending id p hp)
  · intro entry hentry
    rcases h'.queue entry hentry with ⟨old,hold,hid,houtcome⟩ | hinterrupted | ⟨p,hp,hop⟩
    · rw [← hid,← houtcome]
      exact h.queue old hold
    · exact .inr (.inl hinterrupted)
    · exact .inr (.inr ⟨p,h.pending _ p hp,hop⟩)

theorem queued (h : Shrinks b b') (hf : b.Fenced log) : ∀ entry ∈ b'.queue, Justified log entry.id entry.outcome := by
  intro entry hentry
  rcases h.queue entry hentry with ⟨old,hold,hid,houtcome⟩ | ⟨reason,hinterrupted⟩ | ⟨p,hp,hfailure⟩
  · rw [← hid,← houtcome]
    exact hf.queue old hold
  · rw [hinterrupted]
    exact Justified.failure log entry.id _ _
  · by_cases hop : p.op = .barrier
    · obtain ⟨code,context,heq⟩ := hfailure hop
      rw [heq]
      exact Justified.failure log entry.id code context
    · exact hf.other hp hop entry.outcome

theorem blocked (h : Shrinks b b') (hb : b.Blocked) : b'.Blocked := by
  intro id p hp hop
  rw [h.writes]
  exact hb id p (h.pending id p hp) hop

end Shrinks

/-- What a step says, other than what it was asked and what it heard of writes. -/
def Tells (b : CompactionBroker) (events : List BrokerEvent) : Prop :=
  ∀ e ∈ events, (∃ id, e = .withdrawn id) ∨ (∃ id conversationId reason, e = .cancelled id conversationId reason) ∨
    ∃ entry ∈ b.queue, e = .answered entry.id entry.owner entry.outcome

theorem Fenced.shrink (hf : b.Fenced log) (h : Shrinks b b') (htells : b.Tells events) : b'.Fenced (log ++ events) := by
  have hsilent : ∀ {e : BrokerEvent}, e ∈ events → (∀ id owner op args, e ≠ .asked id owner op args) ∧
      (∀ eventId conversation, e ≠ .written eventId conversation) := by
    intro e he
    rcases htells _ he with ⟨_,rfl⟩ | ⟨_,_,_,rfl⟩ | ⟨_,_,rfl⟩ <;> exact ⟨by simp,by simp⟩
  have hasked : ∀ id owner op args, .asked id owner op args ∉ events := fun id owner op args he =>
    (hsilent he).1 id owner op args rfl
  have hwatermark : ∀ conversation, b'.watermark conversation = b.watermark conversation := by
    intro conversation
    rw [watermark,watermark,h.watermarks]
  have hmono : ∀ {eventId conversation}, Recorded log eventId conversation (b.watermark conversation) →
      Recorded (log ++ events) eventId conversation (b'.watermark conversation) := by
    intro eventId conversation hrecorded
    rw [hwatermark]
    exact hrecorded.mono (fun _ hlt => hlt) events
  refine ⟨?_,?_,?_,?_,?_,?_,?_,?_⟩
  · intro eventId w hw
    rw [h.writes] at hw
    exact List.mem_append_left _ (hf.written eventId w hw)
  · intro eventId w hw hstatus
    rw [h.writes] at hw
    exact hmono (hf.accepted eventId w hw hstatus)
  · intro eventId conversation hmem hsole
    rw [h.writes]
    cases List.mem_append.mp hmem with
    | inl hold => exact (hf.tracked eventId conversation hold hsole.of_append).imp_right hmono
    | inr hnew => exact absurd rfl ((hsilent hnew).2 eventId conversation)
  · intro id p hp
    rw [h.writes]
    exact hf.captured id p (h.pending id p hp)
  · intro id p hp owner op args before after hsplit
    obtain ⟨after',hlog⟩ := split_of_append hsplit (hasked id owner op args)
    obtain ⟨hop,hargs,hfence⟩ := hf.asked id p (h.pending id p hp) owner op args before after' hlog
    refine ⟨hop,hargs,fun hbarrier eventId conversation hconversation hwritten hsole => ?_⟩
    exact (hfence hbarrier eventId conversation hconversation hwritten hsole.of_append).imp_right hmono
  · intro id owner op args hmem
    cases List.mem_append.mp hmem with
    | inl hold =>
      obtain ⟨n,hone,hn,heq⟩ := hf.minted id owner op args hold
      rw [← h.scope] at heq
      exact ⟨n,hone,h.serial.symm ▸ hn,heq⟩
    | inr hnew => exact absurd hnew (hasked id owner op args)
  · intro entry hentry
    exact (h.queued hf entry hentry).append (hasked entry.id)
  · intro id owner outcome before after hsplit
    cases split_append hsplit with
    | inl hold =>
      obtain ⟨after',hlog⟩ := hold
      exact hf.answered id owner outcome before after' hlog
    | inr hnew =>
      obtain ⟨middle,hbefore,hevents⟩ := hnew
      have hmiddle : ∀ owner op args, .asked id owner op args ∉ middle := by
        intro owner op args hmem
        apply hasked id owner op args
        rw [hevents]
        exact List.mem_append_left _ hmem
      have hmem : .answered id owner outcome ∈ events := by
        rw [hevents]
        exact List.mem_append_right _ List.mem_cons_self
      rw [hbefore]
      rcases htells _ hmem with ⟨_,heq⟩ | ⟨_,_,_,heq⟩ | ⟨entry,hentry,heq⟩
      · cases heq
      · cases heq
      · cases heq
        exact (hf.queue entry hentry).append hmiddle

theorem shrinks_settle {id : String} (h : (∃ code context, outcome = failureOutcome code context) ∨
    ∀ p, b.pending.lookup id = some p → p.op ≠ .barrier) : Shrinks b (b.settle id outcome) := by
  unfold settle
  cases hp : b.pending.lookup id with
  | none => exact Shrinks.refl b
  | some p =>
    refine ⟨rfl,rfl,rfl,rfl,?_,?_⟩
    · intro other q hq
      dsimp only at hq
      rw [lookup_erase_ite] at hq
      split at hq
      · cases hq
      · exact hq
    · intro entry hentry
      cases List.mem_append.mp hentry with
      | inl hold => exact .inl ⟨entry,hold,rfl,rfl⟩
      | inr hnew =>
        rw [List.mem_singleton.mp hnew]
        refine .inr (.inr ⟨p,hp,fun hop => ?_⟩)
        cases h with
        | inl hfailure => exact hfailure
        | inr hother => exact absurd hop (hother p hp)

theorem shrinks_abandon {id : String} (p : Command) : Shrinks b (b.abandon id p) := by
  refine ⟨rfl,rfl,rfl,rfl,?_,fun entry hentry => .inl ⟨entry,hentry,rfl,rfl⟩⟩
  intro other q hq
  dsimp only [abandon] at hq
  rw [lookup_erase_ite] at hq
  split at hq
  · cases hq
  · exact hq

theorem shrinks_silence (gone : QueuedAnswer → Bool) : Shrinks b { b with queue := silence b.queue gone } := by
  refine ⟨rfl,rfl,rfl,rfl,fun _ _ h => h,?_⟩
  intro entry hentry
  obtain ⟨old,hold,rfl⟩ := List.mem_map.mp hentry
  refine .inl ⟨old,hold,?_⟩
  split <;> exact ⟨rfl,rfl⟩

theorem shrinks_supersede (id request : String) : Shrinks b (b.supersede id request).1 := by
  have hfirst : Shrinks b { b with pending := b.pending.erase request, queue := silence b.queue fun entry => entry.id == request } := by
    have herased : Shrinks b { b with pending := b.pending.erase request } := by
      refine ⟨rfl,rfl,rfl,rfl,?_,fun entry hentry => .inl ⟨entry,hentry,rfl,rfl⟩⟩
      intro other q hq
      dsimp only at hq
      rw [lookup_erase_ite] at hq
      split at hq
      · cases hq
      · exact hq
    exact herased.trans (shrinks_silence _)
  have hlast : ∀ {b' : CompactionBroker}, Shrinks b b' → Shrinks b { b' with cancellations := b'.cancellations.insert request id } :=
    fun h => h.trans ⟨rfl,rfl,rfl,rfl,fun _ _ hp => hp,fun entry hentry => .inl ⟨entry,hentry,rfl,rfl⟩⟩
  unfold supersede
  dsimp only
  cases b.cancellations.lookup request with
  | none => exact hlast hfirst
  | some previous => exact hlast (hfirst.trans (shrinks_settle (.inl ⟨_,_,rfl⟩)))

theorem tells_supersede (id request : String) : b.Tells (b.supersede id request).2 :=
  fun _ he => .inl ⟨request,List.mem_singleton.mp he⟩

theorem shrinks_detach (id : String) : Shrinks b (b.detach id).1 := by
  unfold detach
  dsimp only
  cases b.pending.lookup id with
  | none => exact shrinks_silence _
  | some p => exact (shrinks_abandon p).trans (shrinks_silence _)

/-- Several commands, one after the other. -/
theorem shrinks_foldl {f : CompactionBroker × List BrokerEvent → String → CompactionBroker × List BrokerEvent}
    (hf : ∀ r id, Shrinks r.1 (f r id).1 ∧ ∀ e ∈ (f r id).2, e ∈ r.2 ∨
      (∃ id, e = .withdrawn id) ∨ ∃ id conversationId reason, e = .cancelled id conversationId reason)
    {r : CompactionBroker × List BrokerEvent} (hr : Shrinks b r.1) (hevents : b.Tells r.2) (ids : List String) :
    Shrinks b (ids.foldl f r).1 ∧ b.Tells (ids.foldl f r).2 := by
  induction ids generalizing r with
  | nil => exact ⟨hr,hevents⟩
  | cons id rest ih =>
    obtain ⟨hshrinks,hnew⟩ := hf r id
    apply ih (hr.trans hshrinks)
    intro e he
    rcases hnew e he with hold | hwithdrawn | hcancelled
    · exact hevents e hold
    · exact .inl hwithdrawn
    · exact .inr (.inl hcancelled)

theorem mem_isRequest {p : Command} {reason : LuaValue} {e : BrokerEvent} (h : e ∈ isRequest p id reason) :
    ∃ id conversationId reason, e = .cancelled id conversationId reason := by
  unfold isRequest at h
  split at h
  · exact ⟨_,_,_,List.mem_singleton.mp h⟩
  · cases h

theorem shrinks_detachOwner (order : List String → List String) (owner : String) :
    Shrinks b (b.detachOwner order owner).1 ∧ b.Tells (b.detachOwner order owner).2 := by
  have hfold : Shrinks b ((order b.pending.keys).foldl (detachOwned owner) (b,[])).1 ∧
      b.Tells ((order b.pending.keys).foldl (detachOwned owner) (b,[])).2 := by
    apply shrinks_foldl
    · intro r id
      unfold detachOwned
      cases r.1.pending.lookup id with
      | none => exact ⟨Shrinks.refl _,fun e he => .inl he⟩
      | some p =>
        dsimp only
        split
        · refine ⟨shrinks_abandon p,fun e he => ?_⟩
          simp only [List.mem_append,List.mem_singleton] at he
          rcases he with hold | hcancelled | hwithdrawn
          · exact .inl hold
          · exact .inr (.inr (mem_isRequest hcancelled))
          · exact .inr (.inl ⟨id,hwithdrawn⟩)
        · exact ⟨Shrinks.refl _,fun e he => .inl he⟩
    · exact Shrinks.refl b
    · exact fun e he => by cases he
  refine ⟨hfold.1.trans (shrinks_silence _),?_⟩
  intro e he
  cases List.mem_append.mp he with
  | inl hold => exact hfold.2 e hold
  | inr hnew =>
    obtain ⟨other,_,rfl⟩ := List.mem_map.mp hnew
    exact .inl ⟨other,rfl⟩

theorem shrinks_interrupt (order : List String → List String) (reason : LuaValue) :
    Shrinks b (b.interrupt order reason).1 ∧ b.Tells (b.interrupt order reason).2 := by
  apply shrinks_foldl
  · intro r id
    unfold interruptOne
    cases r.1.pending.lookup id with
    | none => exact ⟨Shrinks.refl _,fun e he => .inl he⟩
    | some p =>
      refine ⟨shrinks_settle (.inl ⟨_,_,rfl⟩),fun e he => ?_⟩
      cases List.mem_append.mp he with
      | inl hold => exact .inl hold
      | inr hcancelled => exact .inr (.inr (mem_isRequest hcancelled))
  · refine ⟨rfl,rfl,rfl,rfl,fun _ _ h => h,?_⟩
    intro entry hentry
    obtain ⟨old,_,rfl⟩ := List.mem_map.mp hentry
    exact .inr (.inl ⟨reason,rfl⟩)
  · exact fun e he => by cases he

theorem shrinks_take (live : Bool) : Shrinks b (b.take live).1 ∧ b.Tells (b.take live).2 := by
  unfold take
  cases hqueue : b.queue with
  | nil => exact ⟨Shrinks.refl b,fun e he => by cases he⟩
  | cons entry rest =>
    constructor
    · refine ⟨rfl,rfl,rfl,rfl,fun _ _ h => h,?_⟩
      intro other hother
      refine .inl ⟨other,?_,rfl,rfl⟩
      rw [hqueue]
      exact List.mem_cons_of_mem _ hother
    · intro e he
      dsimp only at he
      split at he
      · right
        right
        refine ⟨entry,?_,List.mem_singleton.mp he⟩
        rw [hqueue]
        exact List.mem_cons_self
      · exact .inl ⟨entry.id,List.mem_singleton.mp he⟩

theorem shrinks_finished (event : LuaValue) : Shrinks b (b.finished event) := by
  unfold finished
  dsimp only
  split
  · exact Shrinks.refl b
  · split
    · exact Shrinks.refl b
    · next id _ _ p hp =>
      split
      · exact Shrinks.refl b
      · next hmatches =>
        have hop : ∀ q, b.pending.lookup id = some q → q.op ≠ .barrier := by
          intro q hq heq
          cases hp.symm.trans hq
          simp [heq] at hmatches
        split
        · exact shrinks_settle (.inr hop)
        · split
          · exact shrinks_settle (.inr hop)
          · exact Shrinks.refl b

/-- No answer tells a barrier more than that it failed. -/
theorem outcomeOf_barrier {p : Command} (hop : p.op = .barrier) {source kind : String} {body : LuaValue}
    (h : outcomeOf p source kind body = some outcome) : ∃ code context, outcome = failureOutcome code context := by
  simp only [outcomeOf,hop,CommandOp.notice,ne_eq,reduceCtorEq,not_false_eq_true,decide_true,Bool.true_or,if_true,
    decide_false,Bool.and_false,Bool.false_eq_true,if_false,Bool.or_self] at h
  split at h
  · cases h
  · split at h
    · cases h
    · split at h
      · cases h
        exact ⟨_,_,rfl⟩
      · cases h

theorem shrinks_answer (source kind : String) (body : LuaValue) : Shrinks b (b.answer source kind body) := by
  unfold answer
  split
  · exact Shrinks.refl b
  · split
    · exact Shrinks.refl b
    · next p hp =>
      split
      · split
        · next outcome houtcome =>
          apply shrinks_settle
          by_cases hop : p.op = .barrier
          · exact .inl (outcomeOf_barrier hop houtcome)
          · right
            intro q hq
            cases hp.symm.trans hq
            exact hop
        · exact Shrinks.refl b
      · exact Shrinks.refl b

theorem needed_of_captured {p : Command} (hp : b.pending.lookup id = some p) {eventId : String} (h : eventId ∈ p.captured) :
    b.needed eventId = true := by
  rw [needed,List.any_eq_true]
  exact ⟨⟨id,p⟩,AList.mem_lookup_iff.mp hp,by simpa using h⟩

/-- Writes are made, decided and forgotten. -/
theorem Fenced.decide (hf : b.Fenced log) {writes : AList fun _ : String => CanonicalWrite}
    {watermarks : AList fun _ : String => LuaNum} (hasked : ∀ id owner op args, .asked id owner op args ∉ events)
    (hanswered : ∀ id owner outcome, .answered id owner outcome ∉ events)
    (hwritten : ∀ eventId w, writes.lookup eventId = some w → .written eventId w.conversationId ∈ log ++ events)
    (hnew : ∀ eventId conversation, .written eventId conversation ∈ events → writes.lookup eventId ≠ none)
    (hkept : ∀ eventId old, b.writes.lookup eventId = some old →
      (∃ w, writes.lookup eventId = some w ∧ w.conversationId = old.conversationId) ∨
        b.needed eventId = false ∧ old.status = .accepted)
    (hwatermarks : ∀ conversation sequence, (b.watermark conversation).lt sequence = false →
      (watermark { b with watermarks := watermarks } conversation).lt sequence = false)
    (haccepted : ∀ eventId w, writes.lookup eventId = some w → w.status = .accepted → b.writes.lookup eventId = some w ∨
      Recorded (log ++ events) eventId w.conversationId (watermark { b with watermarks := watermarks } w.conversationId)) :
    Fenced { b with writes := writes, watermarks := watermarks } (log ++ events) := by
  have hmono : ∀ {eventId conversation}, Recorded log eventId conversation (b.watermark conversation) →
      Recorded (log ++ events) eventId conversation (watermark { b with watermarks := watermarks } conversation) :=
    fun {_ conversation} h => h.mono (hwatermarks conversation) events
  refine ⟨hwritten,?_,?_,?_,?_,?_,?_,?_⟩
  · intro eventId w hw hstatus
    cases haccepted eventId w hw hstatus with
    | inl hold => exact hmono (hf.accepted eventId w hold hstatus)
    | inr hrecorded => exact hrecorded
  · intro eventId conversation hmem hsole
    cases List.mem_append.mp hmem with
    | inl hold =>
      cases hf.tracked eventId conversation hold hsole.of_append with
      | inl hlookup =>
        obtain ⟨old,hold⟩ := Option.ne_none_iff_exists'.mp hlookup
        cases hkept eventId old hold with
        | inl hkept =>
          obtain ⟨w,hw,_⟩ := hkept
          left
          dsimp only
          rw [hw]
          simp
        | inr hforgotten =>
          right
          rw [← hsole.of_append _ (hf.written eventId old hold)]
          exact hmono (hf.accepted eventId old hold hforgotten.2)
      | inr hrecorded => exact .inr (hmono hrecorded)
    | inr hwritten => exact .inl (hnew eventId conversation hwritten)
  · intro id p hp eventId hmem
    obtain ⟨old,hold,hconversation⟩ := hf.captured id p hp eventId hmem
    cases hkept eventId old hold with
    | inl hkept =>
      obtain ⟨w,hw,heq⟩ := hkept
      refine ⟨w,hw,?_⟩
      rw [heq]
      exact hconversation
    | inr hforgotten =>
      have hneeded : b.needed eventId = true := needed_of_captured (b := b) hp hmem
      rw [hneeded] at hforgotten
      cases hforgotten.1
  · intro id p hp owner op args before after hsplit
    obtain ⟨after',hlog⟩ := split_of_append hsplit (hasked id owner op args)
    obtain ⟨hop,hargs,hfence⟩ := hf.asked id p hp owner op args before after' hlog
    refine ⟨hop,hargs,fun hbarrier eventId conversation hconversation hwritten hsole => ?_⟩
    exact (hfence hbarrier eventId conversation hconversation hwritten hsole.of_append).imp_right hmono
  · intro id owner op args hmem
    cases List.mem_append.mp hmem with
    | inl hold => exact hf.minted id owner op args hold
    | inr hnew => exact absurd hnew (hasked id owner op args)
  · exact fun entry hentry => (hf.queue entry hentry).append (hasked entry.id)
  · intro id owner outcome before after hsplit
    obtain ⟨after',hlog⟩ := split_of_append hsplit (hanswered id owner outcome)
    exact hf.answered id owner outcome before after' hlog

/-- A fact is written. -/
theorem fenced_emit (hf : b.Fenced log) (eventId conversation : String) :
    (b.emit eventId conversation).1.Fenced (log ++ (b.emit eventId conversation).2) := by
  unfold emit
  dsimp only
  cases hlookup : b.writes.lookup eventId with
  | some w =>
    apply hf.decide (by simp) (by simp)
    · exact fun other w hw => List.mem_append_left _ (hf.written other w hw)
    · intro other conversation' hmem
      cases List.mem_singleton.mp hmem
      simp [hlookup]
    · exact fun other old hold => .inl ⟨old,hold,rfl⟩
    · exact fun _ _ h => h
    · exact fun other w hw _ => .inl hw
  | none =>
    have hne : ∀ {other w}, b.writes.lookup other = some w → other ≠ eventId := by
      rintro other w hw rfl
      cases hlookup.symm.trans hw
    apply hf.decide (by simp) (by simp)
    · intro other w hw
      rw [lookup_insert_ite] at hw
      split at hw
      · next heq =>
        cases hw
        rw [heq]
        exact List.mem_append_right _ List.mem_cons_self
      · exact List.mem_append_left _ (hf.written other w hw)
    · intro other conversation' hmem
      cases List.mem_singleton.mp hmem
      rw [AList.lookup_insert]
      simp
    · exact fun other old hold => .inl ⟨old,(AList.lookup_insert_ne (hne hold)).trans hold,rfl⟩
    · exact fun _ _ h => h
    · intro other w hw hstatus
      rw [lookup_insert_ite] at hw
      split at hw
      · cases hw
        cases hstatus
      · exact .inl hw

/-- A command is asked. -/
theorem fenced_ask (hf : b.Fenced log) (hkept : b.Kept) (owner : String) (op : CommandOp) (args : LuaValue) {captured : List String}
    (hcaptured : ∀ eventId ∈ captured, ∃ w, b.writes.lookup eventId = some w ∧
      keyText (args.get "conversation_id") = some w.conversationId)
    (hall : op = .barrier → ∀ eventId w, b.writes.lookup eventId = some w →
      keyText (args.get "conversation_id") = some w.conversationId → eventId ∈ captured) :
    Fenced { b with serial := b.serial + 1, pending := b.pending.insert (commandId b.scope (b.serial + 1)) ⟨op,args,owner,captured⟩ }
      (log ++ [.asked (commandId b.scope (b.serial + 1)) owner op args]) := by
  have hfresh : ∀ {id}, b.Minted id → id ≠ commandId b.scope (b.serial + 1) := by
    rintro id ⟨n,_,hn,hid⟩ heq
    have := commandId_inj (hid.symm.trans heq)
    omega
  have hminted : ∀ {id}, b.Minted id → Minted { b with
      serial := b.serial + 1
      pending := b.pending.insert (commandId b.scope (b.serial + 1)) ⟨op,args,owner,captured⟩ } id := by
    rintro id ⟨n,hone,hn,hid⟩
    exact ⟨n,hone,by dsimp only; omega,hid⟩
  have hmono : ∀ {eventId conversation}, Recorded log eventId conversation (b.watermark conversation) →
      Recorded (log ++ [BrokerEvent.asked (commandId b.scope (b.serial + 1)) owner op args]) eventId conversation
        (watermark { b with
          serial := b.serial + 1
          pending := b.pending.insert (commandId b.scope (b.serial + 1)) ⟨op,args,owner,captured⟩ } conversation) :=
    fun h => h.mono (fun _ hlt => hlt) _
  refine ⟨?_,?_,?_,?_,?_,?_,?_,?_⟩
  · exact fun eventId w hw => List.mem_append_left _ (hf.written eventId w hw)
  · exact fun eventId w hw hstatus => hmono (hf.accepted eventId w hw hstatus)
  · intro eventId conversation hmem hsole
    cases List.mem_append.mp hmem with
    | inl hold => exact (hf.tracked eventId conversation hold hsole.of_append).imp_right hmono
    | inr hnew => cases List.mem_singleton.mp hnew
  · intro id p hp eventId hmem
    dsimp only at hp
    rw [lookup_insert_ite] at hp
    split at hp
    · cases hp
      exact hcaptured eventId hmem
    · exact hf.captured id p hp eventId hmem
  · intro id p hp owner' op' args' before after hsplit
    dsimp only at hp
    rw [lookup_insert_ite] at hp
    cases split_of_append_singleton hsplit with
    | inl hbefore =>
      obtain ⟨after',hlog⟩ := hbefore
      have hmem : .asked id owner' op' args' ∈ log := by
        rw [hlog]
        exact List.mem_append_right _ List.mem_cons_self
      rw [if_neg (hfresh (hf.minted id owner' op' args' hmem))] at hp
      obtain ⟨hop,hargs,hfence⟩ := hf.asked id p hp owner' op' args' before after' hlog
      refine ⟨hop,hargs,fun hbarrier eventId conversation hconversation hwritten hsole => ?_⟩
      exact (hfence hbarrier eventId conversation hconversation hwritten hsole.of_append).imp_right hmono
    | inr hlast =>
      cases hlast.2
      rw [if_pos rfl] at hp
      cases hp
      refine ⟨rfl,rfl,fun hbarrier eventId conversation hconversation hwritten hsole => ?_⟩
      rw [hlast.1] at hwritten
      cases hf.tracked eventId conversation hwritten hsole.of_append with
      | inl hlookup =>
        obtain ⟨w,hw⟩ := Option.ne_none_iff_exists'.mp hlookup
        left
        apply hall hbarrier eventId w hw
        rw [hsole.of_append _ (hf.written eventId w hw)]
        exact hconversation
      | inr hrecorded => exact .inr (hmono hrecorded)
  · intro id owner' op' args' hmem
    cases List.mem_append.mp hmem with
    | inl hold => exact hminted (hf.minted id owner' op' args' hold)
    | inr hnew =>
      cases List.mem_singleton.mp hnew
      exact ⟨b.serial + 1,by omega,Nat.le_refl _,rfl⟩
  · intro entry hentry n hn owner' args' before after hsplit
    cases split_of_append_singleton hsplit with
    | inl hbefore =>
      obtain ⟨after',hlog⟩ := hbefore
      exact (hf.queue entry hentry n hn owner' args' before after' hlog).append _
    | inr hlast =>
      exact absurd (BrokerEvent.asked.inj hlast.2).1 (hfresh (hkept.queue entry hentry))
  · intro id owner' outcome before after hsplit
    obtain ⟨after',hlog⟩ := split_of_append hsplit (by simp)
    exact hf.answered id owner' outcome before after' hlog

theorem verdict_none {order : List String → List String} {p : Command} (h : b.verdict order p = none) :
    ∃ eventId ∈ p.captured, ∃ w, b.writes.lookup eventId = some w ∧ w.status = .pending := by
  unfold verdict at h
  dsimp only at h
  split at h
  · next hany =>
    obtain ⟨eventId,hmem,hstatus⟩ := List.any_eq_true.mp hany
    refine ⟨eventId,hmem,?_⟩
    cases hw : b.writes.lookup eventId with
    | none => simp [hw] at hstatus
    | some w =>
      refine ⟨w,rfl,?_⟩
      cases hs : w.status with
      | pending => rfl
      | accepted => simp [hw,hs] at hstatus
      | rejected error => simp [hw,hs] at hstatus
  · split at h <;> cases h

/-- A barrier is told a watermark when everything that it captured is accepted. -/
theorem verdict_watermark {order : List String → List String} (horder : ∀ ids, (order ids).Perm ids) {p : Command} {n : LuaNum}
    (h : b.verdict order p = some (watermarkOutcome n)) :
    n = (p.conversationId.bind b.watermarks.lookup).getD (.int 0) ∧
      ∀ eventId ∈ p.captured, ∀ w, b.writes.lookup eventId = some w → w.status = .accepted := by
  unfold verdict at h
  dsimp only at h
  split at h
  · cases h
  · next hpending =>
    split at h
    · exact absurd (Option.some.inj h) (failureOutcome_ne _ _ n)
    · next hrejected =>
      refine ⟨(watermarkOutcome_inj (Option.some.inj h)).symm,?_⟩
      intro eventId hmem w hw
      cases hs : w.status with
      | accepted => rfl
      | pending =>
        apply absurd _ hpending
        rw [List.any_eq_true]
        refine ⟨eventId,hmem,?_⟩
        rw [hw,Option.map_some,hs]
      | rejected error =>
        rw [List.filterMap_eq_nil_iff] at hrejected
        have hnone := hrejected eventId (List.mem_reverse.mpr ((horder p.captured).mem_iff.mpr hmem))
        rw [hw,Option.map_some,hs] at hnone
        cases hnone

/-- The verdict about a barrier says what holds. -/
theorem Fenced.verdict (hf : b.Fenced log) {order : List String → List String} (horder : ∀ ids, (order ids).Perm ids)
    {p : Command} (hp : b.pending.lookup id = some p) (h : b.verdict order p = some outcome) : Justified log id outcome := by
  intro n hn owner args before after hsplit eventId conversation hconversation hwritten hsole
  obtain ⟨hop,hargs,hfence⟩ := hf.asked id p hp owner .barrier args before after hsplit
  rw [hn] at h
  obtain ⟨hwatermark,haccepted⟩ := verdict_watermark horder h
  rw [hargs] at hconversation
  have hof : p.conversationId = some conversation := hconversation
  rw [hof,Option.bind_some] at hwatermark
  rw [hwatermark]
  cases hfence rfl eventId conversation hof hwritten hsole with
  | inl hcaptured =>
    obtain ⟨w,hw,hsame⟩ := hf.captured id p hp eventId hcaptured
    rw [hof] at hsame
    rw [Option.some.inj hsame]
    exact hf.accepted eventId w hw (haccepted eventId hcaptured w hw)
  | inr hrecorded => exact hrecorded

theorem mem_ready {order : List String → List String} {answer : String × LuaValue} (h : answer ∈ b.ready order) :
    ∃ p, b.pending.lookup answer.1 = some p ∧ b.verdict order p = some answer.2 := by
  obtain ⟨id,_,hsome⟩ := List.mem_filterMap.mp h
  cases hp : b.pending.lookup id with
  | none => simp [hp] at hsome
  | some p =>
    rw [hp] at hsome
    dsimp only at hsome
    split at hsome
    · obtain ⟨outcome,hverdict,rfl⟩ := Option.map_eq_some_iff.mp hsome
      exact ⟨p,hp,hverdict⟩
    · cases hsome

@[simp] theorem settle_writes (id : String) (outcome : LuaValue) : (b.settle id outcome).writes = b.writes := by
  unfold settle
  split <;> rfl

theorem settle_lookup {id other : String} {p : Command} (h : (b.settle id outcome).pending.lookup other = some p) :
    other ≠ id ∧ b.pending.lookup other = some p := by
  unfold settle at h
  cases hp : b.pending.lookup id with
  | none =>
    rw [hp] at h
    refine ⟨?_,h⟩
    rintro rfl
    cases hp.symm.trans h
  | some q =>
    rw [hp] at h
    dsimp only at h
    rw [lookup_erase_ite] at h
    split at h
    · cases h
    · next hne => exact ⟨hne,h⟩

theorem fenced_settle (hf : b.Fenced log) (h : Justified log id outcome) : (b.settle id outcome).Fenced log := by
  have hpending : ∀ other p, (b.settle id outcome).pending.lookup other = some p → b.pending.lookup other = some p :=
    fun other p hp => (settle_lookup hp).2
  unfold settle at hpending ⊢
  cases hp : b.pending.lookup id with
  | none => exact hf
  | some p =>
    rw [hp] at hpending
    refine ⟨hf.written,hf.accepted,hf.tracked,?_,?_,hf.minted,?_,hf.answered⟩
    · exact fun other q hq => hf.captured other q (hpending other q hq)
    · exact fun other q hq => hf.asked other q (hpending other q hq)
    · intro entry hentry
      cases List.mem_append.mp hentry with
      | inl hold => exact hf.queue entry hold
      | inr hnew =>
        rw [List.mem_singleton.mp hnew]
        exact h

theorem fenced_settles (hf : b.Fenced log) {answers : List (String × LuaValue)} (h : ∀ answer ∈ answers, Justified log answer.1 answer.2) :
    (answers.foldl (fun b answer => b.settle answer.1 answer.2) b).Fenced log := by
  induction answers generalizing b with
  | nil => exact hf
  | cons answer rest ih =>
    apply ih
    · exact fenced_settle hf (h answer List.mem_cons_self)
    · exact fun other hother => h other (List.mem_cons_of_mem _ hother)

theorem settles_lookup {answers : List (String × LuaValue)} {p : Command}
    (h : (answers.foldl (fun b answer => b.settle answer.1 answer.2) b).pending.lookup id = some p) :
    b.pending.lookup id = some p ∧ ∀ outcome, (id,outcome) ∉ answers := by
  induction answers generalizing b with
  | nil => exact ⟨h,fun _ hmem => by cases hmem⟩
  | cons answer rest ih =>
    obtain ⟨hlookup,hrest⟩ := ih h
    obtain ⟨hne,hold⟩ := settle_lookup hlookup
    refine ⟨hold,fun outcome hmem => ?_⟩
    cases List.mem_cons.mp hmem with
    | inl heq =>
      rw [← heq] at hne
      exact hne rfl
    | inr hmem => exact hrest outcome hmem

theorem settles_writes (answers : List (String × LuaValue)) :
    (answers.foldl (fun b answer => b.settle answer.1 answer.2) b).writes = b.writes := by
  induction answers generalizing b with
  | nil => rfl
  | cons answer rest ih =>
    rw [List.foldl_cons,ih]
    exact settle_writes answer.1 answer.2

/-- After the sweep a write is what it was, or it is accepted and no barrier needs it. -/
theorem sweep_lookup (b : CompactionBroker) (eventId : String) : b.sweep.writes.lookup eventId = b.writes.lookup eventId ∨
    b.sweep.writes.lookup eventId = none ∧ b.needed eventId = false ∧
      ∃ w, b.writes.lookup eventId = some w ∧ w.status = .accepted := by
  unfold sweep
  dsimp only
  rw [lookup_foldl_erase]
  split
  · next hmem =>
    have hforgotten := (List.mem_filter.mp hmem).2
    right
    refine ⟨rfl,?_⟩
    cases hw : b.writes.lookup eventId with
    | none => simp [hw] at hforgotten
    | some w =>
      cases hs : w.status with
      | pending => simp [hw,hs] at hforgotten
      | rejected error => simp [hw,hs] at hforgotten
      | accepted =>
        simp [hw,hs] at hforgotten
        exact ⟨hforgotten,w,rfl,hs⟩
  · exact .inl rfl

theorem fenced_sweep (hf : b.Fenced log) : b.sweep.Fenced log := by
  have hkept : ∀ {eventId w}, b.sweep.writes.lookup eventId = some w → b.writes.lookup eventId = some w := by
    intro eventId w hw
    cases sweep_lookup b eventId with
    | inl hsame => exact hsame.symm.trans hw
    | inr hforgotten => cases hforgotten.1.symm.trans hw
  have hdecided : b.sweep.Fenced (log ++ []) := by
    apply hf.decide (by simp) (by simp)
    · exact fun eventId w hw => List.mem_append_left _ (hf.written eventId w (hkept hw))
    · exact fun eventId conversation hmem => by cases hmem
    · intro eventId old hold
      cases sweep_lookup b eventId with
      | inl hsame => exact .inl ⟨old,hsame.trans hold,rfl⟩
      | inr hforgotten =>
        obtain ⟨_,hneeded,w,hw,hstatus⟩ := hforgotten
        cases hold.symm.trans hw
        exact .inr ⟨hneeded,hstatus⟩
    · exact fun _ _ h => h
    · exact fun eventId w hw _ => .inl (hkept hw)
  rw [List.append_nil] at hdecided
  exact hdecided

theorem fenced_checkBarriers (hf : b.Fenced log) {order : List String → List String} (horder : ∀ ids, (order ids).Perm ids) :
    (b.checkBarriers order).Fenced log := by
  apply fenced_sweep
  apply fenced_settles hf
  intro answer hmem
  obtain ⟨p,hp,hverdict⟩ := mem_ready hmem
  exact hf.verdict horder hp hverdict

/-- Whatever was open before, a barrier that is open after the check is blocked. -/
theorem blocked_checkBarriers (b : CompactionBroker) {order : List String → List String} (horder : ∀ ids, (order ids).Perm ids) :
    (b.checkBarriers order).Blocked := by
  intro id p hp hop
  obtain ⟨hlookup,hnot⟩ := settles_lookup (b := b) hp
  have hverdict : b.verdict order p = none := by
    cases hv : b.verdict order p with
    | none => rfl
    | some outcome =>
      apply absurd _ (hnot outcome)
      refine List.mem_filterMap.mpr ⟨id,?_,?_⟩
      · rw [(horder b.pending.keys).mem_iff]
        exact AList.lookup_isSome.mp (by rw [hlookup]; rfl)
      · rw [hlookup]
        dsimp only
        rw [if_pos hop,hv,Option.map_some]
  obtain ⟨eventId,hcaptured,w,hw,hstatus⟩ := verdict_none hverdict
  refine ⟨eventId,hcaptured,w,?_,hstatus⟩
  unfold checkBarriers
  cases sweep_lookup ((b.ready order).foldl (fun b answer => b.settle answer.1 answer.2) b) eventId with
  | inl hsame =>
    rw [hsame,settles_writes]
    exact hw
  | inr hforgotten =>
    obtain ⟨_,_,w',hw',hstatus'⟩ := hforgotten
    rw [settles_writes,hw] at hw'
    cases hw'
    cases hstatus.symm.trans hstatus'

/-- A write is decided. -/
theorem fenced_decided (hf : b.Fenced log) {eventId : String} {w : CanonicalWrite} (hw : b.writes.lookup eventId = some w)
    {status : WriteStatus} {watermarks : AList fun _ : String => LuaNum} {e : BrokerEvent} (hcommand : e.command = none)
    (hnew : ∀ other conversation, e ≠ .written other conversation)
    (hwatermarks : ∀ conversation sequence, (b.watermark conversation).lt sequence = false →
      (watermark { b with watermarks := watermarks } conversation).lt sequence = false)
    (haccepted : status = .accepted → Recorded (log ++ [e]) eventId w.conversationId
      (watermark { b with watermarks := watermarks } w.conversationId)) :
    Fenced { b with writes := b.writes.insert eventId { w with status := status }, watermarks := watermarks } (log ++ [e]) := by
  apply hf.decide
  · intro id owner op args hmem
    rw [← List.mem_singleton.mp hmem] at hcommand
    cases hcommand
  · intro id owner outcome hmem
    rw [← List.mem_singleton.mp hmem] at hcommand
    cases hcommand
  · intro other w' hw'
    apply List.mem_append_left
    rw [lookup_insert_ite] at hw'
    split at hw'
    · next heq =>
      cases hw'
      rw [heq]
      exact hf.written eventId w hw
    · exact hf.written other w' hw'
  · intro other conversation hmem
    exact absurd (List.mem_singleton.mp hmem).symm (hnew other conversation)
  · intro other old hold
    left
    rw [lookup_insert_ite]
    split
    · next heq =>
      rw [heq] at hold
      cases hw.symm.trans hold
      exact ⟨_,rfl,rfl⟩
    · exact ⟨old,hold,rfl⟩
  · exact hwatermarks
  · intro other w' hw' hstatus
    rw [lookup_insert_ite] at hw'
    split at hw'
    · next heq =>
      cases hw'
      rw [heq]
      exact .inr (haccepted hstatus)
    · exact .inl hw'

theorem watermark_insert (b : CompactionBroker) (conversation other : String) (n : LuaNum) :
    watermark { b with watermarks := b.watermarks.insert conversation n } other = if other = conversation then n else b.watermark other := by
  unfold watermark
  dsimp only
  rw [lookup_insert_ite]
  split <;> rfl

theorem fenced_receipt (hf : b.Fenced log) (hb : b.Blocked) {order : List String → List String}
    (horder : ∀ ids, (order ids).Perm ids) (body : LuaValue) (recorded : Bool) :
    (b.receipt order body recorded).1.Fenced (log ++ (b.receipt order body recorded).2) ∧
      (b.receipt order body recorded).1.Blocked := by
  have hsame : b.Fenced (log ++ []) ∧ b.Blocked := by
    rw [List.append_nil]
    exact ⟨hf,hb⟩
  unfold receipt
  dsimp only
  split
  · exact hsame
  · next eventId _ =>
    split
    · exact hsame
    · next w hw =>
      split
      · split
        · split
          · refine ⟨fenced_checkBarriers (fenced_decided hf hw rfl (by simp) ?_ ?_) horder,blocked_checkBarriers _ horder⟩
            · intro conversation sequence hlt
              rw [watermark_insert]
              split
              · next heq =>
                rw [heq] at hlt
                exact maxSequence_left hlt
              · exact hlt
            · intro _
              refine ⟨sequenceOf ((body.get "event").get "sequence"),List.mem_append_right _ List.mem_cons_self,?_⟩
              rw [watermark_insert,if_pos rfl]
              exact maxSequence_right _ _
          · refine ⟨fenced_checkBarriers (fenced_decided hf hw rfl (by simp) (fun _ _ h => h) ?_) horder,blocked_checkBarriers _ horder⟩
            intro hstatus
            cases hstatus
        · exact hsame
      · exact hsame

theorem rawEq_conversation {args : LuaValue} {conversation : String} :
    (LuaValue.str conversation).rawEq (args.get "conversation_id") = true ↔ keyText (args.get "conversation_id") = some conversation := by
  cases args.get "conversation_id" with
  | str other =>
    simp only [LuaValue.rawEq,keyText,beq_iff_eq,Option.some.injEq]
    exact eq_comm
  | _ => simp [LuaValue.rawEq,keyText]

/-- What a barrier captures is what the run wrote to its conversation. -/
theorem mem_captured {args : LuaValue} {eventId : String} :
    (eventId ∈ b.writes.keys.filter fun eventId => match b.writes.lookup eventId with
      | some w => (LuaValue.str w.conversationId).rawEq (args.get "conversation_id")
      | none => false) ↔
    ∃ w, b.writes.lookup eventId = some w ∧ keyText (args.get "conversation_id") = some w.conversationId := by
  rw [List.mem_filter]
  constructor
  · rintro ⟨_,hmatch⟩
    cases hw : b.writes.lookup eventId with
    | none => simp [hw] at hmatch
    | some w =>
      rw [hw] at hmatch
      exact ⟨w,rfl,rawEq_conversation.mp hmatch⟩
  · rintro ⟨w,hw,hconversation⟩
    refine ⟨AList.lookup_isSome.mp (by rw [hw]; rfl),?_⟩
    rw [hw]
    exact rawEq_conversation.mpr hconversation

theorem fenced_register (hf : b.Fenced log) (hb : b.Blocked) (hkept : b.Kept) {order : List String → List String}
    (horder : ∀ ids, (order ids).Perm ids) (owner : String) (op : CommandOp) (args : LuaValue) :
    (b.register order owner op args).1.Fenced (log ++ (b.register order owner op args).2) ∧
      (b.register order owner op args).1.Blocked := by
  have hopen : ∀ {b' : CompactionBroker} {serial id input captured}, b'.Blocked → op ≠ .barrier →
      Blocked { b' with serial := serial, pending := b'.pending.insert id ⟨op,input,owner,captured⟩ } := by
    intro b' serial id input captured hb' hop other p hp hbarrier
    dsimp only at hp
    rw [lookup_insert_ite] at hp
    split at hp
    · cases hp
      exact absurd hbarrier hop
    · exact hb' other p hp hbarrier
  by_cases hop : op = .barrier
  · subst hop
    refine ⟨fenced_checkBarriers (fenced_ask hf hkept owner .barrier args ?_ ?_) horder,blocked_checkBarriers _ horder⟩
    · exact fun eventId hmem => mem_captured.mp hmem
    · exact fun _ eventId w hw hconversation => mem_captured.mpr ⟨w,hw,hconversation⟩
  · unfold register
    simp only [if_neg hop]
    split
    · next request _ =>
      have hshrinks := shrinks_supersede (b := b) (commandId b.scope (b.serial + 1)) request
      have hanswers := answers_supersede b (commandId b.scope (b.serial + 1)) request
      have hasked := fenced_ask (hf.shrink hshrinks (tells_supersede (commandId b.scope (b.serial + 1)) request)) (hanswers.kept hkept) owner .cancelCompaction
        (CommandOp.input .cancelCompaction (commandId b.scope (b.serial + 1)) args)
        (fun eventId (hmem : eventId ∈ ([] : List String)) => by cases hmem) (fun heq => by cases heq)
      have hid : commandId (b.supersede (commandId b.scope (b.serial + 1)) request).1.scope
          ((b.supersede (commandId b.scope (b.serial + 1)) request).1.serial + 1) = commandId b.scope (b.serial + 1) := by
        rw [hshrinks.scope,hshrinks.serial]
      rw [hid,hshrinks.serial,List.append_assoc] at hasked
      exact ⟨hasked,hopen (hshrinks.blocked hb) hop⟩
    · refine ⟨fenced_ask hf hkept owner _ (CommandOp.input _ _ args) ?_ ?_,hopen hb hop⟩
      · exact fun eventId hmem => by cases hmem
      · exact fun heq => absurd heq hop

theorem fenced_perform (hf : b.Fenced log) (hb : b.Blocked) (hkept : b.Kept) {order : List String → List String}
    (horder : ∀ ids, (order ids).Perm ids) (act : Act) :
    (b.perform order act).1.Fenced (log ++ (b.perform order act).2) ∧ (b.perform order act).1.Blocked := by
  have hshrink : ∀ {b' events}, Shrinks b b' ∧ b.Tells events → b'.Fenced (log ++ events) ∧ b'.Blocked :=
    fun h => ⟨hf.shrink h.1 h.2,h.1.blocked hb⟩
  cases act with
  | emit eventId conversationId =>
    refine ⟨fenced_emit hf eventId conversationId,?_⟩
    intro id p hp hop
    obtain ⟨other,hcaptured,w,hw,hstatus⟩ := hb id p hp hop
    refine ⟨other,hcaptured,w,?_,hstatus⟩
    dsimp only [perform,emit]
    cases hlookup : b.writes.lookup eventId with
    | some _ => exact hw
    | none =>
      dsimp only
      rw [lookup_insert_ite]
      split
      · next heq =>
        rw [heq,hlookup] at hw
        cases hw
      · exact hw
  | register owner op args => exact fenced_register hf hb hkept horder owner op args
  | detach id => exact hshrink ⟨shrinks_detach id,fun _ he => .inl ⟨id,List.mem_singleton.mp he⟩⟩
  | detachOwner owner => exact hshrink (shrinks_detachOwner order owner)
  | interrupt reason => exact hshrink (shrinks_interrupt order reason)
  | take live => exact hshrink (shrinks_take live)
  | event source body =>
    have hsame : b.Fenced (log ++ []) ∧ b.Blocked := hshrink ⟨Shrinks.refl b,fun _ he => by cases he⟩
    unfold perform event
    dsimp only
    split
    · split
      · exact hsame
      · split
        · exact hsame
        · split
          · obtain ⟨hfenced,hblocked⟩ := fenced_receipt hf hb horder body true
            have hshrinks := shrinks_finished (b := (b.receipt order body true).1) (body.get "event")
            have hfinished := hfenced.shrink hshrinks (fun _ (he : _ ∈ []) => by cases he)
            rw [List.append_nil] at hfinished
            exact ⟨hfinished,hshrinks.blocked hblocked⟩
          · split
            · exact fenced_receipt hf hb horder body false
            · exact hshrink ⟨shrinks_answer source _ body,fun _ he => by cases he⟩
    · exact hsame

theorem fenced_new (scope : String) : (CompactionBroker.new scope).Fenced [] ∧ (CompactionBroker.new scope).Blocked := by
  constructor
  · constructor <;> simp [new]
  · intro id p hp
    simp [new] at hp

theorem fenced_run {scope : String} {acts : List Act} {s : Session} (h : Trace Next (.new scope) acts s) :
    s.broker.Fenced s.log ∧ s.broker.Blocked := by
  have hgood : s.broker.Kept ∧ s.broker.Fenced s.log ∧ s.broker.Blocked := by
    apply h.preserves (P := fun s => s.broker.Kept ∧ s.broker.Fenced s.log ∧ s.broker.Blocked)
    · rintro s act s' ⟨hkept,hf,hb⟩ hnext
      cases hnext with
      | perform horder => exact ⟨(answers_perform _ _ act).kept hkept,fenced_perform hf hb hkept horder act⟩
    · refine ⟨?_,fenced_new scope⟩
      constructor <;> simp [Session.new,new]
  exact hgood.2

/-- A barrier is answered with a watermark only when everything that the run wrote to its conversation before
it asked is recorded, at a sequence that the watermark covers, whatever else the broker did meanwhile and in
whatever order it visited its tables. A fact that was also written to another conversation counts for none. -/
theorem barrier_covers {scope : String} {acts : List Act} {s : Session} (h : Trace Next (.new scope) acts s)
    {id owner owner' conversation : String} {args : LuaValue} {n : LuaNum} {before middle after : List BrokerEvent}
    (hlog : s.log = before ++ .asked id owner .barrier args :: (middle ++ .answered id owner' (watermarkOutcome n) :: after))
    (hargs : args.get "conversation_id" = .str conversation) {eventId : String} (hwritten : .written eventId conversation ∈ before)
    (hsole : Sole s.log eventId conversation) :
    ∃ sequence, .recorded eventId conversation sequence ∈ before ++ middle ∧ n.lt sequence = false := by
  have hanswered := (fenced_run h).1.answered id owner' (watermarkOutcome n) (before ++ .asked id owner .barrier args :: middle) after
    (by rw [hlog,List.append_assoc,List.cons_append])
  have hsole' : Sole (before ++ .asked id owner .barrier args :: middle) eventId conversation := by
    intro other hother
    apply hsole other
    rw [hlog,← List.cons_append,← List.append_assoc]
    exact List.mem_append_left _ hother
  obtain ⟨sequence,hrecorded,hlt⟩ := hanswered n rfl owner args before middle rfl eventId conversation
    (by rw [hargs]; rfl) hwritten hsole'
  refine ⟨sequence,?_,hlt⟩
  simpa using hrecorded

def barrierArgs : LuaValue := .record [("conversation_id",.str "c")]

def recordedFact : LuaValue :=
  .record [("kind",.str "conversation.fact.recorded"),
    ("event",.record [("event_id",.str "f"),("conversation_id",.str "c"),("sequence",.num (.int 3))])]

theorem barrier_covers_recorded : ∃ s : Session, s.log = [.written "f" "c",.asked "r1/command-1" "actor" .barrier barrierArgs,
      .recorded "f" "c" (.int 3),.answered "r1/command-1" "actor" (watermarkOutcome (.int 3))] ∧
    ∃ sequence, BrokerEvent.recorded "f" "c" sequence ∈ [.written "f" "c"] ++ [.recorded "f" "c" (.int 3)] ∧
      (LuaNum.int 3).lt sequence = false := by
  have horder : ∀ ids : List String, (id ids).Perm ids := fun ids => List.Perm.refl ids
  have htrace : Trace Next (.new "r1") [.emit "f" "c",.register "actor" .barrier barrierArgs,
      .event "conversation-manager" recordedFact,.take true] _ :=
    .cons (.perform horder) (.cons (.perform horder) (.cons (.perform horder) (.cons (.perform horder) (.nil _))))
  have hmax : maxSequence (.int 0) (.int 3) = .int 3 := by decide
  obtain ⟨s,hrun,hlog⟩ : ∃ s, Trace Next (.new "r1") [.emit "f" "c",.register "actor" .barrier barrierArgs,
      .event "conversation-manager" recordedFact,.take true] s ∧ s.log = [.written "f" "c",
      .asked "r1/command-1" "actor" .barrier barrierArgs,.recorded "f" "c" (.int 3),
      .answered "r1/command-1" "actor" (watermarkOutcome (maxSequence (.int 0) (.int 3)))] := ⟨_,htrace,rfl⟩
  rw [hmax] at hlog
  refine ⟨s,hlog,?_⟩
  apply barrier_covers hrun hlog rfl List.mem_cons_self
  intro other hother
  rw [hlog] at hother
  simpa using hother

/-- A barrier that is open waits for a fact that it captured, that the run wrote to its conversation, and that
is not decided; and no captured fact is missing from the table that the check reads. -/
theorem barrier_waits {scope : String} {acts : List Act} {s : Session} (h : Trace Next (.new scope) acts s)
    {id : String} {p : Command} (hp : s.broker.pending.lookup id = some p) (hop : p.op = .barrier) :
    (∀ eventId ∈ p.captured, ∃ w, s.broker.writes.lookup eventId = some w ∧ p.conversationId = some w.conversationId ∧
      .written eventId w.conversationId ∈ s.log) ∧
    ∃ eventId ∈ p.captured, ∃ w, s.broker.writes.lookup eventId = some w ∧ w.status = .pending := by
  obtain ⟨hf,hb⟩ := fenced_run h
  refine ⟨fun eventId hmem => ?_,hb id p hp hop⟩
  obtain ⟨w,hw,hconversation⟩ := hf.captured id p hp eventId hmem
  exact ⟨w,hw,hconversation,hf.written eventId w hw⟩

theorem barrier_waits_written : ∃ s : Session, s.log = [.written "f" "c",.asked "r1/command-1" "actor" .barrier barrierArgs] ∧
    ∃ p, s.broker.pending.lookup "r1/command-1" = some p ∧
      (∀ eventId ∈ p.captured, ∃ w, s.broker.writes.lookup eventId = some w ∧ p.conversationId = some w.conversationId ∧
        .written eventId w.conversationId ∈ s.log) ∧
      ∃ eventId ∈ p.captured, ∃ w, s.broker.writes.lookup eventId = some w ∧ w.status = .pending := by
  have horder : ∀ ids : List String, (id ids).Perm ids := fun ids => List.Perm.refl ids
  have htrace : Trace Next (.new "r1") [.emit "f" "c",.register "actor" .barrier barrierArgs] _ :=
    .cons (.perform horder) (.cons (.perform horder) (.nil _))
  obtain ⟨s,hrun,hlog,hop⟩ : ∃ s, Trace Next (.new "r1") [.emit "f" "c",.register "actor" .barrier barrierArgs] s ∧
      s.log = [.written "f" "c",.asked "r1/command-1" "actor" .barrier barrierArgs] ∧
      (s.broker.pending.lookup "r1/command-1").map Command.op = some .barrier := ⟨_,htrace,rfl,by decide⟩
  obtain ⟨p,hp,hbarrier⟩ := Option.map_eq_some_iff.mp hop
  exact ⟨s,hlog,p,hp,barrier_waits hrun hp hbarrier⟩

end CompactionBroker
end Nefor.Kernel
