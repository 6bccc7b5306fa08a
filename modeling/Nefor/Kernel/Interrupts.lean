import Nefor.Kernel.Barriers

/-! After an interrupt, what the manager or a provider still says to the commands asked before comes too
late. -/
namespace Nefor.Kernel
open Nefor.Lua
namespace CompactionBroker

/-- One of the first commands. -/
def Early (scope : String) (n : Nat) (id : String) : Prop := ∃ m ≤ n, id = commandId scope m

/-- None of the first commands is open, and what is left to say of them is that they were interrupted. -/
structure Cut (scope : String) (n : Nat) (b : CompactionBroker) : Prop where
  origin : b.scope = scope
  serial : n ≤ b.serial
  pending : ∀ id p, b.pending.lookup id = some p → ¬Early scope n id
  queue : ∀ entry ∈ b.queue, Early scope n entry.id → ∃ reason, entry.outcome = interruption reason

/-- What is said to the first commands. -/
def Late (scope : String) (n : Nat) (events : List BrokerEvent) : Prop :=
  ∀ id owner outcome, .answered id owner outcome ∈ events → Early scope n id → ∃ reason, outcome = interruption reason

variable {b b' : CompactionBroker} {scope : String} {n : Nat} {events : List BrokerEvent}

theorem Late.of_silent (h : ∀ e ∈ events, e.command = none) : Late scope n events := by
  intro id owner outcome hmem
  cases h _ hmem

theorem Late.append {events' : List BrokerEvent} (h : Late scope n events) (h' : Late scope n events') :
    Late scope n (events ++ events') := by
  intro id owner outcome hmem
  cases List.mem_append.mp hmem with
  | inl hold => exact h id owner outcome hold
  | inr hnew => exact h' id owner outcome hnew

theorem Cut.told (h : Cut scope n b) (htells : b.Tells events) : Late scope n events := by
  intro id owner outcome hmem hearly
  rcases htells _ hmem with ⟨_,heq⟩ | ⟨_,_,_,heq⟩ | ⟨entry,hentry,heq⟩
  · cases heq
  · cases heq
  · cases heq
    exact h.queue entry hentry hearly

theorem Cut.shrink (h : Cut scope n b) (hs : Shrinks b b') : Cut scope n b' := by
  refine ⟨hs.scope.trans h.origin,?_,?_,?_⟩
  · rw [hs.serial]
    exact h.serial
  · exact fun id p hp => h.pending id p (hs.pending id p hp)
  · intro entry hentry hearly
    rcases hs.queue entry hentry with ⟨old,hold,hid,houtcome⟩ | hinterrupted | ⟨p,hp,_⟩
    · rw [← houtcome]
      apply h.queue old hold
      rw [hid]
      exact hearly
    · exact hinterrupted
    · exact absurd hearly (h.pending entry.id p hp)

theorem Cut.same (h : Cut scope n b) (hscope : b'.scope = b.scope) (hserial : b'.serial = b.serial)
    (hpending : b'.pending = b.pending) (hqueue : b'.queue = b.queue) : Cut scope n b' := by
  refine ⟨hscope.trans h.origin,?_,?_,?_⟩
  · rw [hserial]
    exact h.serial
  · rw [hpending]
    exact h.pending
  · rw [hqueue]
    exact h.queue

theorem cut_settle (h : Cut scope n b) (id : String) (outcome : LuaValue) : Cut scope n (b.settle id outcome) := by
  have hpending : ∀ other p, (b.settle id outcome).pending.lookup other = some p → b.pending.lookup other = some p :=
    fun other p hp => (settle_lookup hp).2
  unfold settle at hpending ⊢
  cases hp : b.pending.lookup id with
  | none => exact h
  | some p =>
    rw [hp] at hpending
    refine ⟨h.origin,h.serial,fun other q hq => h.pending other q (hpending other q hq),?_⟩
    intro entry hentry hearly
    cases List.mem_append.mp hentry with
    | inl hold => exact h.queue entry hold hearly
    | inr hnew =>
      rw [List.mem_singleton.mp hnew] at hearly
      exact absurd hearly (h.pending id p hp)

theorem cut_checkBarriers (h : Cut scope n b) (order : List String → List String) : Cut scope n (b.checkBarriers order) := by
  have hsettles : ∀ {b : CompactionBroker} (answers : List (String × LuaValue)), Cut scope n b →
      Cut scope n (answers.foldl (fun b answer => b.settle answer.1 answer.2) b) := by
    intro b answers h
    induction answers generalizing b with
    | nil => exact h
    | cons answer rest ih => exact ih (cut_settle h answer.1 answer.2)
  exact (hsettles _ h).same rfl rfl rfl rfl

/-- Commands that are asked now are none of the first. -/
theorem cut_ask (h : Cut scope n b) (p : Command) :
    Cut scope n { b with serial := b.serial + 1, pending := b.pending.insert (commandId b.scope (b.serial + 1)) p } := by
  refine ⟨h.origin,Nat.le_succ_of_le h.serial,?_,h.queue⟩
  intro id q hq hearly
  dsimp only at hq
  rw [lookup_insert_ite] at hq
  split at hq
  · next heq =>
    obtain ⟨m,hm,hid⟩ := hearly
    rw [heq,h.origin] at hid
    have := commandId_inj hid
    have := h.serial
    omega
  · exact h.pending id q hq hearly

theorem cut_register (h : Cut scope n b) (order : List String → List String) (owner : String) (op : CommandOp) (args : LuaValue) :
    Cut scope n (b.register order owner op args).1 ∧ Late scope n (b.register order owner op args).2 := by
  have hasked : ∀ input, Late scope n [.asked (commandId b.scope (b.serial + 1)) owner op input] := by
    intro input id owner outcome hmem
    cases List.mem_singleton.mp hmem
  have hask : ∀ {b' : CompactionBroker} (p : Command), Cut scope n b' → b'.scope = b.scope → b'.serial = b.serial →
      Cut scope n { b' with
        serial := b.serial + 1
        pending := b'.pending.insert (commandId b.scope (b.serial + 1)) p } := by
    intro b' p h' hscope hserial
    rw [← hscope,← hserial]
    exact cut_ask h' p
  by_cases hop : op = .barrier
  · subst hop
    exact ⟨cut_checkBarriers (hask _ h rfl rfl) order,hasked _⟩
  · unfold register
    simp only [if_neg hop]
    split
    · next request _ =>
      have hshrinks := shrinks_supersede (b := b) (commandId b.scope (b.serial + 1)) request
      refine ⟨hask _ (h.shrink hshrinks) hshrinks.scope hshrinks.serial,?_⟩
      exact (h.told (tells_supersede (commandId b.scope (b.serial + 1)) request)).append (hasked _)
    · exact ⟨hask _ h rfl rfl,hasked _⟩

theorem cut_receipt (h : Cut scope n b) (order : List String → List String) (body : LuaValue) (recorded : Bool) :
    Cut scope n (b.receipt order body recorded).1 ∧ Late scope n (b.receipt order body recorded).2 := by
  have hsame : Cut scope n b ∧ Late scope n [] := ⟨h,.of_silent (by simp)⟩
  have hchecked : ∀ {b' : CompactionBroker} {e : BrokerEvent}, e.command = none → b'.scope = b.scope → b'.serial = b.serial →
      b'.pending = b.pending → b'.queue = b.queue → Cut scope n (b'.checkBarriers order) ∧ Late scope n [e] := by
    intro b' e he hscope hserial hpending hqueue
    exact ⟨cut_checkBarriers (h.same hscope hserial hpending hqueue) order,.of_silent (by simpa using he)⟩
  unfold receipt
  dsimp only
  split
  · exact hsame
  · split
    · exact hsame
    · split
      · split
        · split
          · apply hchecked <;> rfl
          · apply hchecked <;> rfl
        · exact hsame
      · exact hsame

theorem cut_perform (h : Cut scope n b) (order : List String → List String) (act : Act) :
    Cut scope n (b.perform order act).1 ∧ Late scope n (b.perform order act).2 := by
  have hshrink : ∀ {b' events}, Shrinks b b' ∧ b.Tells events → Cut scope n b' ∧ Late scope n events :=
    fun h' => ⟨h.shrink h'.1,h.told h'.2⟩
  cases act with
  | emit eventId conversationId => exact ⟨h.same rfl rfl rfl rfl,.of_silent (by simp [emit,perform,BrokerEvent.command])⟩
  | register owner op args => exact cut_register h order owner op args
  | detach id => exact hshrink ⟨shrinks_detach id,fun _ he => .inl ⟨id,List.mem_singleton.mp he⟩⟩
  | detachOwner owner => exact hshrink (shrinks_detachOwner order owner)
  | interrupt reason => exact hshrink (shrinks_interrupt order reason)
  | take live => exact hshrink (shrinks_take live)
  | event source body =>
    have hsame : Cut scope n b ∧ Late scope n [] := hshrink ⟨Shrinks.refl b,fun _ he => by cases he⟩
    unfold perform event
    dsimp only
    split
    · split
      · exact hsame
      · split
        · exact hsame
        · split
          · obtain ⟨hcut,hlate⟩ := cut_receipt h order body true
            exact ⟨hcut.shrink (shrinks_finished (body.get "event")),hlate⟩
          · split
            · exact cut_receipt h order body false
            · exact hshrink ⟨shrinks_answer source _ body,fun _ he => by cases he⟩
    · exact hsame

/-- Every answer that an interrupt leaves says so, and it leaves nothing open. -/
theorem interruptOne_fold (reason : LuaValue) (ids : List String) (r : CompactionBroker × List BrokerEvent)
    (hqueue : ∀ entry ∈ r.1.queue, ∃ reason, entry.outcome = interruption reason) :
    (∀ entry ∈ (ids.foldl (interruptOne reason) r).1.queue, ∃ reason, entry.outcome = interruption reason) ∧
      ∀ id p, (ids.foldl (interruptOne reason) r).1.pending.lookup id = some p → r.1.pending.lookup id = some p ∧ id ∉ ids := by
  induction ids generalizing r with
  | nil => exact ⟨hqueue,fun id p hp => ⟨hp,List.not_mem_nil⟩⟩
  | cons id rest ih =>
    have hone : (∀ entry ∈ (interruptOne reason r id).1.queue, ∃ reason, entry.outcome = interruption reason) ∧
        ∀ other p, (interruptOne reason r id).1.pending.lookup other = some p → other ≠ id ∧ r.1.pending.lookup other = some p := by
      unfold interruptOne
      cases hp : r.1.pending.lookup id with
      | none =>
        refine ⟨hqueue,fun other p hother => ⟨?_,hother⟩⟩
        rintro rfl
        cases hp.symm.trans hother
      | some p =>
        refine ⟨?_,fun other q hq => settle_lookup hq⟩
        unfold settle
        rw [hp]
        intro entry hentry
        cases List.mem_append.mp hentry with
        | inl hold => exact hqueue entry hold
        | inr hnew =>
          rw [List.mem_singleton.mp hnew]
          exact ⟨reason,rfl⟩
    obtain ⟨hrest,hpending⟩ := ih (interruptOne reason r id) hone.1
    refine ⟨hrest,fun other p hp => ?_⟩
    obtain ⟨hlookup,hnot⟩ := hpending other p hp
    obtain ⟨hne,hold⟩ := hone.2 other p hlookup
    exact ⟨hold,List.not_mem_cons_of_ne_of_not_mem hne hnot⟩

theorem cut_interrupt (b : CompactionBroker) {order : List String → List String} (horder : ∀ ids, (order ids).Perm ids)
    (reason : LuaValue) : Cut b.scope b.serial (b.interrupt order reason).1 := by
  have hshrinks := (shrinks_interrupt (b := b) order reason).1
  have hfold := interruptOne_fold reason (order b.pending.keys)
    ({ b with queue := b.queue.map fun entry => { entry with outcome := interruption reason } },[]) (by
      intro entry hentry
      obtain ⟨old,_,rfl⟩ := List.mem_map.mp hentry
      exact ⟨reason,rfl⟩)
  refine ⟨hshrinks.scope,hshrinks.serial.ge,?_,fun entry hentry _ => hfold.1 entry hentry⟩
  intro id p hp
  obtain ⟨hlookup,hnot⟩ := hfold.2 id p hp
  apply absurd _ hnot
  rw [(horder b.pending.keys).mem_iff]
  exact AList.lookup_isSome.mp (by rw [show b.pending.lookup id = some p from hlookup]; rfl)

/-- Once a run is interrupted, a command that was asked before is told that it was interrupted, or nothing: no
success, however late it comes, reaches the actor. -/
theorem interrupt_final {scope : String} {acts acts' : List Act} {s s' s'' : Session} {reason : LuaValue} {later : List BrokerEvent}
    (h : Trace Next (.new scope) acts s) (hinterrupt : Next s (.interrupt reason) s') (h' : Trace Next s' acts' s'')
    (hlater : s''.log = s'.log ++ later) {id owner owner' : String} {op : CommandOp} {args outcome : LuaValue}
    (hasked : .asked id owner op args ∈ s.log) (hanswered : .answered id owner' outcome ∈ later) :
    ∃ reason', outcome = failureOutcome (.str "compaction_interrupted") (.record [("reason",reason')]) := by
  have hcut : Cut s.broker.scope s.broker.serial s'.broker := by
    cases hinterrupt with
    | perform horder => exact cut_interrupt s.broker horder reason
  have hrun : Cut s.broker.scope s.broker.serial s''.broker ∧ ∃ said, s''.log = s'.log ++ said ∧
      Late s.broker.scope s.broker.serial said := by
    apply h'.preserves (P := fun t => Cut s.broker.scope s.broker.serial t.broker ∧ ∃ said, t.log = s'.log ++ said ∧
      Late s.broker.scope s.broker.serial said)
    · rintro t act t' ⟨ht,said,hlog,hlate⟩ hnext
      cases hnext with
      | @perform order horder =>
        obtain ⟨hcut',hlate'⟩ := cut_perform ht order act
        refine ⟨hcut',said ++ (t.broker.perform order act).2,?_,hlate.append hlate'⟩
        rw [hlog,List.append_assoc]
    · exact ⟨hcut,[],by rw [List.append_nil],.of_silent (by simp)⟩
  obtain ⟨_,said,hlog,hlate⟩ := hrun
  rw [hlog] at hlater
  rw [← List.append_cancel_left hlater] at hanswered
  obtain ⟨m,_,hm,hid⟩ := (fenced_run h).1.minted id owner op args hasked
  exact hlate id owner' outcome hanswered ⟨m,hm,hid⟩

theorem interrupt_final_prepared : ∃ (s : Session) (outcome : LuaValue),
    .answered "r1/command-1" "actor" outcome ∈ s.log ∧
    ∃ reason', outcome = failureOutcome (.str "compaction_interrupted") (.record [("reason",reason')]) := by
  have hstep : ∀ (s : Session) (act : Act), Next s act ⟨(s.broker.perform id act).1,s.log ++ (s.broker.perform id act).2⟩ :=
    fun _ _ => .perform fun ids => List.Perm.refl ids
  obtain ⟨s,s',s'',hbefore,hinterrupt,hafter,hasked,hsaid⟩ : ∃ s s' s'' : Session,
      Trace Next (.new "r1") [.register "actor" .prepare (.record [("provider",.str "p")])] s ∧
      Next s (.interrupt .nil) s' ∧ Trace Next s' [.event "p" preparedNotice,.take true] s'' ∧
      s.log = [.asked "r1/command-1" "actor" .prepare (CommandOp.prepare.input "r1/command-1" (.record [("provider",.str "p")]))] ∧
      s''.log = s'.log ++ [.answered "r1/command-1" "actor" (interruption .nil)] :=
    ⟨_,_,_,.single (hstep _ _),hstep _ _,.cons (hstep _ _) (.single (hstep _ _)),rfl,rfl⟩
  have hmem : .asked "r1/command-1" "actor" .prepare (CommandOp.prepare.input "r1/command-1" (.record [("provider",.str "p")])) ∈ s.log := by
    rw [hasked]
    exact List.mem_cons_self
  refine ⟨s'',_,?_,interrupt_final hbefore hinterrupt hafter hsaid hmem List.mem_cons_self⟩
  rw [hsaid]
  exact List.mem_append_right _ List.mem_cons_self

end CompactionBroker
end Nefor.Kernel
