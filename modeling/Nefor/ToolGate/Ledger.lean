import Nefor.Balance
import Nefor.ToolGate.Gate

/-! The books of the gate. Every call that came in under a caller's id is answered or still open;
every inner id is still pending or ended by its source, by a refused request or by one cancel. -/
namespace Nefor.ToolGate
open Json (Object)

namespace Entry

/-- A call came in under the caller's id. -/
def invokes (outerId : String) : Entry → Bool
  | heard body => field body "kind" = some "tool-gate.tool.invoke" ∧ field body "id" = some outerId
  | sent _ _ => false

/-- The caller was answered. -/
def answers (outerId : String) : Entry → Bool
  | sent (.resultError id _) none => id = outerId
  | sent (.result pending _) none => pending.outerId = outerId
  | _ => false

/-- The source was asked to prepare or to run the call. -/
def requests (phase : Phase) (innerId : String) : Entry → Bool
  | sent (.request p call) _ => p = phase ∧ call.innerId = innerId
  | _ => false

/-- The source was told to drop the call. -/
def cancels (innerId : String) : Entry → Bool
  | sent (.cancel _ id) none => id = innerId
  | _ => false

/-- The source ended the call with a result of its own. -/
def sourceAnswers (innerId : String) : Entry → Bool
  | sent (.result _ body) _ => field body "id" = some innerId
  | _ => false

/-- A request for the call could not be sent. -/
def refuses (innerId : String) : Entry → Bool
  | sent (.request _ call) (some _) => call.innerId = innerId
  | _ => false

/-- The call's inner id is given up. -/
def ends (innerId : String) (e : Entry) : Bool :=
  e.cancels innerId || e.sourceAnswers innerId || e.refuses innerId

/-- The entry has no part in the books. -/
structure Quiet (e : Entry) : Prop where
  invokes : ∀ o, e.invokes o = false
  answers : ∀ o, e.answers o = false
  requests : ∀ phase i, e.requests phase i = false
  ends : ∀ i, e.ends i = false

end Entry

open Entry (invokes answers requests cancels sourceAnswers refuses ends)

namespace Session

def push (s : Session) (e : Entry) : Session := { s with history := s.history ++ [e] }

def count (s : Session) (p : Entry → Bool) : Nat := s.history.countP p

/-- Change the maps. -/
def modify (s : Session) (f : GateState → GateState) : Session := { s with state := f s.state }

/-- The id was minted. -/
def Minted (s : Session) (i : String) : Prop := ∃ n, n < s.state.innerIdCounter ∧ i = innerId (n+1)

/-- A call of the caller's id waits for its answer. -/
def Open (s : Session) (caller : Option String) (o : String) : Prop :=
  caller = some o ∨ ∃ i f, s.state.pending.lookup i = some f ∧ f.outerId = o

/-- The inner id is in use. -/
def Kept (s : Session) (source : Option String) (i : String) : Prop :=
  source = some i ∨ (s.state.pending.lookup i).isSome

variable (s : Session) (e : Entry) (f : GateState → GateState) (p : Entry → Bool)

@[simp] theorem push_state : (s.push e).state = s.state := rfl
@[simp] theorem push_ended : (s.push e).ended = s.ended := rfl
@[simp] theorem modify_state : (s.modify f).state = f s.state := rfl
@[simp] theorem modify_history : (s.modify f).history = s.history := rfl
@[simp] theorem modify_ended : (s.modify f).ended = s.ended := rfl
@[simp] theorem modify_count : (s.modify f).count p = s.count p := rfl

@[simp] theorem push_count : (s.push e).count p = s.count p + if p e then 1 else 0 := by
  simp [count,push,List.countP_append,List.countP_singleton]

end Session

/-- The maps of the gate agree: what is prepared or asked about is pending. -/
structure Linked (s : GateState) : Prop where
  unique : ∀ {i j f g}, s.pending.lookup i = some f → s.pending.lookup j = some g →
    f.outerId = g.outerId → i = j
  preparing : ∀ {i call}, s.preparing.lookup i = some call → call.innerId = i ∧
    s.pending.lookup i = some call.forward ∧ call.approvalPolicy.isSome
  awaiting : ∀ {o call}, s.awaitingApproval.lookup o = some call → call.outerId = o ∧
    s.pending.lookup call.innerId = some call.forward ∧ call.approvalPolicy.isSome ∧
    s.preparing.lookup call.innerId = none

/-- Every call that came in is answered or pending, but for the caller that is about to be
answered. -/
structure Callers (s : Session) (caller : Option String) : Prop where
  apart : ∀ {o i f}, caller = some o → s.state.pending.lookup i = some f → f.outerId ≠ o
  balance : ∀ o, Balance (invokes o) (answers o) s.history (s.Open caller o)

/-- Every inner id is fresh, pending or ended once, but for the one that is about to be ended. -/
structure Sources (s : Session) (source : Option String) : Prop where
  minted : ∀ {i}, s.Kept source i → s.Minted i
  released : ∀ {i}, source = some i → s.state.pending.lookup i = none
  ended : ∀ {i}, s.Minted i → ¬s.Kept source i → s.count (ends i) = 1
  unended : ∀ {i}, ¬s.Minted i ∨ s.Kept source i → s.count (ends i) = 0

/-- A source is asked at most once to prepare a call and once to run it, and not to run it before
it was decided. -/
structure Requests (s : Session) : Prop where
  fresh : ∀ {i}, ¬s.Minted i → ∀ phase, s.count (requests phase i) = 0
  once : ∀ phase i, s.count (requests phase i) ≤ 1
  unprepared : ∀ {i call}, s.state.preparing.lookup i = some call →
    s.count (requests .invoke i) = 0
  unapproved : ∀ {o call}, s.state.awaitingApproval.lookup o = some call →
    s.count (requests .invoke call.innerId) = 0

variable {s : Session} {caller source : Option String} {e : Entry} {i o : String} {f : PendingForward}
  {call : PendingApproval} {g : GateState → GateState}

namespace Linked

/-- Calls that leave the gate leave all its maps. -/
theorem erase (h : Linked s.state) (hp : ∀ j, (g s.state).pending.lookup j =
      if j = i then none else s.state.pending.lookup j)
    (hr : ∀ {j c}, (g s.state).preparing.lookup j = some c →
      j ≠ i ∧ s.state.preparing.lookup j = some c)
    (ha : ∀ {j c}, (g s.state).awaitingApproval.lookup j = some c →
      c.innerId ≠ i ∧ s.state.awaitingApproval.lookup j = some c) : Linked (g s.state) where
  unique hj hk he := by
    rw [hp] at hj hk
    split at hj
    · cases hj
    · split at hk
      · cases hk
      · exact h.unique hj hk he
  preparing hc := by
    obtain ⟨hne,hc⟩ := hr hc
    rw [hp,if_neg hne]
    exact h.preparing hc
  awaiting hc := by
    obtain ⟨hne,hc⟩ := ha hc
    obtain ⟨ho,hl,hpol,hn⟩ := h.awaiting hc
    refine ⟨ho,?_,hpol,?_⟩
    · rw [hp,if_neg hne]
      exact hl
    · refine Option.eq_none_iff_forall_ne_some.mpr fun c' hc' => ?_
      rw [(hr hc').2] at hn
      cases hn

end Linked

namespace Callers

theorem quiet (h : Callers s caller) (hi : ∀ o, e.invokes o = false) (ha : ∀ o, e.answers o = false) :
    Callers (s.push e) caller where
  apart := h.apart
  balance o := (h.balance o).quiet (hi o) (ha o)

/-- Only the pending calls matter. -/
theorem congr (h : Callers s caller)
    (hp : ∀ j, (g s.state).pending.lookup j = s.state.pending.lookup j) :
    Callers (s.modify g) caller where
  apart hc hl := h.apart hc (by rwa [Session.modify_state,hp] at hl)
  balance o := (h.balance o).congr (by simp [Session.Open,hp])

/-- A caller asks, under an id that is not open. -/
theorem invoked (h : Callers s none) {body : Object}
    (hk : field body "kind" = some "tool-gate.tool.invoke") (ho : field body "id" = some o)
    (hd : s.count (invokes o) = s.count (answers o)) : Callers (s.push (.heard body)) (some o) := by
  have hclosed : ¬s.Open none o := (h.balance o).even_iff.mp hd
  have ha : ∀ o', answers o' (.heard body) = false := fun _ => rfl
  constructor
  · rintro o' i f ⟨⟩ hp rfl
    exact hclosed (.inr ⟨i,f,hp,rfl⟩)
  · intro o'
    by_cases he : o' = o
    · subst he
      refine ((h.balance o').opened hclosed ?_ (ha o')).congr ?_
      · simp [invokes,hk,ho]
      · simp [Session.Open]
    · refine ((h.balance o').quiet ?_ (ha o')).congr ?_
      · simp [invokes,ho,Ne.symm he]
      · simp [Session.Open,Ne.symm he]

/-- The caller is answered. -/
theorem answered (h : Callers s (some o)) (hi : ∀ o', e.invokes o' = false)
    (ha : ∀ o', e.answers o' = decide (o = o')) : Callers (s.push e) none := by
  have hopen : ∀ o', s.Open none o' → o' ≠ o := by
    rintro o' (hc | ⟨i,f,hp,rfl⟩)
    · cases hc
    · exact h.apart rfl hp
  constructor
  · intro o' i f hc
    cases hc
  · intro o'
    by_cases he : o' = o
    · subst he
      refine ((h.balance o').closed (.inl rfl) (hi o') (by simp [ha])).congr ?_
      exact ⟨False.elim,fun hopen' => hopen o' hopen' rfl⟩
    · refine ((h.balance o').quiet (hi o') (by simp [ha,Ne.symm he])).congr ?_
      simp [Session.Open,Ne.symm he]

/-- A pending call is taken up. -/
theorem erase (h : Callers s none) (hl : Linked s.state) (hf : s.state.pending.lookup i = some f)
    (hp : ∀ j, (g s.state).pending.lookup j = if j = i then none else s.state.pending.lookup j) :
    Callers (s.modify g) (some f.outerId) := by
  have hlook : ∀ {j f'}, (g s.state).pending.lookup j = some f' →
      j ≠ i ∧ s.state.pending.lookup j = some f' := by
    intro j f' hj
    rw [hp] at hj
    split at hj
    · cases hj
    · exact ⟨‹_›,hj⟩
  constructor
  · rintro o j f' ⟨⟩ hj he
    obtain ⟨hne,hj⟩ := hlook hj
    exact hne (hl.unique hj hf he)
  · intro o
    refine (h.balance o).congr ⟨?_,?_⟩
    · rintro (hc | ⟨j,f',hj,rfl⟩)
      · cases hc
      · by_cases hji : j = i
        · subst hji
          cases hf.symm.trans hj
          exact .inl rfl
        · exact .inr ⟨j,f',by rw [Session.modify_state,hp,if_neg hji,hj],rfl⟩
    · rintro (hc | ⟨j,f',hj,rfl⟩)
      · cases hc
        exact .inr ⟨i,f,hf,rfl⟩
      · exact .inr ⟨j,f',(hlook hj).2,rfl⟩

/-- A call is forwarded. -/
theorem insert (h : Callers s (some f.outerId)) (hn : s.state.pending.lookup i = none)
    (hp : ∀ j, (g s.state).pending.lookup j = if j = i then some f else s.state.pending.lookup j) :
    Callers (s.modify g) none := by
  constructor
  · intro o j f' hc
    cases hc
  · intro o
    refine (h.balance o).congr ⟨?_,?_⟩
    · rintro (hc | ⟨j,f',hj,rfl⟩)
      · cases hc
        exact .inr ⟨i,f,by rw [Session.modify_state,hp,if_pos rfl],rfl⟩
      · have hji : j ≠ i := by
          rintro rfl
          rw [hn] at hj
          cases hj
        exact .inr ⟨j,f',by rw [Session.modify_state,hp,if_neg hji,hj],rfl⟩
    · rintro (hc | ⟨j,f',hj,rfl⟩)
      · cases hc
      · rw [Session.modify_state,hp] at hj
        split at hj
        · cases hj
          exact .inl rfl
        · exact .inr ⟨j,f',hj,rfl⟩

end Callers

namespace Sources

theorem ends_le (h : Sources s source) (i : String) : s.count (ends i) ≤ 1 := by
  by_cases hm : s.Minted i ∧ ¬s.Kept source i
  · have := h.ended hm.1 hm.2
    omega
  · have := h.unended ((not_and_or.mp hm).imp_right not_not.mp)
    omega

theorem quiet (h : Sources s source) (he : ∀ i, e.ends i = false) : Sources (s.push e) source where
  minted := h.minted
  released := h.released
  ended hm hk := by simpa [he] using h.ended hm hk
  unended hm := by simpa [he] using h.unended hm

/-- Only the pending calls and the counter matter. -/
theorem congr (h : Sources s source)
    (hp : ∀ j, (g s.state).pending.lookup j = s.state.pending.lookup j)
    (hc : (g s.state).innerIdCounter = s.state.innerIdCounter) : Sources (s.modify g) source := by
  have hm : ∀ j, (s.modify g).Minted j ↔ s.Minted j := by simp [Session.Minted,hc]
  have hk : ∀ j, (s.modify g).Kept source j ↔ s.Kept source j := by simp [Session.Kept,hp]
  constructor
  · exact fun h' => (hm _).mpr (h.minted ((hk _).mp h'))
  · intro j hj
    rw [Session.modify_state,hp]
    exact h.released hj
  · intro j hm' hk'
    exact h.ended ((hm j).mp hm') (mt (hk j).mpr hk')
  · intro j hj
    exact h.unended (hj.imp (mt (hm j).mpr) (hk j).mp)

theorem not_minted_next (s : Session) : ¬s.Minted (innerId (s.state.innerIdCounter+1)) := by
  rintro ⟨n,hn,he⟩
  have := innerId_injective he
  omega

/-- The next inner id is handed out. -/
theorem mint (h : Sources s none) (hp : (g s.state).pending = s.state.pending)
    (hc : (g s.state).innerIdCounter = s.state.innerIdCounter + 1) :
    Sources (s.modify g) (some (innerId (s.state.innerIdCounter+1))) := by
  have hnew := not_minted_next s
  have hm : ∀ j, (s.modify g).Minted j ↔
      s.Minted j ∨ innerId (s.state.innerIdCounter+1) = j := by
    intro j
    constructor
    · rintro ⟨n,hn,rfl⟩
      rw [Session.modify_state,hc] at hn
      by_cases he : n = s.state.innerIdCounter
      · exact .inr (by rw [he])
      · exact .inl ⟨n,by omega,rfl⟩
    · rintro (⟨n,hn,rfl⟩ | rfl)
      · exact ⟨n,by rw [Session.modify_state,hc]; omega,rfl⟩
      · exact ⟨_,by rw [Session.modify_state,hc]; omega,rfl⟩
  have hk : ∀ j, (s.modify g).Kept (some (innerId (s.state.innerIdCounter+1))) j ↔
      s.Kept none j ∨ innerId (s.state.innerIdCounter+1) = j := by
    intro j
    simp [Session.Kept,hp,or_comm]
  constructor
  · intro j hj
    exact (hm j).mpr (((hk j).mp hj).imp_left h.minted)
  · rintro j ⟨⟩
    rw [Session.modify_state,hp]
    refine Option.eq_none_iff_forall_ne_some.mpr fun f hf => hnew (h.minted (.inr ?_))
    simp [hf]
  · intro j hmj hkj
    have hne : innerId (s.state.innerIdCounter+1) ≠ j := fun he => hkj ((hk j).mpr (.inr he))
    exact h.ended (((hm j).mp hmj).resolve_right hne) fun hk' => hkj ((hk j).mpr (.inl hk'))
  · intro j hj
    rw [Session.modify_count]
    rcases hj with hj | hj
    · exact h.unended (.inl fun hmj => hj ((hm j).mpr (.inl hmj)))
    · rcases (hk j).mp hj with hj | rfl
      · exact h.unended (.inr hj)
      · exact h.unended (.inl hnew)

/-- The id that was handed out becomes pending. -/
theorem insert (h : Sources s (some i))
    (hp : ∀ j, (g s.state).pending.lookup j = if j = i then some f else s.state.pending.lookup j)
    (hc : (g s.state).innerIdCounter = s.state.innerIdCounter) : Sources (s.modify g) none := by
  have hm : ∀ j, (s.modify g).Minted j ↔ s.Minted j := by simp [Session.Minted,hc]
  have hk : ∀ j, (s.modify g).Kept none j ↔ s.Kept (some i) j := by
    intro j
    by_cases hj : j = i
    · subst hj
      simp [Session.Kept,hp]
    · simp [Session.Kept,hp,hj,Ne.symm hj]
  constructor
  · exact fun h' => (hm _).mpr (h.minted ((hk _).mp h'))
  · intro j hj
    cases hj
  · intro j hm' hk'
    exact h.ended ((hm j).mp hm') (mt (hk j).mpr hk')
  · intro j hj
    exact h.unended (hj.imp (mt (hm j).mpr) (hk j).mp)

/-- A pending id is taken up. -/
theorem erase (h : Sources s none) (hf : s.state.pending.lookup i = some f)
    (hp : ∀ j, (g s.state).pending.lookup j = if j = i then none else s.state.pending.lookup j)
    (hc : (g s.state).innerIdCounter = s.state.innerIdCounter) : Sources (s.modify g) (some i) := by
  have hm : ∀ j, (s.modify g).Minted j ↔ s.Minted j := by simp [Session.Minted,hc]
  have hk : ∀ j, (s.modify g).Kept (some i) j ↔ s.Kept none j := by
    intro j
    by_cases hj : j = i
    · subst hj
      simp [Session.Kept,hf]
    · simp [Session.Kept,hp,hj,Ne.symm hj]
  constructor
  · exact fun h' => (hm _).mpr (h.minted ((hk _).mp h'))
  · rintro j ⟨⟩
    rw [Session.modify_state,hp,if_pos rfl]
  · intro j hm' hk'
    exact h.ended ((hm j).mp hm') (mt (hk j).mpr hk')
  · intro j hj
    exact h.unended (hj.imp (mt (hm j).mpr) (hk j).mp)

/-- The id that was taken up is ended. -/
theorem done (h : Sources s (some i)) (he : ∀ j, e.ends j = decide (i = j)) :
    Sources (s.push e) none := by
  have hk : ∀ j, j ≠ i → (s.Kept (some i) j ↔ s.Kept none j) := by
    intro j hj
    simp [Session.Kept,Ne.symm hj]
  have hi : ¬s.Kept none i := by
    simp [Session.Kept,h.released rfl]
  constructor
  · rintro j (hj | hj)
    · cases hj
    · exact h.minted (.inr hj)
  · intro j hj
    cases hj
  · intro j hm' hk'
    by_cases hj : j = i
    · subst hj
      have := h.unended (i := j) (.inr (.inl rfl))
      simp [he,this]
    · have := h.ended (i := j) hm' (mt (hk j hj).mp hk')
      simp [he,Ne.symm hj,this]
  · intro j hj
    have hne : j ≠ i := by
      rintro rfl
      exact hj.elim (fun hm' => hm' (h.minted (.inl rfl))) hi
    have := h.unended (i := j) (hj.imp_right (hk j hne).mpr)
    simp [he,Ne.symm hne,this]

end Sources

namespace Requests

theorem quiet (h : Requests s) (hr : ∀ phase i, e.requests phase i = false) : Requests (s.push e) where
  fresh hm := by simpa [hr] using h.fresh hm
  once phase i := by simpa [hr] using h.once phase i
  unprepared hp := by simpa [hr] using h.unprepared hp
  unapproved ha := by simpa [hr] using h.unapproved ha

/-- The maps change, but no call that was run comes to wait for a decision. -/
theorem congr (h : Requests s)
    (hm : ∀ {j}, s.Minted j → (s.modify g).Minted j)
    (hr : ∀ {j c}, (g s.state).preparing.lookup j = some c →
      s.state.preparing.lookup j = some c ∨ s.count (requests .invoke j) = 0)
    (ha : ∀ {j c}, (g s.state).awaitingApproval.lookup j = some c →
      s.state.awaitingApproval.lookup j = some c ∨ s.count (requests .invoke c.innerId) = 0) :
    Requests (s.modify g) where
  fresh hn := h.fresh fun hm' => hn (hm hm')
  once := h.once
  unprepared hp := (hr hp).elim h.unprepared id
  unapproved hc := (ha hc).elim h.unapproved id

/-- A source is asked, for the first time in this phase. -/
theorem requested {phase : Phase} (h : Requests s)
    (hr : ∀ p j, e.requests p j = decide (phase = p ∧ i = j)) (hm : s.Minted i)
    (hz : s.count (requests phase i) = 0)
    (hp : phase = .invoke → s.state.preparing.lookup i = none)
    (ha : ∀ {o c}, phase = .invoke → s.state.awaitingApproval.lookup o = some c → c.innerId ≠ i) :
    Requests (s.push e) where
  fresh hn p := by
    have hne : ∀ {j}, ¬s.Minted j → i ≠ j := by
      rintro j hj rfl
      exact hj hm
    simpa [hr,hne hn] using h.fresh hn p
  once p j := by
    by_cases he : phase = p ∧ i = j
    · obtain ⟨rfl,rfl⟩ := he
      simp [hr,hz]
    · simpa [hr,he] using h.once p j
  unprepared {j c} hj := by
    have hne : ¬(phase = .invoke ∧ i = j) := by
      rintro ⟨hph,rfl⟩
      rw [Session.push_state,hp hph] at hj
      cases hj
    simpa [hr,hne] using h.unprepared hj
  unapproved {j c} hj := by
    have hne : ¬(phase = .invoke ∧ i = c.innerId) := fun hph => ha hph.1 hj hph.2.symm
    simpa [hr,hne] using h.unapproved hj

end Requests

/-- All books of the gate. -/
structure Ledger (s : Session) (caller source : Option String) : Prop where
  linked : Linked s.state
  callers : Callers s caller
  sources : Sources s source
  requests : Requests s

theorem Ledger.quiet (h : Ledger s caller source) (hq : e.Quiet) : Ledger (s.push e) caller source where
  linked := h.linked
  callers := h.callers.quiet hq.invokes hq.answers
  sources := h.sources.quiet hq.ends
  requests := h.requests.quiet hq.requests

end Nefor.ToolGate
