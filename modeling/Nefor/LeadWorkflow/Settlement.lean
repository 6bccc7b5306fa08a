import Nefor.LeadWorkflow.Coherence

/-! What becomes of a call that waits. The run it waits for ends once, and then the call is told
once; only the end of the session or of the call itself comes before. -/
namespace Nefor.LeadWorkflow
open Nefor.Lua

/-- What the settlements say to a call. -/
def told (settlements : List (String × LuaValue)) (firing : String) : List LuaValue :=
  (settlements.filter fun settlement => settlement.1 = firing).map Prod.snd

theorem told_append (out out' : List (String × LuaValue)) (firing : String) :
    told (out ++ out') firing = told out firing ++ told out' firing := by
  simp only [told,List.filter_append,List.map_append]

theorem told_map {waiters : List String} (h : waiters.Nodup) (outcome : LuaValue) (firing : String) :
    told (waiters.map fun firing => (firing,outcome)) firing = if firing ∈ waiters then [outcome] else [] := by
  induction waiters with
  | nil => rfl
  | cons waiter rest ih =>
    obtain ⟨hnot,hrest⟩ := List.nodup_cons.mp h
    rw [List.map_cons,← List.singleton_append,told_append,ih hrest]
    by_cases heq : waiter = firing
    · subst heq
      simp [told,hnot]
    · simp [told,heq,Ne.symm heq]

/-- The call waits for the run that is registered under this name. -/
def Waits (r : Registry) (firing id : String) (run : Nat) : Prop :=
  r.waiterRuns.lookup firing = some id ∧ r.activeRuns.lookup id = some run

/-- The run left the tables before it was terminal. -/
def Dropped (r : Registry) (run : Nat) : Prop :=
  (r.heap run).phase ≠ .terminal ∧ ∀ id, r.runs.lookup id ≠ some run

/-- What a call is told of its run: the canonical outcome, or that the session has ended. -/
def Settles (ended : String → Prop) (r : Registry) (id : String) (run : Nat) (outcome : LuaValue) : Prop :=
  run < r.registered ∧ ((r.heap run).phase = .terminal ∧ (r.heap run).canonical = outcome ∨
    outcome = sessionEnded id ∧ ended (r.heap run).sessionId ∧ Dropped r run)

structure Good (r : Registry) : Prop where
  tables : Tables r
  limited : Limited r
  waiting : Waiting r

/-- Runs are not forgotten, and what is final stays. -/
structure Grows (r r' : Registry) : Prop where
  registered : r.registered ≤ r'.registered
  limits : r'.terminalLimit = r.terminalLimit ∧ r'.tombstoneLimit = r.tombstoneLimit
  session : ∀ run < r.registered, (r'.heap run).sessionId = (r.heap run).sessionId
  terminal : ∀ run < r.registered, (r.heap run).phase = .terminal →
    (r'.heap run).phase = .terminal ∧ (r'.heap run).canonical = (r.heap run).canonical
  delivered : ∀ run < r.registered, (r.heap run).relayDelivered = true → (r'.heap run).relayDelivered = true
  dropped : ∀ run < r.registered, Dropped r run → Dropped r' run

theorem Grows.refl (r : Registry) : Grows r r :=
  ⟨Nat.le_refl _,⟨rfl,rfl⟩,fun _ _ => rfl,fun _ _ h => ⟨h,rfl⟩,fun _ _ h => h,fun _ _ h => h⟩

theorem Grows.trans {r r' r'' : Registry} (h : Grows r r') (h' : Grows r' r'') : Grows r r'' := by
  have hlt : ∀ run < r.registered, run < r'.registered := fun run hrun => Nat.lt_of_lt_of_le hrun h.registered
  constructor
  · exact Nat.le_trans h.registered h'.registered
  · exact ⟨h'.limits.1.trans h.limits.1,h'.limits.2.trans h.limits.2⟩
  · intro run hrun
    exact (h'.session run (hlt run hrun)).trans (h.session run hrun)
  · intro run hrun hphase
    obtain ⟨hphase',hcanonical⟩ := h.terminal run hrun hphase
    obtain ⟨hphase'',hcanonical'⟩ := h'.terminal run (hlt run hrun) hphase'
    exact ⟨hphase'',hcanonical'.trans hcanonical⟩
  · intro run hrun hdelivered
    exact h'.delivered run (hlt run hrun) (h.delivered run hrun hdelivered)
  · intro run hrun hdropped
    exact h'.dropped run (hlt run hrun) (h.dropped run hrun hdropped)

theorem Settles.grows {ended : String → Prop} {r r' : Registry} {id : String} {run : Nat} {outcome : LuaValue}
    (h : Settles ended r id run outcome) (hgrows : Grows r r') : Settles ended r' id run outcome := by
  obtain ⟨hrun,h⟩ := h
  refine ⟨Nat.lt_of_lt_of_le hrun hgrows.registered,?_⟩
  cases h with
  | inl hterminal =>
    obtain ⟨hphase,hcanonical⟩ := hgrows.terminal run hrun hterminal.1
    exact Or.inl ⟨hphase,hcanonical.trans hterminal.2⟩
  | inr hended =>
    obtain ⟨houtcome,hsession,hdropped⟩ := hended
    refine Or.inr ⟨houtcome,?_,hgrows.dropped run hrun hdropped⟩
    rw [hgrows.session run hrun]
    exact hsession

/-- A call is told nothing while it waits, and once when it no longer does. -/
structure Fate (ended : String → Prop) (r : Registry) (out : List (String × LuaValue)) (r' : Registry)
    (firing : String) : Prop where
  idle : r.waiterRuns.lookup firing = none → r'.waiterRuns.lookup firing = none ∧ told out firing = []
  waits : ∀ id run, Waits r firing id run → Waits r' firing id run ∧ told out firing = [] ∨
    r'.waiterRuns.lookup firing = none ∧ ∃ outcome, told out firing = [outcome] ∧ Settles ended r' id run outcome

theorem Fate.same {ended : String → Prop} {r r' : Registry} {firing : String}
    (hwaiter : r'.waiterRuns.lookup firing = r.waiterRuns.lookup firing)
    (hactive : ∀ id run, r.waiterRuns.lookup firing = some id → r.activeRuns.lookup id = some run →
      r'.activeRuns.lookup id = some run) : Fate ended r [] r' firing := by
  constructor
  · intro hnone
    exact ⟨hwaiter.trans hnone,rfl⟩
  · intro id run hwaits
    exact Or.inl ⟨⟨hwaiter.trans hwaits.1,hactive id run hwaits.1 hwaits.2⟩,rfl⟩

theorem Fate.trans {ended : String → Prop} {r r' r'' : Registry} {out out' : List (String × LuaValue)}
    {firing : String} (h : Fate ended r out r' firing) (h' : Fate ended r' out' r'' firing)
    (hgrows : Grows r' r'') : Fate ended r (out ++ out') r'' firing := by
  constructor
  · intro hnone
    obtain ⟨hnone',htold⟩ := h.idle hnone
    obtain ⟨hnone'',htold'⟩ := h'.idle hnone'
    exact ⟨hnone'',by rw [told_append,htold,htold',List.nil_append]⟩
  · intro id run hwaits
    rw [told_append]
    cases h.waits id run hwaits with
    | inl hstill =>
      rw [hstill.2,List.nil_append]
      exact h'.waits id run hstill.1
    | inr hgone =>
      obtain ⟨hnone,outcome,htold,hsettles⟩ := hgone
      obtain ⟨hnone',htold'⟩ := h'.idle hnone
      refine Or.inr ⟨hnone',outcome,?_,hsettles.grows hgrows⟩
      rw [htold,htold',List.append_nil]

structure Advance (ended : String → Prop) (r : Registry) (out : List (String × LuaValue)) (r' : Registry) : Prop where
  good : Good r'
  grows : Grows r r'
  fate : ∀ firing, Fate ended r out r' firing

theorem Advance.refl {ended : String → Prop} {r : Registry} (h : Good r) : Advance ended r [] r :=
  ⟨h,Grows.refl r,fun _ => Fate.same rfl fun _ _ _ hactive => hactive⟩

theorem Advance.trans {ended : String → Prop} {r r' r'' : Registry} {out out' : List (String × LuaValue)}
    (h : Advance ended r out r') (h' : Advance ended r' out' r'') : Advance ended r (out ++ out') r'' :=
  ⟨h'.good,h.grows.trans h'.grows,fun firing => (h.fate firing).trans (h'.fate firing) h'.grows⟩

/-! A run lets its waiters go. -/

structure Release (r : Registry) (id : String) (run : Nat) (r' : Registry) : Prop where
  registered : r'.registered = r.registered
  limits : r'.terminalLimit = r.terminalLimit ∧ r'.tombstoneLimit = r.tombstoneLimit
  heap : ∀ other, other ≠ run → r'.heap other = r.heap other
  session : (r'.heap run).sessionId = (r.heap run).sessionId
  delivered : (r'.heap run).relayDelivered = (r.heap run).relayDelivered
  once : (r'.heap run).waiters.Nodup
  runs : ∀ other k, r'.runs.lookup other = some k → r.runs.lookup other = some k
  activeRuns : ∀ other, r'.activeRuns.lookup other = if other = id then none else r.activeRuns.lookup other
  waiterRuns : ∀ firing, r'.waiterRuns.lookup firing =
    if firing ∈ (r.heap run).waiters then none else r.waiterRuns.lookup firing

namespace Release
variable {r r' : Registry} {id : String} {run : Nat}

/-- The waiters of another run are others. -/
theorem other_waits (hgood : Good r) (hactive : r.activeRuns.lookup id = some run) {firing other : String}
    (h : r.waiterRuns.lookup firing = some other) : firing ∈ (r.heap run).waiters ↔ other = id := by
  constructor
  · intro hmem
    have hid := (hgood.waiting.waiters firing id).mpr ⟨run,hactive,hmem⟩
    rw [h] at hid
    exact Option.some.inj hid
  · rintro rfl
    obtain ⟨k,hk,hmem⟩ := (hgood.waiting.waiters firing other).mp h
    rw [hactive] at hk
    cases hk
    exact hmem

theorem run_ne (hgood : Good r) (hactive : r.activeRuns.lookup id = some run) {other : String} {k : Nat}
    (h : r.activeRuns.lookup other = some k) (hne : other ≠ id) : k ≠ run := by
  rintro rfl
  apply hne
  have hother := (hgood.tables.known other k ((hgood.tables.active other k).mp h).1).2
  have hid := (hgood.tables.known id k ((hgood.tables.active id k).mp hactive).1).2
  exact hother.symm.trans hid

theorem waiting (h : Release r id run r') (hgood : Good r) (hactive : r.activeRuns.lookup id = some run) :
    Waiting r' := by
  constructor
  · intro firing other
    rw [h.waiterRuns]
    constructor
    · intro hlookup
      split at hlookup
      · cases hlookup
      · next hnot =>
        obtain ⟨k,hk,hmem⟩ := (hgood.waiting.waiters firing other).mp hlookup
        have hne : other ≠ id := fun heq => hnot ((other_waits hgood hactive hlookup).mpr heq)
        refine ⟨k,?_,?_⟩
        · rw [h.activeRuns,if_neg hne]
          exact hk
        · rw [h.heap k (run_ne hgood hactive hk hne)]
          exact hmem
    · rintro ⟨k,hk,hmem⟩
      rw [h.activeRuns] at hk
      split at hk
      · cases hk
      · next hne =>
        rw [h.heap k (run_ne hgood hactive hk hne)] at hmem
        have hlookup := (hgood.waiting.waiters firing other).mpr ⟨k,hk,hmem⟩
        rw [if_neg fun hwaits => hne ((other_waits hgood hactive hlookup).mp hwaits)]
        exact hlookup
  · intro k
    by_cases heq : k = run
    · rw [heq]
      exact h.once
    · rw [h.heap k heq]
      exact hgood.waiting.once k

theorem grows (h : Release r id run r') (hgood : Good r) (hactive : r.activeRuns.lookup id = some run) :
    Grows r r' := by
  obtain ⟨hrun,hphase⟩ := (hgood.tables.active id run).mp hactive
  constructor
  · exact h.registered.ge
  · exact h.limits
  · intro k _
    by_cases heq : k = run
    · rw [heq]
      exact h.session
    · rw [h.heap k heq]
  · intro k _ hk
    have hne : k ≠ run := by
      rintro rfl
      exact hphase hk
    rw [h.heap k hne]
    exact ⟨hk,rfl⟩
  · intro k _ hk
    by_cases heq : k = run
    · rw [heq,h.delivered,← heq]
      exact hk
    · rw [h.heap k heq]
      exact hk
  · intro k _ hk
    have hne : k ≠ run := by
      rintro rfl
      exact hk.2 id hrun
    refine ⟨?_,fun other hother => hk.2 other (h.runs other k hother)⟩
    rw [h.heap k hne]
    exact hk.1

theorem fate {ended : String → Prop} (h : Release r id run r') (hgood : Good r)
    (hactive : r.activeRuns.lookup id = some run) {outcome : LuaValue} (hsettles : Settles ended r' id run outcome)
    (firing : String) :
    Fate ended r ((sorted (r.heap run).waiters).map fun firing => (firing,outcome)) r' firing := by
  have htold := told_map (nodup_sorted (hgood.waiting.once run)) outcome firing
  simp only [mem_sorted] at htold
  constructor
  · intro hnone
    have hnot : firing ∉ (r.heap run).waiters := by
      intro hmem
      have hlookup := (hgood.waiting.waiters firing id).mpr ⟨run,hactive,hmem⟩
      rw [hnone] at hlookup
      cases hlookup
    rw [h.waiterRuns,if_neg hnot,htold,if_neg hnot]
    exact ⟨hnone,rfl⟩
  · intro other k hwaits
    have hother := other_waits hgood hactive hwaits.1
    by_cases heq : other = id
    · subst heq
      have hk : k = run := Option.some.inj (hwaits.2.symm.trans hactive)
      rw [h.waiterRuns,if_pos (hother.mpr rfl),htold,if_pos (hother.mpr rfl),hk]
      exact Or.inr ⟨rfl,outcome,rfl,hsettles⟩
    · have hnot : firing ∉ (r.heap run).waiters := fun hmem => heq (hother.mp hmem)
      rw [htold,if_neg hnot]
      refine Or.inl ⟨⟨?_,?_⟩,rfl⟩
      · rw [h.waiterRuns,if_neg hnot]
        exact hwaits.1
      · rw [h.activeRuns,if_neg heq]
        exact hwaits.2

end Release

/-! The run becomes terminal, and older ones of its session may go. -/

section Terminal
variable {r : Registry} {id : String} {run : Nat} {f : Run → Run}

structure Settling (f : Run → Run) : Prop where
  runId : ∀ run, (f run).runId = run.runId
  sessionId : ∀ run, (f run).sessionId = run.sessionId
  relayDelivered : ∀ run, (f run).relayDelivered = run.relayDelivered

theorem sessionId_close (hf : Settling f) (other : Nat) :
    ((r.close id run f).heap other).sessionId = (r.heap other).sessionId := by
  rw [Tables.heap_close]
  split
  · next heq =>
    rw [heq]
    exact hf.sessionId _
  · rfl

theorem enforce_close (hgood : Good r) (hactive : r.activeRuns.lookup id = some run) (hf : Settling f) :
    Tables (r.finish id run f) ∧ Limited (r.finish id run f) ∧ Tables.Expired (r.close id run f) (r.finish id run f) ∧
      ∀ other, (r.finish id run f).activeRuns.lookup other = (r.close id run f).activeRuns.lookup other := by
  apply (hgood.tables.close hactive (hf.runId _)).enforce
  intro other hother
  have hothers : ((r.close id run f).completedRuns.filter fun k => ((r.close id run f).heap k).sessionId = other) =
      r.completedRuns.filter fun k => (r.heap k).sessionId = other := by
    simp only [sessionId_close hf]
    change (r.completedRuns ++ [run]).filter (fun k => (r.heap k).sessionId = other) = _
    rw [List.filter_append,List.filter_singleton]
    simp [Ne.symm hother]
  rw [hothers]
  exact hgood.limited other

theorem heap_finish (hgood : Good r) (hactive : r.activeRuns.lookup id = some run) (hf : Settling f) (other : Nat) :
    (r.finish id run f).heap other =
      if other = run then { f (r.heap run) with phase := .terminal, waiters := [] } else r.heap other := by
  rw [(enforce_close hgood hactive hf).2.2.1.heap]
  exact Tables.heap_close f other

theorem release_finish (hgood : Good r) (hactive : r.activeRuns.lookup id = some run) (hf : Settling f) :
    Release r id run (r.finish id run f) := by
  obtain ⟨_,_,hexpired,hsame⟩ := enforce_close hgood hactive hf
  have hheap := heap_finish hgood hactive hf
  constructor
  · exact hexpired.registered
  · exact hexpired.limits
  · intro other hother
    rw [hheap,if_neg hother]
  · rw [hheap,if_pos rfl]
    exact hf.sessionId _
  · rw [hheap,if_pos rfl]
    exact hf.relayDelivered _
  · rw [hheap,if_pos rfl]
    exact List.nodup_nil
  · exact hexpired.runs
  · intro other
    rw [hsame]
    exact lookup_erase_ite _ _ _
  · intro firing
    rw [hexpired.waiterRuns]
    change ((sorted (r.heap run).waiters).foldl (fun waiterRuns firing => waiterRuns.erase firing) r.waiterRuns).lookup firing = _
    rw [lookup_foldl_erase]
    simp only [mem_sorted]

theorem advance_finish {ended : String → Prop} (hgood : Good r) (hactive : r.activeRuns.lookup id = some run)
    (hf : Settling f) {outcome : LuaValue} (houtcome : (f (r.heap run)).canonical = outcome) :
    Advance ended r ((sorted (r.heap run).waiters).map fun firing => (firing,outcome)) (r.finish id run f) := by
  obtain ⟨htables,hlimited,_⟩ := enforce_close hgood hactive hf
  have hrelease := release_finish hgood hactive hf
  refine ⟨⟨htables,hlimited,hrelease.waiting hgood hactive⟩,hrelease.grows hgood hactive,?_⟩
  apply hrelease.fate hgood hactive
  refine ⟨?_,Or.inl ?_⟩
  · rw [hrelease.registered]
    exact (hgood.tables.known id run ((hgood.tables.active id run).mp hactive).1).1
  · rw [heap_finish hgood hactive hf,if_pos rfl]
    exact ⟨rfl,houtcome⟩

theorem Grows.of_expired {r' : Registry} (h : Tables.Expired r r') : Grows r r' := by
  constructor
  · exact h.registered.ge
  · exact h.limits
  · intro k _
    rw [h.heap]
  · intro k _ hk
    rw [h.heap]
    exact ⟨hk,rfl⟩
  · intro k _ hk
    rw [h.heap]
    exact hk
  · intro k _ hk
    refine ⟨?_,fun other hother => hk.2 other (h.runs other k hother)⟩
    rw [h.heap]
    exact hk.1

theorem limited_expire (htables : Tables r) (hlimited : Limited r) (hrun : r.runs.lookup id = some run) :
    Limited (r.expire run) := by
  intro sessionId
  have hexpired := htables.expired_expire hrun
  rw [hexpired.heap,hexpired.limits.1,htables.completedRuns_expire hrun]
  apply le_trans _ (hlimited sessionId)
  exact (List.Sublist.filter _ List.filter_sublist).length_le

/-- A terminal run goes; nobody waits for it. -/
theorem advance_expire {ended : String → Prop} (hgood : Good r) (hrun : r.runs.lookup id = some run)
    (hphase : (r.heap run).phase = .terminal) : Advance ended r [] (r.expire run) := by
  have hexpired := hgood.tables.expired_expire hrun
  have hactive := hgood.tables.activeRuns_expire_terminal hrun hphase
  refine ⟨⟨hgood.tables.expire hrun,limited_expire hgood.tables hgood.limited hrun,?_⟩,Grows.of_expired hexpired,?_⟩
  · constructor
    · intro firing other
      rw [hexpired.waiterRuns,hexpired.heap]
      simp only [hactive]
      exact hgood.waiting.waiters firing other
    · rw [hexpired.heap]
      exact hgood.waiting.once
  · intro firing
    apply Fate.same
    · rw [hexpired.waiterRuns]
    · intro other k _ hk
      rw [hactive]
      exact hk

/-- A run of the ended session goes before it is terminal. -/
theorem advance_drop {ended : String → Prop} (hgood : Good r) (hrun : r.runs.lookup id = some run)
    (hphase : (r.heap run).phase ≠ .terminal) (hended : ended (r.heap run).sessionId) :
    Advance ended r ((sorted (r.heap run).waiters).map fun firing => (firing,sessionEnded id))
      ({ r with waiterRuns := (sorted (r.heap run).waiters).foldl (fun waiterRuns firing => waiterRuns.erase firing) r.waiterRuns }.expire run) := by
  let r₁ : Registry := { r with waiterRuns := (sorted (r.heap run).waiters).foldl (fun waiterRuns firing => waiterRuns.erase firing) r.waiterRuns }
  have htables : Tables r₁ := hgood.tables.of_heap (fun _ => rfl) (fun _ => Iff.rfl)
  have hactive := (hgood.tables.active id run).mpr ⟨hrun,hphase⟩
  have hexpired := htables.expired_expire (r := r₁) hrun
  have hrelease : Release r id run (r₁.expire run) := by
    constructor
    · exact hexpired.registered
    · exact hexpired.limits
    · intro other _
      rw [hexpired.heap]
    · rw [hexpired.heap]
    · rw [hexpired.heap]
    · rw [hexpired.heap]
      exact hgood.waiting.once run
    · exact hexpired.runs
    · exact htables.activeRuns_expire hrun
    · intro firing
      rw [hexpired.waiterRuns]
      change ((sorted (r.heap run).waiters).foldl (fun waiterRuns firing => waiterRuns.erase firing) r.waiterRuns).lookup firing = _
      rw [lookup_foldl_erase]
      simp only [mem_sorted]
  have hlimited : Limited (r₁.expire run) := limited_expire htables hgood.limited hrun
  refine ⟨⟨htables.expire hrun,hlimited,hrelease.waiting hgood hactive⟩,hrelease.grows hgood hactive,?_⟩
  apply hrelease.fate hgood hactive
  refine ⟨?_,Or.inr ⟨rfl,?_,?_,?_⟩⟩
  · rw [hrelease.registered]
    exact (hgood.tables.known id run hrun).1
  · rw [hrelease.session]
    exact hended
  · rw [hexpired.heap]
    exact hphase
  · intro other hother
    have hknown := (hgood.tables.known other run (hrelease.runs other run hother)).2
    rw [(hgood.tables.known id run hrun).2] at hknown
    subst hknown
    have hgone := ((htables.expire hrun).active id run).mpr ⟨hother,by rw [hexpired.heap]; exact hphase⟩
    rw [hrelease.activeRuns,if_pos rfl] at hgone
    cases hgone

end Terminal

end Nefor.LeadWorkflow
