import Mathlib.Data.List.Nodup
import Nefor.LeadWorkflow.RunRegistry
import Nefor.Maps

/-! The tables of the registry describe the same runs, and a call that waits is named by the run
that it waits for. -/
namespace Nefor.LeadWorkflow

theorem mem_sorted {keys : List String} {key : String} : key ∈ sorted keys ↔ key ∈ keys :=
  (List.perm_insertionSort _ keys).mem_iff

theorem nodup_sorted {keys : List String} (h : keys.Nodup) : (sorted keys).Nodup :=
  (List.perm_insertionSort _ keys).nodup_iff.mpr h

theorem removeValue_eq {α : Type} [DecidableEq α] {list : List α} (h : list.Nodup) (value : α) :
    removeValue list value = list.filter (· ≠ value) := by
  rw [removeValue,(List.nodup_reverse.mpr h).erase_eq_filter,← List.filter_reverse,List.reverse_reverse]
  apply List.filter_congr
  intro x _
  rw [bne,beq_eq_decide,decide_not]

theorem filter_not_mem_take {α : Type} [DecidableEq α] {list : List α} (h : list.Nodup) (n : Nat) :
    list.filter (· ∉ list.take n) = list.drop n := by
  have hdisjoint : ∀ x ∈ list.drop n, x ∉ list.take n := by
    intro x hdrop htake
    exact List.disjoint_take_drop h (Nat.le_refl n) htake hdrop
  calc list.filter (· ∉ list.take n)
      = (list.take n ++ list.drop n).filter (· ∉ list.take n) := by rw [List.take_append_drop]
    _ = [] ++ list.drop n := by
        rw [List.filter_append,List.filter_eq_nil_iff.mpr,List.filter_eq_self.mpr]
        · intro x hx
          simpa using hdisjoint x hx
        · intro x hx
          simpa using hx
    _ = list.drop n := List.nil_append _

/-- The tombstones, in the order in which they were put up. -/
structure Stones (order : List String) (tombstones : AList fun _ : String => String) : Prop where
  nodup : order.Nodup
  listed : ∀ id, id ∈ order ↔ tombstones.lookup id ≠ none

theorem Stones.displace {limit : Nat} {order : List String} {tombstones : AList fun _ : String => String}
    (h : Stones order tombstones) : Stones (Registry.displace limit order tombstones).1 (Registry.displace limit order tombstones).2 ∧
      (Registry.displace limit order tombstones).1.length ≤ limit ∧
      ∀ id, tombstones.lookup id = none → (Registry.displace limit order tombstones).2.lookup id = none := by
  induction order generalizing tombstones with
  | nil => exact ⟨h,Nat.zero_le limit,fun _ hid => hid⟩
  | cons first rest ih =>
    rw [Registry.displace]
    split
    · obtain ⟨hfirst,hrest⟩ := List.nodup_cons.mp h.nodup
      have hstones : Stones rest (tombstones.erase first) := by
        refine ⟨hrest,fun id => ?_⟩
        rw [lookup_erase_ite]
        have hlisted := h.listed id
        grind
      obtain ⟨hnext,hlength,hnone⟩ := ih hstones
      refine ⟨hnext,hlength,fun id hid => hnone id ?_⟩
      rw [lookup_erase_ite]
      grind
    · next hlength => exact ⟨h,Nat.le_of_not_lt hlength,fun _ hid => hid⟩

theorem Stones.push {order : List String} {tombstones : AList fun _ : String => String} {id : String}
    (h : Stones order tombstones) (hid : tombstones.lookup id = none) (sessionId : String) :
    Stones (order ++ [id]) (tombstones.insert id sessionId) := by
  have hnot : id ∉ order := by
    rw [h.listed]
    exact not_not_intro hid
  constructor
  · exact List.nodup_append.mpr ⟨h.nodup,List.nodup_singleton _,by grind⟩
  · intro other
    have hlisted := h.listed other
    rw [lookup_insert_ite]
    grind

/-- The tables of runs, of ended runs and of dispatchers agree. -/
structure Tables (r : Registry) : Prop where
  known : ∀ id run, r.runs.lookup id = some run → run < r.registered ∧ (r.heap run).runId = id
  active : ∀ id run, r.activeRuns.lookup id = some run ↔ r.runs.lookup id = some run ∧ (r.heap run).phase ≠ .terminal
  completedOnce : r.completedRuns.Nodup
  completed : ∀ run, run ∈ r.completedRuns ↔
    r.runs.lookup (r.heap run).runId = some run ∧ (r.heap run).phase = .terminal
  order : r.terminalOrder = r.completedRuns.map fun run => (r.heap run).runId
  disjoint : ∀ id run, r.runs.lookup id = some run → r.tombstones.lookup id = none
  stones : Stones r.tombstoneOrder r.tombstones
  few : r.tombstoneOrder.length ≤ r.tombstoneLimit
  dispatchers : ∀ id dispatcher, r.runDispatchers.lookup id = some dispatcher ↔
    ∃ owned, r.dispatcherRuns.lookup dispatcher = some owned ∧ id ∈ owned
  dispatched : ∀ id dispatcher, r.runDispatchers.lookup id = some dispatcher → ∃ run, r.runs.lookup id = some run

/-- The calls that wait are those that an active run names. -/
structure Waiting (r : Registry) : Prop where
  waiters : ∀ firing id, r.waiterRuns.lookup firing = some id ↔
    ∃ run, r.activeRuns.lookup id = some run ∧ firing ∈ (r.heap run).waiters
  once : ∀ run, (r.heap run).waiters.Nodup

namespace Tables
variable {r : Registry} {id : String} {run : Nat}

theorem new (terminalLimit tombstoneLimit : Nat) : Tables (Registry.new terminalLimit tombstoneLimit) := by
  constructor <;> simp [Registry.new]
  exact ⟨List.nodup_nil,by simp⟩

/-- The fields of a run that the tables do not depend on may change. -/
theorem of_heap {heap : Nat → Run} {waiterRuns : AList fun _ : String => String} (h : Tables r)
    (hid : ∀ run, (heap run).runId = (r.heap run).runId)
    (hphase : ∀ run, (heap run).phase = .terminal ↔ (r.heap run).phase = .terminal) :
    Tables { r with heap := heap, waiterRuns := waiterRuns } := by
  constructor
  · intro id run hrun
    rw [hid]
    exact h.known id run hrun
  · intro id run
    rw [Ne,hphase]
    exact h.active id run
  · exact h.completedOnce
  · intro run
    rw [hid,hphase]
    exact h.completed run
  · simp only [hid]
    exact h.order
  · exact h.disjoint
  · exact h.stones
  · exact h.few
  · exact h.dispatchers
  · exact h.dispatched

@[simp] theorem heap_close (f : Run → Run) (other : Nat) : (r.close id run f).heap other =
    if other = run then { f (r.heap run) with phase := .terminal, waiters := [] } else r.heap other := by
  simp only [Registry.close,Registry.modify,Function.update_apply]

theorem close (h : Tables r) (hactive : r.activeRuns.lookup id = some run) {f : Run → Run}
    (hf : (f (r.heap run)).runId = (r.heap run).runId) : Tables (r.close id run f) := by
  obtain ⟨hrun,hphase⟩ := (h.active id run).mp hactive
  obtain ⟨hlt,hid⟩ := h.known id run hrun
  have hnot : run ∉ r.completedRuns := fun hmem => hphase ((h.completed run).mp hmem).2
  have hheap : ∀ other, ((r.close id run f).heap other).runId = (r.heap other).runId := by
    intro other
    rw [heap_close]
    split
    · next heq => rw [heq,← hf]
    · rfl
  constructor
  · intro other k hother
    rw [hheap]
    exact h.known other k hother
  · intro other k
    change (r.activeRuns.erase id).lookup other = some k ↔ r.runs.lookup other = some k ∧ _
    rw [lookup_erase_ite,heap_close]
    have hknown := h.known other k
    have hactive := h.active other k
    grind
  · refine List.nodup_append.mpr ⟨h.completedOnce,List.nodup_singleton _,?_⟩
    intro a ha b hb heq
    rw [heq,List.mem_singleton.mp hb] at ha
    exact hnot ha
  · intro k
    rw [hheap,heap_close]
    change k ∈ r.completedRuns ++ [run] ↔ r.runs.lookup (r.heap k).runId = some k ∧ _
    rw [List.mem_append,h.completed k]
    grind
  · simp only [hheap]
    change r.terminalOrder ++ [id] = (r.completedRuns ++ [run]).map fun run => (r.heap run).runId
    rw [h.order,List.map_append,List.map_singleton,hid]
  · exact h.disjoint
  · exact h.stones
  · exact h.few
  · exact h.dispatchers
  · exact h.dispatched

/-! A run comes. -/

theorem register (h : Tables r) {new : Run} (hid : r.runs.lookup new.runId = none)
    (hstone : r.tombstones.lookup new.runId = none) (hphase : new.phase ≠ .terminal) :
    Tables { r with
      heap := Function.update r.heap r.registered new
      registered := r.registered + 1
      runs := r.runs.insert new.runId r.registered
      activeRuns := r.activeRuns.insert new.runId r.registered } := by
  have hheap : ∀ id k, r.runs.lookup id = some k → Function.update r.heap r.registered new k = r.heap k := by
    intro id k hk
    have hlt := (h.known id k hk).1
    rw [Function.update_apply,if_neg (by omega)]
  have hnew : Function.update r.heap r.registered new r.registered = new := Function.update_self _ _ _
  constructor
  · intro other k hk
    dsimp only at hk ⊢
    rw [lookup_insert_ite] at hk
    split at hk
    · next heq =>
      cases hk
      rw [hnew]
      exact ⟨Nat.lt_succ_self _,heq.symm⟩
    · obtain ⟨hlt,hknown⟩ := h.known other k hk
      rw [hheap other k hk]
      exact ⟨Nat.lt_succ_of_lt hlt,hknown⟩
  · intro other k
    dsimp only
    rw [lookup_insert_ite,lookup_insert_ite]
    have hactive := h.active other k
    have hother := hheap other k
    grind
  · exact h.completedOnce
  · intro k
    dsimp only
    rw [lookup_insert_ite,h.completed k]
    by_cases hk : k = r.registered
    · subst hk
      rw [hnew]
      have hnot : r.runs.lookup (r.heap r.registered).runId ≠ some r.registered := by
        intro hlookup
        exact Nat.lt_irrefl _ (h.known _ _ hlookup).1
      simp [hnot,hphase]
    · rw [Function.update_of_ne hk]
      grind
  · dsimp only
    rw [h.order]
    apply List.map_congr_left
    intro k hk
    rw [hheap _ k ((h.completed k).mp hk).1]
  · intro other k hk
    dsimp only at hk ⊢
    rw [lookup_insert_ite] at hk
    split at hk
    · next heq =>
      rw [heq]
      exact hstone
    · exact h.disjoint other k hk
  · exact h.stones
  · exact h.few
  · exact h.dispatchers
  · intro other dispatcher hother
    dsimp only
    rw [lookup_insert_ite]
    split
    · exact ⟨r.registered,rfl⟩
    · exact h.dispatched other dispatcher hother

theorem link (h : Tables r) (hrun : r.runs.lookup id = some run) (hid : r.runDispatchers.lookup id = none)
    (dispatcher : String) :
    Tables { r with
      dispatcherRuns := r.dispatcherRuns.insert dispatcher
        (insert id ((r.dispatcherRuns.lookup dispatcher).getD ∅))
      runDispatchers := r.runDispatchers.insert id dispatcher } := by
  constructor
  · exact h.known
  · exact h.active
  · exact h.completedOnce
  · exact h.completed
  · exact h.order
  · exact h.disjoint
  · exact h.stones
  · exact h.few
  · intro other owner
    have hother := h.dispatchers other owner
    have hnone := h.dispatchers id owner
    dsimp only
    rw [lookup_insert_ite,lookup_insert_ite]
    by_cases heq : owner = dispatcher
    · subst heq
      cases howned : r.dispatcherRuns.lookup owner with
      | none => grind
      | some owned => grind
    · grind
  · intro other owner hother
    dsimp only at hother
    rw [lookup_insert_ite] at hother
    split at hother
    · next heq =>
      rw [heq]
      exact ⟨run,hrun⟩
    · exact h.dispatched other owner hother

/-! A run goes. -/

theorem lookup_unlink (other : String) :
    (r.unlink id).2.lookup other = if other = id then none else r.runDispatchers.lookup other := by
  unfold Registry.unlink
  split
  · next hnone =>
    split
    · next heq => rw [heq,hnone]
    · rfl
  · exact lookup_erase_ite _ _ _

theorem unlink_owned {other dispatcher : String}
    (h : ∀ dispatcher, r.runDispatchers.lookup id = some dispatcher ↔
      ∃ owned, r.dispatcherRuns.lookup dispatcher = some owned ∧ id ∈ owned) :
    (∃ owned, (r.unlink id).1.lookup dispatcher = some owned ∧ other ∈ owned) ↔
      other ≠ id ∧ ∃ owned, r.dispatcherRuns.lookup dispatcher = some owned ∧ other ∈ owned := by
  unfold Registry.unlink
  split
  · next hnone =>
    constructor
    · intro howned
      refine ⟨?_,howned⟩
      rintro rfl
      rw [(h dispatcher).mpr howned] at hnone
      cases hnone
    · exact fun howned => howned.2
  · next owner howner =>
    obtain ⟨set,hset,hmem⟩ := (h owner).mp howner
    have honly : ∀ dispatcher owned, r.dispatcherRuns.lookup dispatcher = some owned → id ∈ owned → dispatcher = owner := by
      intro dispatcher owned hlookup howned
      have hsome := (h dispatcher).mpr ⟨owned,hlookup,howned⟩
      rw [howner] at hsome
      exact (Option.some.inj hsome).symm
    simp only [hset]
    split
    · next hempty =>
      simp only [lookup_erase_ite]
      have hset_only : ∀ other ∈ set, other = id := by
        intro other hother
        by_contra hne
        have hin : other ∈ set.erase id := Finset.mem_erase.mpr ⟨hne,hother⟩
        rw [hempty] at hin
        cases hin
      grind
    · simp only [lookup_insert_ite]
      grind

theorem expire_eq (hid : (r.heap run).runId = id) (hnone : r.tombstones.lookup id = none) :
    r.expire run = { r with
      runs := r.runs.erase id
      activeRuns := r.activeRuns.erase id
      dispatcherRuns := (r.unlink id).1
      runDispatchers := (r.unlink id).2
      terminalOrder := removeValue r.terminalOrder id
      completedRuns := removeValue r.completedRuns run
      tombstones := (Registry.displace r.tombstoneLimit (r.tombstoneOrder ++ [id])
        (r.tombstones.insert id (r.heap run).sessionId)).2
      tombstoneOrder := (Registry.displace r.tombstoneLimit (r.tombstoneOrder ++ [id])
        (r.tombstones.insert id (r.heap run).sessionId)).1 } := by
  subst hid
  simp [Registry.expire,Registry.addTombstone,hnone]

/-- Completed runs have different ids. -/
theorem runId_injective (h : Tables r) {k : Nat} (hk : k ∈ r.completedRuns) (hrun : r.runs.lookup id = some run) :
    (r.heap k).runId = id ↔ k = run := by
  constructor
  · intro hid
    have hlookup := ((h.completed k).mp hk).1
    rw [hid,hrun] at hlookup
    exact (Option.some.inj hlookup).symm
  · rintro rfl
    exact (h.known id k hrun).2

theorem order_nodup (h : Tables r) : r.terminalOrder.Nodup := by
  rw [h.order]
  apply h.completedOnce.map_on
  intro a ha b hb heq
  have hlookup := ((h.completed b).mp hb).1
  rw [← heq] at hlookup
  exact (h.runId_injective ha hlookup).mp rfl

theorem removeValue_order (h : Tables r) (hrun : r.runs.lookup id = some run) :
    removeValue r.terminalOrder id = (removeValue r.completedRuns run).map fun run => (r.heap run).runId := by
  rw [removeValue_eq h.order_nodup,removeValue_eq h.completedOnce,h.order,List.filter_map]
  congr 1
  apply List.filter_congr
  intro k hk
  simp only [Function.comp_apply,ne_eq,h.runId_injective hk hrun]

theorem expire (h : Tables r) (hrun : r.runs.lookup id = some run) : Tables (r.expire run) := by
  obtain ⟨hlt,hid⟩ := h.known id run hrun
  have hnone := h.disjoint id run hrun
  have hrest : ∀ other k, (r.runs.erase id).lookup other = some k ↔ other ≠ id ∧ r.runs.lookup other = some k := by
    intro other k
    rw [lookup_erase_ite]
    grind
  obtain ⟨hstones,hfew,hkept⟩ := @Stones.displace r.tombstoneLimit _ _ (h.stones.push hnone (r.heap run).sessionId)
  rw [expire_eq hid hnone]
  constructor
  · intro other k hother
    exact h.known other k ((hrest other k).mp hother).2
  · intro other k
    rw [hrest,lookup_erase_ite]
    have hactive := h.active other k
    grind
  · dsimp only
    rw [removeValue_eq h.completedOnce]
    exact h.completedOnce.filter _
  · intro k
    dsimp only
    rw [removeValue_eq h.completedOnce,List.mem_filter,hrest,h.completed k]
    have hinj := fun hk => @runId_injective _ _ _ h k hk hrun
    rw [h.completed k] at hinj
    grind
  · exact h.removeValue_order hrun
  · intro other k hother
    obtain ⟨hne,hlookup⟩ := (hrest other k).mp hother
    apply hkept
    rw [lookup_insert_ite,if_neg hne]
    exact h.disjoint other k hlookup
  · exact hstones
  · exact hfew
  · intro other dispatcher
    dsimp only
    rw [unlink_owned (h.dispatchers id),lookup_unlink]
    have hdispatchers := h.dispatchers other dispatcher
    grind
  · intro other dispatcher hother
    dsimp only at hother ⊢
    rw [lookup_unlink] at hother
    split at hother
    · cases hother
    · next hne =>
      obtain ⟨k,hk⟩ := h.dispatched other dispatcher hother
      exact ⟨k,(hrest other k).mpr ⟨hne,hk⟩⟩

/-- Runs have gone, and all that is said of the others stays. -/
structure Expired (r r' : Registry) : Prop where
  heap : r'.heap = r.heap
  registered : r'.registered = r.registered
  limits : r'.terminalLimit = r.terminalLimit ∧ r'.tombstoneLimit = r.tombstoneLimit
  waiterRuns : r'.waiterRuns = r.waiterRuns
  runs : ∀ id k, r'.runs.lookup id = some k → r.runs.lookup id = some k

theorem Expired.refl (r : Registry) : Expired r r :=
  ⟨rfl,rfl,⟨rfl,rfl⟩,rfl,fun _ _ h => h⟩

theorem Expired.trans {r' r'' : Registry} (h : Expired r r') (h' : Expired r' r'') : Expired r r'' := by
  constructor
  · exact h'.heap.trans h.heap
  · exact h'.registered.trans h.registered
  · exact ⟨h'.limits.1.trans h.limits.1,h'.limits.2.trans h.limits.2⟩
  · exact h'.waiterRuns.trans h.waiterRuns
  · intro id k hk
    exact h.runs id k (h'.runs id k hk)

theorem expired_expire (h : Tables r) (hrun : r.runs.lookup id = some run) : Expired r (r.expire run) := by
  rw [expire_eq (h.known id run hrun).2 (h.disjoint id run hrun)]
  refine ⟨rfl,rfl,⟨rfl,rfl⟩,rfl,?_⟩
  intro other k hk
  change (r.runs.erase id).lookup other = some k at hk
  rw [lookup_erase_ite] at hk
  grind

theorem activeRuns_expire (h : Tables r) (hrun : r.runs.lookup id = some run) (other : String) :
    (r.expire run).activeRuns.lookup other = if other = id then none else r.activeRuns.lookup other := by
  rw [expire_eq (h.known id run hrun).2 (h.disjoint id run hrun)]
  exact lookup_erase_ite _ _ _

theorem completedRuns_expire (h : Tables r) (hrun : r.runs.lookup id = some run) :
    (r.expire run).completedRuns = r.completedRuns.filter (· ≠ run) := by
  rw [expire_eq (h.known id run hrun).2 (h.disjoint id run hrun),← removeValue_eq h.completedOnce]

/-- A terminal run is not among the active ones. -/
theorem activeRuns_expire_terminal (h : Tables r) (hrun : r.runs.lookup id = some run)
    (hphase : (r.heap run).phase = .terminal) (other : String) :
    (r.expire run).activeRuns.lookup other = r.activeRuns.lookup other := by
  rw [h.activeRuns_expire hrun]
  split
  · next heq =>
    subst heq
    cases hactive : r.activeRuns.lookup other with
    | none => rfl
    | some k =>
      obtain ⟨hk,hnot⟩ := (h.active other k).mp hactive
      rw [hrun] at hk
      cases hk
      exact absurd hphase hnot
  · rfl

/-- Completed runs that go one after the other. -/
theorem expireAll (h : Tables r) {ks : List Nat} (hks : ∀ k ∈ ks, k ∈ r.completedRuns) (hnodup : ks.Nodup) :
    Tables (ks.foldl Registry.expire r) ∧ Expired r (ks.foldl Registry.expire r) ∧
      (∀ id, (ks.foldl Registry.expire r).activeRuns.lookup id = r.activeRuns.lookup id) ∧
      (ks.foldl Registry.expire r).completedRuns = r.completedRuns.filter (· ∉ ks) := by
  induction ks generalizing r with
  | nil => exact ⟨h,Expired.refl r,fun _ => rfl,by simp⟩
  | cons k rest ih =>
    obtain ⟨hk,hrest⟩ := List.forall_mem_cons.mp hks
    obtain ⟨hnot,hnodup⟩ := List.nodup_cons.mp hnodup
    obtain ⟨hlookup,hphase⟩ := (h.completed k).mp hk
    have hcompleted := h.completedRuns_expire hlookup
    have hstill : ∀ other ∈ rest, other ∈ (r.expire k).completedRuns := by
      intro other hother
      have hne : other ≠ k := by
        rintro rfl
        exact hnot hother
      rw [hcompleted,List.mem_filter]
      exact ⟨hrest other hother,by simpa using hne⟩
    obtain ⟨htables,hexpired,hactive,hfilter⟩ := ih (h.expire hlookup) hstill hnodup
    refine ⟨htables,(h.expired_expire hlookup).trans hexpired,fun id => ?_,?_⟩
    · exact (hactive id).trans (h.activeRuns_expire_terminal hlookup hphase id)
    · rw [List.foldl_cons,hfilter,hcompleted,List.filter_filter]
      apply List.filter_congr
      intro other _
      simp only [List.mem_cons,not_or,Bool.decide_and,Bool.and_comm]

theorem terminalRuns_eq (h : Tables r) (sessionId : String) :
    r.terminalRuns sessionId = r.completedRuns.filter fun run => (r.heap run).sessionId = sessionId := by
  rw [Registry.terminalRuns,h.order,List.filterMap_map,← List.filterMap_eq_filter]
  apply List.filterMap_congr
  intro k hk
  obtain ⟨hlookup,hphase⟩ := (h.completed k).mp hk
  simp [hlookup,hphase,Option.guard,Option.filter]

end Tables

/-- No session retains more terminal runs than it may. -/
def Limited (r : Registry) : Prop :=
  ∀ sessionId, (r.completedRuns.filter fun run => (r.heap run).sessionId = sessionId).length ≤ r.terminalLimit

theorem Tables.enforce {r : Registry} (h : Tables r) (sessionId : String)
    (hother : ∀ other, other ≠ sessionId →
      (r.completedRuns.filter fun run => (r.heap run).sessionId = other).length ≤ r.terminalLimit) :
    Tables (r.enforceTerminalLimit sessionId) ∧ Limited (r.enforceTerminalLimit sessionId) ∧
      Tables.Expired r (r.enforceTerminalLimit sessionId) ∧
      ∀ id, (r.enforceTerminalLimit sessionId).activeRuns.lookup id = r.activeRuns.lookup id := by
  have howned := h.terminalRuns_eq sessionId
  have hnodup : (r.terminalRuns sessionId).Nodup := by
    rw [howned]
    exact h.completedOnce.filter _
  let expired := (r.terminalRuns sessionId).take ((r.terminalRuns sessionId).length - r.terminalLimit)
  have hexpired : ∀ k ∈ expired, k ∈ r.completedRuns := by
    intro k hk
    have hmem := List.mem_of_mem_take hk
    rw [howned] at hmem
    exact List.mem_of_mem_filter hmem
  obtain ⟨htables,hkept,hactive,hcompleted⟩ := h.expireAll hexpired (hnodup.sublist (List.take_sublist _ _))
  refine ⟨htables,fun other => ?_,hkept,hactive⟩
  have hthere : r.enforceTerminalLimit sessionId = expired.foldl Registry.expire r := rfl
  rw [hthere,hkept.heap,hkept.limits.1,hcompleted,List.filter_filter]
  by_cases heq : other = sessionId
  · subst heq
    have hdrop : (r.completedRuns.filter fun run => decide ((r.heap run).sessionId = other) && decide (run ∉ expired)) =
        (r.terminalRuns other).drop ((r.terminalRuns other).length - r.terminalLimit) := by
      rw [← filter_not_mem_take hnodup,howned,List.filter_filter,← howned]
      apply List.filter_congr
      intro k _
      exact Bool.and_comm _ _
    rw [hdrop,List.length_drop]
    omega
  · apply le_trans _ (hother other heq)
    rw [← List.filter_filter]
    exact (List.Sublist.filter _ List.filter_sublist).length_le

end Nefor.LeadWorkflow
