import Mathlib.Data.List.Perm.Subperm
import Mathlib.Data.List.Sort
import Nefor.Mag.Types

/-! Which sources cover an input, and which component of a product each of them supplies
(`types.rs`). -/
namespace Nefor.Mag
namespace ConcreteType

mutual
def accepts (self actual : ConcreteType) : Bool :=
  decide (self = actual) || match self, actual with
  | .list expected, .list actual => accepts expected actual
  | .set expected, .set actual => accepts expected actual
  | .map expectedKey expectedValue, .map actualKey actualValue =>
    accepts expectedKey actualKey && accepts expectedValue actualValue
  | .product expected, .product actual =>
    decide (expected.length = actual.length) && acceptsAll expected actual
  | _, _ => false
def acceptsAll : List ConcreteType → List ConcreteType → Bool
  | expected :: rest, actual :: others => accepts expected actual && acceptsAll rest others
  | _, _ => true
end

mutual
def acceptsEdgeSource (self actual : ConcreteType) : Bool :=
  accepts self actual || match self with
  | .product items => anyAcceptsEdgeSource items actual
  | _ => false
def anyAcceptsEdgeSource : List ConcreteType → ConcreteType → Bool
  | [], _ => false
  | item :: rest, actual => acceptsEdgeSource item actual || anyAcceptsEdgeSource rest actual
end

theorem acceptsAll_iff {expected actual : List ConcreteType}
    (h : ∀ e ∈ expected, ∀ a, accepts e a = true ↔ e = a) (hl : expected.length = actual.length) :
    acceptsAll expected actual = true ↔ expected = actual := by
  induction expected generalizing actual with
  | nil =>
    rw [List.length_eq_zero_iff.mp hl.symm]
    simp [acceptsAll]
  | cons e rest ih =>
    obtain ⟨he,hrest⟩ := List.forall_mem_cons.mp h
    cases actual with
    | nil => cases hl
    | cons a others =>
      rw [acceptsAll,Bool.and_eq_true,he a,ih hrest (Nat.succ.inj hl),List.cons.injEq]

/-- What is accepted is the descriptor itself. -/
theorem accepts_iff_eq (self actual : ConcreteType) : accepts self actual = true ↔ self = actual := by
  induction self generalizing actual with
  | list item ih =>
    cases actual <;> simp [accepts,ih]
  | set item ih =>
    cases actual <;> simp [accepts,ih]
  | map key value ihk ihv =>
    cases actual <;> simp [accepts,ihk,ihv]
  | product items ih =>
    cases actual with
    | product others =>
      rw [accepts,Bool.or_eq_true,decide_eq_true_iff,Bool.and_eq_true,decide_eq_true_iff]
      constructor
      · rintro (h | ⟨hl,h⟩)
        · exact h
        · rw [(acceptsAll_iff ih hl).mp h]
      · exact .inl
    | _ => simp [accepts]
  | _ => cases actual <;> simp [accepts]

end ConcreteType
open ConcreteType

inductive InputAssignmentError
  | incompleteCoverage
  | ambiguousCoverage
  deriving DecidableEq, Repr

section
variable (le : ConcreteType → ConcreteType → Bool)

/-! The search. `le` is the order in which a map walks through its keys. -/

/-- A map from components to how many of their occurrences are left: its keys, and their values. -/
structure Capacities where
  components : List ConcreteType
  remaining : ConcreteType → Nat

namespace Capacities

def empty : Capacities := ⟨[],fun _ => 0⟩

/-- `*entry(item).or_default() += 1`. -/
def add (capacities : Capacities) (item : ConcreteType) : Capacities where
  components :=
    if item ∈ capacities.components then capacities.components
    else capacities.components.orderedInsert (fun a b => le a b) item
  remaining := Function.update capacities.remaining item (capacities.remaining item + 1)

def ofItems (items : List ConcreteType) : Capacities := items.foldl (add le) empty

def take (capacities : Capacities) (component : ConcreteType) : Capacities :=
  { capacities with
    remaining := Function.update capacities.remaining component (capacities.remaining component - 1) }

def candidates (capacities : Capacities) (source : ConcreteType) : List ConcreteType :=
  capacities.components.filter fun c => 0 < capacities.remaining c && accepts c source

end Capacities

/-- The assignments found, each of them once. The search is over when there are two. -/
abbrev Assignments := List (List ConcreteType)

def collectComponentAssignments :
    List ConcreteType → Capacities → List ConcreteType → Assignments → Assignments
  | [], _, current, assignments =>
    if 1 < assignments.length ∨ current ∈ assignments then assignments else assignments ++ [current]
  | source :: rest, capacities, current, assignments =>
    if 1 < assignments.length then assignments
    else (capacities.candidates source).foldl (fun assignments component =>
      collectComponentAssignments rest (capacities.take component) (current ++ [component]) assignments)
      assignments

/-! The positions. -/

/-- The positions of each component, in their order, from a position on. -/
def positionsFrom : Nat → List ConcreteType → ConcreteType → List Nat
  | _, [], _ => []
  | position, item :: rest, component =>
    if item = component then position :: positionsFrom (position + 1) rest component
    else positionsFrom (position + 1) rest component

/-- The loop that gives each source the next position of its component. -/
def placeComponents : List (Nat × ConcreteType) → (ConcreteType → List Nat) → List (Option Nat) →
    Except InputAssignmentError (List (Option Nat))
  | [], _, result => .ok result
  | (index,component) :: rest, positions, result =>
    match positions component with
    | [] => .error .incompleteCoverage
    | position :: more =>
      placeComponents rest (Function.update positions component more) (result.set index (some position))

/-- The sources that are not the whole product, and their indices from an index on. -/
def componentSources (target : ConcreteType) : Nat → List ConcreteType → List (Nat × ConcreteType)
  | _, [] => []
  | index, source :: rest =>
    if accepts target source then componentSources target (index + 1) rest
    else (index,source) :: componentSources target (index + 1) rest

def assignInputSources (target : ConcreteType) (sources : List ConcreteType) :
    Except InputAssignmentError (List (Option Nat)) :=
  match target with
  | .product items =>
    let components := componentSources target 0 sources
    if components = [] then
      if sources.all (accepts target) then .ok (List.replicate sources.length none)
      else .error .incompleteCoverage
    else if components.length ≠ items.length then .error .incompleteCoverage
    else
      match collectComponentAssignments (components.map (·.2)) (.ofItems le items) [] [] with
      | [] => .error .incompleteCoverage
      | [assignment] =>
        placeComponents ((components.map (·.1)).zip assignment) (positionsFrom 0 items)
          (List.replicate sources.length none)
      | _ :: _ :: _ => .error .ambiguousCoverage
  | _ =>
    if sources ≠ [] ∧ sources.all (acceptsEdgeSource target) then .ok (List.replicate sources.length none)
    else .error .incompleteCoverage

end

/-! What the search finds. -/

/-- Each source is given a component that accepts it, and no component is given away more often
than it occurs. -/
structure ValidAssignment (capacity : ConcreteType → Nat) (sources assignment : List ConcreteType) : Prop where
  accepted : List.Forall₂ (fun c s => accepts c s = true) assignment sources
  within : ∀ c, assignment.count c ≤ capacity c

section
variable {le : ConcreteType → ConcreteType → Bool}

/-- The keys of a map are there. -/
def Capacities.Keyed (capacities : Capacities) : Prop :=
  ∀ c, 0 < capacities.remaining c → c ∈ capacities.components

theorem Capacities.Keyed.take {capacities : Capacities} (h : capacities.Keyed) (component : ConcreteType) :
    (capacities.take component).Keyed := by
  intro c hc
  apply h
  by_cases he : c = component
  · subst he
    simp only [Capacities.take,Function.update_self] at hc
    omega
  · simpa [Capacities.take,he] using hc

theorem ofItems_spec (le : ConcreteType → ConcreteType → Bool) (items : List ConcreteType) :
    (Capacities.ofItems le items).Keyed ∧ (Capacities.ofItems le items).remaining = fun c => items.count c := by
  have hgo : ∀ (items : List ConcreteType) (capacities : Capacities), capacities.Keyed →
      (items.foldl (Capacities.add le) capacities).Keyed ∧
      (items.foldl (Capacities.add le) capacities).remaining =
        fun c => capacities.remaining c + items.count c := by
    intro items
    induction items with
    | nil =>
      intro capacities h
      exact ⟨h,by simp⟩
    | cons item rest ih =>
      intro capacities h
      have hk : (capacities.add le item).Keyed := by
        intro c hc
        by_cases he : c = item
        · subst he
          simp only [Capacities.add]
          split
          · assumption
          · exact (List.mem_orderedInsert _).mpr (.inl rfl)
        · have hmem := h c (by simpa [Capacities.add,he] using hc)
          simp only [Capacities.add]
          split
          · exact hmem
          · exact (List.mem_orderedInsert _).mpr (.inr hmem)
      obtain ⟨h1,h2⟩ := ih _ hk
      refine ⟨h1,?_⟩
      rw [List.foldl_cons,h2]
      funext c
      by_cases he : c = item
      · subst he
        simp [Capacities.add]
        omega
      · simp [Capacities.add,he,Ne.symm he]
  have h := hgo items .empty fun c hc => by simp [Capacities.empty] at hc
  simpa [Capacities.ofItems,Capacities.empty] using h

theorem ValidAssignment.cons_iff {capacities : Capacities} (hk : capacities.Keyed)
    {source : ConcreteType} {rest assignment : List ConcreteType} :
    ValidAssignment capacities.remaining (source :: rest) assignment ↔
      ∃ c ∈ capacities.candidates source, ∃ more, assignment = c :: more ∧
        ValidAssignment (capacities.take c).remaining rest more := by
  constructor
  · rintro ⟨hacc,hin⟩
    cases hacc with
    | cons hc hrest =>
      rename_i c more
      have hpos : 0 < capacities.remaining c := by
        have := hin c
        rw [List.count_cons_self] at this
        omega
      refine ⟨c,?_,more,rfl,hrest,?_⟩
      · exact List.mem_filter.mpr ⟨hk c hpos,by simp [hpos,hc]⟩
      · intro d
        have := hin d
        by_cases he : d = c
        · subst he
          rw [List.count_cons_self] at this
          simp only [Capacities.take,Function.update_self]
          omega
        · rw [List.count_cons_of_ne (Ne.symm he)] at this
          simpa [Capacities.take,he] using this
  · rintro ⟨c,hc,more,rfl,hacc,hin⟩
    obtain ⟨hpos,hc⟩ := by simpa [Capacities.candidates] using (List.mem_filter.mp hc).2
    refine ⟨.cons hc hacc,?_⟩
    intro d
    have := hin d
    by_cases he : d = c
    · subst he
      simp only [Capacities.take,Function.update_self] at this
      rw [List.count_cons_self]
      omega
    · rw [List.count_cons_of_ne (Ne.symm he)]
      simpa [Capacities.take,he] using this

/-- A search adds only good assignments, and all of them unless it has found two. -/
structure Extends (good : List ConcreteType → Prop) (before after : Assignments) : Prop where
  isPrefix : before <+: after
  sound : ∀ a ∈ after, a ∈ before ∨ good a
  nodup : before.Nodup → after.Nodup
  complete : after.length ≤ 1 → ∀ a, good a → a ∈ after

namespace Extends
variable {good other : List ConcreteType → Prop} {as bs cs : Assignments}

theorem refl (h : ∀ a, good a → as.length ≤ 1 → a ∈ as) : Extends good as as :=
  ⟨List.prefix_rfl,fun _ ha => .inl ha,id,fun hl a ha => h a ha hl⟩

theorem mono (h : Extends good as bs) (he : ∀ a, good a ↔ other a) : Extends other as bs :=
  ⟨h.isPrefix,fun a ha => (h.sound a ha).imp_right (he a).mp,h.nodup,
    fun hl a ha => h.complete hl a ((he a).mpr ha)⟩

theorem trans (h : Extends good as bs) (k : Extends other bs cs) :
    Extends (fun a => good a ∨ other a) as cs := by
  refine ⟨h.isPrefix.trans k.isPrefix,?_,fun hn => k.nodup (h.nodup hn),?_⟩
  · intro a ha
    obtain hb | ho := k.sound a ha
    · exact (h.sound a hb).imp_right .inl
    · exact .inr (.inr ho)
  · intro hl a ha
    obtain hg | ho := ha
    · exact k.isPrefix.subset (h.complete (k.isPrefix.length_le.trans hl) a hg)
    · exact k.complete hl a ho

theorem foldl {step : Assignments → ConcreteType → Assignments}
    {good : ConcreteType → List ConcreteType → Prop} (candidates : List ConcreteType)
    (h : ∀ c ∈ candidates, ∀ as, Extends (good c) as (step as c)) (as : Assignments) :
    Extends (fun a => ∃ c ∈ candidates, good c a) as (candidates.foldl step as) := by
  induction candidates generalizing as with
  | nil => exact refl fun a ha => by simp at ha
  | cons c rest ih =>
    obtain ⟨hc,hrest⟩ := List.forall_mem_cons.mp h
    apply ((hc as).trans (ih hrest (step as c))).mono
    intro a
    simp

end Extends

theorem collect_extends (sources : List ConcreteType) {capacities : Capacities} (hk : capacities.Keyed)
    (current : List ConcreteType) (assignments : Assignments) :
    Extends (fun a => ∃ v, a = current ++ v ∧ ValidAssignment capacities.remaining sources v) assignments
      (collectComponentAssignments sources capacities current assignments) := by
  induction sources generalizing capacities current assignments with
  | nil =>
    have hgood : ∀ a, (∃ v, a = current ++ v ∧ ValidAssignment capacities.remaining [] v) ↔ a = current := by
      intro a
      constructor
      · rintro ⟨v,rfl,hv⟩
        cases hv.accepted
        exact List.append_nil _
      · rintro rfl
        exact ⟨[],(List.append_nil _).symm,.nil,fun _ => Nat.zero_le _⟩
    rw [collectComponentAssignments]
    split
    · rename_i hstop
      apply Extends.refl
      intro a ha hl
      obtain hlt | hmem := hstop
      · omega
      · rwa [(hgood a).mp ha]
    · rename_i hgo
      obtain ⟨-,hnew⟩ := not_or.mp hgo
      refine ⟨List.prefix_append _ _,?_,?_,?_⟩
      · intro a ha
        obtain hmem | hmem := List.mem_append.mp ha
        · exact .inl hmem
        · exact .inr ((hgood a).mpr (List.mem_singleton.mp hmem))
      · intro hn
        exact List.nodup_append.mpr ⟨hn,List.nodup_singleton _,by
          intro a ha b hb he
          rw [List.mem_singleton.mp hb] at he
          exact hnew (he ▸ ha)⟩
      · intro _ a ha
        rw [(hgood a).mp ha]
        exact List.mem_append_right _ List.mem_cons_self
  | cons source rest ih =>
    rw [collectComponentAssignments]
    split
    · apply Extends.refl
      intro a _ hl
      omega
    · apply (Extends.foldl (capacities.candidates source) (fun c _ as =>
        ih (hk.take c) (current ++ [c]) as) assignments).mono
      intro a
      constructor
      · rintro ⟨c,hc,v,rfl,hv⟩
        exact ⟨c :: v,by simp,(ValidAssignment.cons_iff hk).mpr ⟨c,hc,v,rfl,hv⟩⟩
      · rintro ⟨v,rfl,hv⟩
        obtain ⟨c,hc,more,rfl,hmore⟩ := (ValidAssignment.cons_iff hk).mp hv
        exact ⟨c,hc,more,by simp,hmore⟩

/-- The search finds valid assignments, each once, and every one of them unless it finds two. -/
theorem collect_spec (le : ConcreteType → ConcreteType → Bool) (items sources : List ConcreteType) :
    (∀ v ∈ collectComponentAssignments sources (.ofItems le items) [] [],
      ValidAssignment (fun c => items.count c) sources v) ∧
    (collectComponentAssignments sources (.ofItems le items) [] []).Nodup ∧
    ((collectComponentAssignments sources (.ofItems le items) [] []).length ≤ 1 →
      ∀ v, ValidAssignment (fun c => items.count c) sources v →
        v ∈ collectComponentAssignments sources (.ofItems le items) [] []) := by
  obtain ⟨hk,hr⟩ := ofItems_spec le items
  have h := collect_extends sources hk [] []
  simp only [List.nil_append,exists_eq_left',hr] at h
  exact ⟨fun v hv => (h.sound v hv).resolve_left List.not_mem_nil,h.nodup List.nodup_nil,h.complete⟩

/-! Placing. -/

/-- The positions the sources get, one after the other. -/
def queue : List ConcreteType → (ConcreteType → List Nat) → List Nat
  | [], _ => []
  | component :: rest, positions =>
    match positions component with
    | [] => []
    | position :: more => position :: queue rest (Function.update positions component more)

/-- A position for each source that is not the whole product. -/
def spread (target : ConcreteType) : List ConcreteType → List Nat → List (Option Nat)
  | [], _ => []
  | source :: rest, positions =>
    if accepts target source then none :: spread target rest positions
    else positions.head? :: spread target rest positions.tail

theorem placeComponents_eq (target : ConcreteType) {sources : List ConcreteType}
    (assignment : List ConcreteType) (positions : ConcreteType → List Nat) (before : List (Option Nat))
    (hl : assignment.length = (componentSources target before.length sources).length)
    (hc : ∀ c, assignment.count c ≤ (positions c).length) :
    placeComponents (((componentSources target before.length sources).map (·.1)).zip assignment) positions
      (before ++ List.replicate sources.length none) =
      .ok (before ++ spread target sources (queue assignment positions)) := by
  induction sources generalizing before assignment positions with
  | nil => simp [componentSources,placeComponents,spread]
  | cons source rest ih =>
    have hlen : ∀ o : Option Nat, (before ++ [o]).length = before.length + 1 := by
      intro o
      simp
    by_cases hw : accepts target source = true
    · have hgo := ih assignment positions (before ++ [none])
      rw [componentSources,if_pos hw] at hl ⊢
      rw [hlen] at hgo
      rw [spread,if_pos hw,List.length_cons,List.replicate_succ,
        List.append_cons before none (List.replicate _ _),List.append_cons before none (spread _ _ _)]
      exact hgo hl hc
    · rw [componentSources,if_neg hw] at hl ⊢
      cases assignment with
      | nil => cases hl
      | cons component more =>
        cases hp : positions component with
        | nil =>
          have := hc component
          rw [List.count_cons_self,hp] at this
          simp at this
        | cons position others =>
          have hgo := ih more (Function.update positions component others) (before ++ [some position])
          rw [hlen] at hgo
          have hset : (before ++ none :: List.replicate rest.length none).set before.length (some position) =
              before ++ [some position] ++ List.replicate rest.length none := by
            rw [List.set_append_right _ _ le_rfl,Nat.sub_self,List.set_cons_zero,List.append_cons]
          rw [List.map_cons,List.zip_cons_cons,placeComponents,hp,spread,if_neg hw,queue,hp,List.length_cons,
            List.replicate_succ]
          simp only [hset,List.head?_cons,List.tail_cons]
          rw [List.append_cons before (some position) (spread _ _ _)]
          apply hgo (Nat.succ.inj hl)
          intro c
          have := hc c
          by_cases he : c = component
          · subst he
            rw [List.count_cons_self,hp,List.length_cons] at this
            rw [Function.update_self]
            omega
          · rw [List.count_cons_of_ne (Ne.symm he)] at this
            rwa [Function.update_of_ne he]

/-- Queues of increasing positions, none of them in two queues. -/
structure Queues (positions : ConcreteType → List Nat) : Prop where
  sorted : ∀ c, (positions c).Pairwise (· < ·)
  disjoint : ∀ c d p, p ∈ positions c → p ∈ positions d → c = d

theorem Queues.pop {positions : ConcreteType → List Nat} (h : Queues positions) {component : ConcreteType}
    {position : Nat} {more : List Nat} (hp : positions component = position :: more) :
    Queues (Function.update positions component more) ∧
      ∀ c, ∀ p ∈ Function.update positions component more c,
        p ∈ positions c ∧ (component = c → position < p) := by
  have hs := h.sorted component
  rw [hp] at hs
  obtain ⟨hlt,hmore⟩ := List.pairwise_cons.mp hs
  have hmem : ∀ c, ∀ p ∈ Function.update positions component more c,
      p ∈ positions c ∧ (component = c → position < p) := by
    intro c p hpc
    by_cases he : c = component
    · subst he
      rw [Function.update_self] at hpc
      exact ⟨hp ▸ List.mem_cons_of_mem _ hpc,fun _ => hlt p hpc⟩
    · rw [Function.update_of_ne he] at hpc
      exact ⟨hpc,fun hc => absurd hc.symm he⟩
  refine ⟨⟨?_,?_⟩,hmem⟩
  · intro c
    by_cases he : c = component
    · subst he
      rwa [Function.update_self]
    · rw [Function.update_of_ne he]
      exact h.sorted c
  · intro c d p hc hd
    exact h.disjoint c d p (hmem c p hc).1 (hmem d p hd).1

theorem queue_spec {assignment : List ConcreteType} {positions : ConcreteType → List Nat}
    (h : Queues positions) (hc : ∀ c, assignment.count c ≤ (positions c).length) :
    List.Forall₂ (fun c p => p ∈ positions c) assignment (queue assignment positions) ∧
      (assignment.zip (queue assignment positions)).Pairwise fun x y => x.1 = y.1 → x.2 < y.2 := by
  induction assignment generalizing positions with
  | nil => exact ⟨.nil,.nil⟩
  | cons component rest ih =>
    cases hp : positions component with
    | nil =>
      have := hc component
      rw [List.count_cons_self,hp] at this
      simp at this
    | cons position more =>
      obtain ⟨hq,hmem⟩ := h.pop hp
      have hcount : ∀ c, rest.count c ≤ (Function.update positions component more c).length := by
        intro c
        have := hc c
        by_cases he : c = component
        · subst he
          rw [List.count_cons_self,hp,List.length_cons] at this
          rw [Function.update_self]
          omega
        · rw [List.count_cons_of_ne (Ne.symm he)] at this
          rwa [Function.update_of_ne he]
      obtain ⟨hf,hw⟩ := ih hq hcount
      rw [queue,hp]
      refine ⟨.cons (hp ▸ List.mem_cons_self) (hf.imp fun c p hpc => (hmem c p hpc).1),?_⟩
      refine List.pairwise_cons.mpr ⟨?_,hw⟩
      rintro ⟨c,p⟩ hcp he
      exact (hmem c p (List.forall₂_zip hf hcp)).2 he

theorem mem_positionsFrom {first : Nat} {items : List ConcreteType} {component : ConcreteType} {p : Nat} :
    p ∈ positionsFrom first items component ↔ first ≤ p ∧ items[p - first]? = some component := by
  induction items generalizing first with
  | nil => simp [positionsFrom]
  | cons item rest ih =>
    have hnext : first < p → (item :: rest)[p - first]? = rest[p - (first + 1)]? := by
      intro hlt
      rw [show p - first = p - (first + 1) + 1 by omega,List.getElem?_cons_succ]
    rw [positionsFrom]
    split
    · rename_i he
      subst he
      rw [List.mem_cons,ih]
      constructor
      · rintro (rfl | ⟨hle,hp⟩)
        · simp
        · exact ⟨by omega,by rw [hnext (by omega)]; exact hp⟩
      · rintro ⟨hle,hp⟩
        obtain rfl | hlt := Nat.eq_or_lt_of_le hle
        · exact .inl rfl
        · rw [hnext hlt] at hp
          exact .inr ⟨hlt,hp⟩
    · rename_i hne
      rw [ih]
      constructor
      · rintro ⟨hle,hp⟩
        exact ⟨by omega,by rw [hnext (by omega)]; exact hp⟩
      · rintro ⟨hle,hp⟩
        obtain rfl | hlt := Nat.eq_or_lt_of_le hle
        · simp [hne] at hp
        · rw [hnext hlt] at hp
          exact ⟨hlt,hp⟩

theorem positionsFrom_queues (first : Nat) (items : List ConcreteType) : Queues (positionsFrom first items) := by
  constructor
  · intro c
    induction items generalizing first with
    | nil => exact List.Pairwise.nil
    | cons item rest ih =>
      rw [positionsFrom]
      split
      · refine List.pairwise_cons.mpr ⟨?_,ih (first + 1)⟩
        intro p hp
        have := (mem_positionsFrom.mp hp).1
        omega
      · exact ih (first + 1)
  · intro c d p hc hd
    have hcp := (mem_positionsFrom.mp hc).2
    rw [(mem_positionsFrom.mp hd).2] at hcp
    exact (Option.some.inj hcp).symm

theorem length_positionsFrom (first : Nat) (items : List ConcreteType) (c : ConcreteType) :
    (positionsFrom first items c).length = items.count c := by
  induction items generalizing first with
  | nil => rfl
  | cons item rest ih =>
    rw [positionsFrom]
    split
    · rename_i he
      rw [he,List.length_cons,ih,List.count_cons_self]
    · rename_i hne
      rw [ih,List.count_cons_of_ne hne]

/-! What is returned. -/

/-- The sources that are not the whole product. -/
def parts (target : ConcreteType) (sources : List ConcreteType) : List ConcreteType :=
  sources.filter fun s => !accepts target s

theorem map_componentSources (target : ConcreteType) (index : Nat) (sources : List ConcreteType) :
    (componentSources target index sources).map (·.2) = parts target sources := by
  induction sources generalizing index with
  | nil => rfl
  | cons source rest ih =>
    rw [componentSources,parts,List.filter_cons]
    split
    · rename_i hw
      rw [if_neg (by simp [hw]),ih]
      rfl
    · rename_i hw
      rw [if_pos (by simp [hw]),List.map_cons,ih]
      rfl

/-- The sources are put one to one on the positions of a product, each on a component that
accepts it. -/
def Matched (items sources : List ConcreteType) : Prop :=
  ∃ positions : List Nat, positions.Perm (List.range items.length) ∧
    List.Forall₂ (fun s p => ∃ item, items[p]? = some item ∧ accepts item s = true) sources positions

/-- The sources supply the whole of an input. -/
def Covered (target : ConcreteType) (sources : List ConcreteType) : Prop :=
  match target with
  | .product items => (∀ s ∈ sources, accepts (.product items) s = true) ∨
      Matched items (parts (.product items) sources)
  | target => sources ≠ [] ∧ ∀ s ∈ sources, accepts target s = true

/-- What one source is given: nothing when it is the whole product, else a component that accepts it. -/
def Given (items : List ConcreteType) (source : ConcreteType) : Option Nat → Prop
  | none => accepts (.product items) source = true
  | some p => accepts (.product items) source = false ∧ ∃ item, items[p]? = some item ∧ accepts item source = true

structure Assigned (items sources : List ConcreteType) (result : List (Option Nat)) : Prop where
  each : List.Forall₂ (Given items) sources result
  positions : (∃ s ∈ sources, accepts (.product items) s = false) →
    (result.filterMap id).Perm (List.range items.length)
  ordered : result.Pairwise fun a b => ∀ p ∈ a, ∀ q ∈ b, items[p]? = items[q]? → p < q

theorem spread_spec {items sources : List ConcreteType} {positions : List Nat}
    (h : List.Forall₂ (fun s p => ∃ item, items[p]? = some item ∧ accepts item s = true)
      (parts (.product items) sources) positions) :
    List.Forall₂ (Given items) sources (spread (.product items) sources positions) ∧
      (spread (.product items) sources positions).filterMap id = positions := by
  induction sources generalizing positions with
  | nil =>
    cases h
    exact ⟨.nil,rfl⟩
  | cons source rest ih =>
    rw [parts,List.filter_cons] at h
    rw [spread]
    split
    · rename_i hw
      rw [if_neg (by simp [hw])] at h
      obtain ⟨h1,h2⟩ := ih h
      exact ⟨.cons hw h1,by rw [List.filterMap_cons]; exact h2⟩
    · rename_i hw
      rw [if_pos (by simp [hw])] at h
      cases h with
      | cons hp hrest =>
        obtain ⟨h1,h2⟩ := ih hrest
        exact ⟨.cons ⟨Bool.eq_false_iff.mpr hw,hp⟩ h1,congrArg (List.cons _) h2⟩

/-- A component is accepted by itself alone, so there is one assignment at most. -/
theorem ValidAssignment.eq {capacity : ConcreteType → Nat} {sources assignment : List ConcreteType}
    (h : ValidAssignment capacity sources assignment) : assignment = sources := by
  have hf := h.accepted.imp fun c s hc => (accepts_iff_eq c s).mp hc
  rwa [List.forall₂_eq_eq_eq] at hf

theorem Matched.valid {items sources : List ConcreteType} (h : Matched items sources) :
    ValidAssignment (fun c => items.count c) sources sources := by
  obtain ⟨positions,hp,hf⟩ := h
  refine ⟨?_,?_⟩
  · rw [List.forall₂_same]
    exact fun c _ => (accepts_iff_eq c c).mpr rfl
  · intro c
    have hs : sources.map some = positions.map (items[·]?) := by
      clear hp
      induction hf with
      | nil => rfl
      | cons hsp _ ih =>
        obtain ⟨item,hitem,hacc⟩ := hsp
        rw [List.map_cons,List.map_cons,hitem,(accepts_iff_eq _ _).mp hacc,ih]
    have hi : items.map some = (List.range items.length).map (items[·]?) := by
      apply List.ext_getElem
      · simp
      · intro i h1 h2
        simp at h1
        simp [h1]
    have hperm : (sources.map some).Perm (items.map some) := by
      rw [hs,hi]
      exact hp.map _
    have hcount := hperm.count_eq (some c)
    rw [List.count_map_of_injective _ _ (Option.some_injective _),
      List.count_map_of_injective _ _ (Option.some_injective _)] at hcount
    exact hcount.le

/-- What placing a valid assignment of as many sources as there are items gives. -/
theorem assigned_of_valid {items sources : List ConcreteType}
    (hl : (parts (.product items) sources).length = items.length)
    (hv : ValidAssignment (fun c => items.count c) (parts (.product items) sources)
      (parts (.product items) sources)) :
    Matched items (parts (.product items) sources) ∧
      Assigned items sources (spread (.product items) sources
        (queue (parts (.product items) sources) (positionsFrom 0 items))) := by
  obtain ⟨hf,hw⟩ := queue_spec (positionsFrom_queues 0 items)
    (fun c => (hv.within c).trans_eq (length_positionsFrom 0 items c).symm)
  have hitem : ∀ {c p}, p ∈ positionsFrom 0 items c → items[p]? = some c :=
    fun hp => (mem_positionsFrom.mp hp).2
  have hgiven : List.Forall₂ (fun s p => ∃ item, items[p]? = some item ∧ accepts item s = true)
      (parts (.product items) sources) (queue (parts (.product items) sources) (positionsFrom 0 items)) :=
    hf.imp fun c p hp => ⟨c,hitem hp,(accepts_iff_eq c c).mpr rfl⟩
  -- Two sources at one position would be of one component, whose queue is increasing.
  have hordered : (queue (parts (.product items) sources) (positionsFrom 0 items)).Pairwise
      fun p q => items[p]? = items[q]? → p < q := by
    have hzip : ((parts (.product items) sources).zip
        (queue (parts (.product items) sources) (positionsFrom 0 items))).map (·.2) =
        queue (parts (.product items) sources) (positionsFrom 0 items) :=
      List.map_snd_zip hf.length_eq.ge
    rw [← hzip,List.pairwise_map]
    refine hw.imp_of_mem ?_
    intro x y hx hy hxy he
    have h1 := hitem (List.forall₂_zip hf hx)
    have h2 := hitem (List.forall₂_zip hf hy)
    rw [h1,h2] at he
    exact hxy (Option.some.inj he)
  have hperm : (queue (parts (.product items) sources) (positionsFrom 0 items)).Perm
      (List.range items.length) := by
    have hnodup : (queue (parts (.product items) sources) (positionsFrom 0 items)).Nodup := by
      refine hordered.imp ?_
      rintro p q hpq rfl
      exact lt_irrefl _ (hpq rfl)
    have hsub : queue (parts (.product items) sources) (positionsFrom 0 items) ⊆ List.range items.length := by
      intro p hp
      obtain ⟨i,hi,rfl⟩ := List.getElem_of_mem hp
      obtain ⟨c,hc,-⟩ := (List.forall₂_iff_get.mp hgiven).2 i (by rw [hf.length_eq]; exact hi) hi
      exact List.mem_range.mpr (List.getElem?_eq_some_iff.mp hc).1
    apply (List.subperm_of_subset hnodup hsub).perm_of_length_le
    rw [List.length_range,← hf.length_eq,hl]
  obtain ⟨heach,hsome⟩ := spread_spec hgiven
  refine ⟨⟨_,hperm,hgiven⟩,heach,fun _ => by rw [hsome]; exact hperm,?_⟩
  rw [← hsome,List.pairwise_filterMap] at hordered
  refine hordered.imp ?_
  intro a b hab p hp q hq
  exact hab p hp q hq

end

theorem validAssignment_iff {items sources assignment : List ConcreteType} :
    ValidAssignment (fun c => items.count c) sources assignment ↔
      assignment = sources ∧ ∀ c, sources.count c ≤ items.count c := by
  constructor
  · intro h
    obtain rfl := h.eq
    exact ⟨rfl,h.within⟩
  · rintro ⟨rfl,hc⟩
    refine ⟨?_,hc⟩
    rw [List.forall₂_same]
    exact fun c _ => (accepts_iff_eq c c).mpr rfl

theorem perm_iff_fits {xs ys : List ConcreteType} :
    xs.Perm ys ↔ xs.length = ys.length ∧ ∀ c, xs.count c ≤ ys.count c := by
  constructor
  · intro h
    exact ⟨h.length_eq,fun c => (h.count_eq c).le⟩
  · rintro ⟨hl,hc⟩
    exact (List.subperm_ext_iff.mpr fun c _ => hc c).perm_of_length_le hl.ge

theorem parts_eq_nil {target : ConcreteType} {sources : List ConcreteType} :
    parts target sources = [] ↔ ∀ s ∈ sources, accepts target s = true := by
  simp [parts,List.filter_eq_nil_iff]

theorem assignInputSources_product (le : ConcreteType → ConcreteType → Bool)
    (items sources : List ConcreteType) :
    assignInputSources le (.product items) sources =
      if parts (.product items) sources = [] then .ok (List.replicate sources.length none)
      else if (parts (.product items) sources).Perm items then
        .ok (spread (.product items) sources
          (queue (parts (.product items) sources) (positionsFrom 0 items)))
      else .error .incompleteCoverage := by
  have hmap := map_componentSources (.product items) 0 sources
  have hnil : componentSources (.product items) 0 sources = [] ↔ parts (.product items) sources = [] := by
    rw [← hmap,List.map_eq_nil_iff]
  have hlen : (componentSources (.product items) 0 sources).length = (parts (.product items) sources).length := by
    rw [← hmap,List.length_map]
  obtain ⟨hsound,hnodup,hcomplete⟩ := collect_spec le items (parts (.product items) sources)
  unfold assignInputSources
  simp only [hnil,hlen,hmap]
  by_cases hwhole : parts (.product items) sources = []
  · rw [if_pos hwhole,if_pos hwhole,if_pos (List.all_eq_true.mpr (parts_eq_nil.mp hwhole))]
  rw [if_neg hwhole,if_neg hwhole]
  by_cases hl : (parts (.product items) sources).length = items.length
  swap
  · rw [if_pos hl,if_neg fun h => hl h.length_eq]
  rw [if_neg (not_not.mpr hl)]
  split
  · rename_i hfound
    rw [if_neg]
    intro hperm
    rw [hfound] at hcomplete
    exact List.not_mem_nil (hcomplete (by simp) _ (validAssignment_iff.mpr ⟨rfl,(perm_iff_fits.mp hperm).2⟩))
  · rename_i assignment hfound
    rw [hfound] at hsound
    obtain ⟨rfl,hc⟩ := validAssignment_iff.mp (hsound _ List.mem_cons_self)
    rw [if_pos (perm_iff_fits.mpr ⟨hl,hc⟩)]
    have hplace := placeComponents_eq (.product items) _ (positionsFrom 0 items) [] hlen.symm
      fun c => (hc c).trans_eq (length_positionsFrom 0 items c).symm
    simpa using hplace
  · rename_i a b more hfound
    rw [hfound] at hsound hnodup
    have ha := (validAssignment_iff.mp (hsound a List.mem_cons_self)).1
    have hb := (validAssignment_iff.mp (hsound b (List.mem_cons_of_mem _ List.mem_cons_self))).1
    exact absurd (ha.trans hb.symm ▸ List.mem_cons_self) (List.nodup_cons.mp hnodup).1

theorem Matched.length_eq {items sources : List ConcreteType} (h : Matched items sources) :
    sources.length = items.length := by
  obtain ⟨positions,hp,hf⟩ := h
  rw [hf.length_eq,hp.length_eq,List.length_range]

theorem acceptsEdgeSource_eq {target : ConcreteType} (h : ∀ items, target ≠ .product items)
    (source : ConcreteType) : acceptsEdgeSource target source = accepts target source := by
  cases target with
  | product items => exact absurd rfl (h items)
  | _ => simp [acceptsEdgeSource]

/-- Sources are assigned exactly when they cover the input; each source of a product is given what
it supplies, and only two assignments would be ambiguous. -/
theorem assignInputSources_decides (le : ConcreteType → ConcreteType → Bool) (target : ConcreteType)
    (sources : List ConcreteType) :
    ((∃ result, assignInputSources le target sources = .ok result) ↔ Covered target sources) ∧
    (∀ items result, target = .product items → assignInputSources le target sources = .ok result →
      Assigned items sources result) ∧
    (assignInputSources le target sources = .error .ambiguousCoverage →
      ∃ items a b, target = .product items ∧
        ValidAssignment (fun c => items.count c) (parts target sources) a ∧
        ValidAssignment (fun c => items.count c) (parts target sources) b ∧ ∃ i : Nat, a[i]? ≠ b[i]?) := by
  by_cases hproduct : ∃ items, target = .product items
  · obtain ⟨items,rfl⟩ := hproduct
    rw [assignInputSources_product]
    by_cases hwhole : parts (.product items) sources = []
    · rw [if_pos hwhole]
      have hall := parts_eq_nil.mp hwhole
      refine ⟨⟨fun _ => .inl hall,fun _ => ⟨_,rfl⟩⟩,?_,fun h => by cases h⟩
      intro others result he h
      cases he
      cases h
      refine ⟨?_,?_,?_⟩
      · rw [← List.map_const',List.forall₂_map_right_iff,List.forall₂_same]
        exact hall
      · rintro ⟨s,hs,hne⟩
        rw [hall s hs] at hne
        cases hne
      · rw [List.pairwise_replicate]
        right
        intro p hp
        cases hp
    · rw [if_neg hwhole]
      by_cases hfit : (parts (.product items) sources).Perm items
      · rw [if_pos hfit]
        obtain ⟨hmatched,hassigned⟩ := assigned_of_valid hfit.length_eq
          (validAssignment_iff.mpr ⟨rfl,(perm_iff_fits.mp hfit).2⟩)
        refine ⟨⟨fun _ => .inr hmatched,fun _ => ⟨_,rfl⟩⟩,?_,fun h => by cases h⟩
        intro others result he h
        cases he
        cases h
        exact hassigned
      · rw [if_neg hfit]
        have hnot : ∀ result, Except.error InputAssignmentError.incompleteCoverage ≠
            (.ok result : Except _ (List (Option Nat))) := by
          intro result h
          cases h
        refine ⟨⟨fun ⟨result,h⟩ => absurd h (hnot result),?_⟩,fun _ result _ h => absurd h (hnot result),?_⟩
        · intro hc
          obtain hall | hm := hc
          · exact absurd (parts_eq_nil.mpr hall) hwhole
          · exact absurd (perm_iff_fits.mpr ⟨hm.length_eq,hm.valid.within⟩) hfit
        · intro h
          cases h
  · have hne : ∀ items, target ≠ .product items := fun items he => hproduct ⟨items,he⟩
    have hassign : assignInputSources le target sources =
        if sources ≠ [] ∧ ∀ s ∈ sources, accepts target s = true then .ok (List.replicate sources.length none)
        else .error .incompleteCoverage := by
      cases target with
      | product items => exact absurd rfl (hne items)
      | _ => simp [assignInputSources,acceptsEdgeSource]
    have hcovered : Covered target sources ↔ sources ≠ [] ∧ ∀ s ∈ sources, accepts target s = true := by
      cases target with
      | product items => exact absurd rfl (hne items)
      | _ => rfl
    rw [hassign,hcovered]
    refine ⟨?_,fun items _ he => absurd he (hne items),?_⟩
    · split
      · rename_i h
        exact ⟨fun _ => h,fun _ => ⟨_,rfl⟩⟩
      · rename_i h
        constructor
        · rintro ⟨_,hr⟩
          cases hr
        · intro hc
          exact absurd hc h
    · split
      · intro h
        cases h
      · intro h
        cases h

end Nefor.Mag
