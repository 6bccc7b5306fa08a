import Nefor.Tui.Matching

/-! States over a run of renders: an instance keeps its state exactly where the keys match. -/
namespace Nefor.Tui
open WidgetInstance (nodes)

section Fate
variable {prev : Option WidgetInstance} {desc : WidgetDescription} {slot : Nat} {new : WidgetInstance}

/-- The key of an old child that a new one is matched with. -/
theorem key_of_matched {old other : WidgetInstance} {ks : List InstanceKey} {i a : Nat} {k : InstanceKey}
    (hmatched : Buckets.matched (old.children.map WidgetInstance.key) ks i = some a) (hk : ks[i]? = some k)
    (hold : old.children[a]? = some other) : other.key = k := by
  obtain ⟨j,hj,ha⟩ := Buckets.matched_eq_some hmatched
  rw [List.getElem?_map,hold,Option.map_some] at ha
  rw [hk] at hj
  exact (Option.some.inj ha).trans (Option.some.inj hj).symm

/-- An instance that keeps a state has it from the other end of the pair, together with its key. -/
theorem Rebuilt.kept {old : WidgetInstance} (h : Rebuilt (some old) desc slot new) (hkey : old.key = new.key) {p q : List Nat}
    (hkeeps : KeepsState old new p q) : ∃ o n, old.at? p = some o ∧ new.at? q = some n ∧ n.state = o.state ∧ n.key = o.key := by
  induction hkeeps generalizing desc slot with
  | root old new =>
    cases h with
    | intro _ _ state => exact ⟨old,new,rfl,rfl,state,hkey.symm⟩
  | child hmatched hold hnew hrest ih =>
    rename_i old new oldChild newChild i a p q
    obtain ⟨child,-,hbuilt⟩ := h.child hnew
    have hpartner : partner old desc i = some oldChild := by
      rw [partner,← h.keys,hmatched]
      exact hold
    rw [Option.bind_some,hpartner] at hbuilt
    have hk : (new.children.map WidgetInstance.key)[i]? = some newChild.key := by
      rw [List.getElem?_map,hnew,Option.map_some]
    obtain ⟨o,n,ho,hn,hstate,hsame⟩ := ih hbuilt (key_of_matched hmatched hk hold)
    refine ⟨o,n,?_,?_,hstate,hsame⟩
    · rw [WidgetInstance.at?,hold]
      exact ho
    · rw [WidgetInstance.at?,hnew]
      exact hn

/-- An instance that keeps no state has the default one. -/
theorem Rebuilt.fresh (h : Rebuilt prev desc slot new) {q : List Nat} {n : WidgetInstance} (hn : new.at? q = some n)
    (hnone : ∀ old, prev = some old → ∀ p, ¬KeepsState old new p q) : n.state = defaultState (kindOf n.lastDesc) := by
  induction q generalizing prev desc slot new with
  | nil =>
    obtain rfl := Option.some.inj hn
    cases prev with
    | none =>
      cases h with
      | intro lastDesc _ state => rw [state,lastDesc]; rfl
    | some old => exact absurd (KeepsState.root old new) (hnone old rfl [])
  | cons i q ih =>
    obtain ⟨c,hc,hn⟩ := Option.bind_eq_some_iff.mp hn
    obtain ⟨child,-,hbuilt⟩ := h.child hc
    apply ih hbuilt hn
    intro oldChild hsome p hkeeps
    obtain ⟨old,rfl,hpartner⟩ := Option.bind_eq_some_iff.mp hsome
    rw [partner] at hpartner
    obtain ⟨a,hmatched,hold⟩ := Option.bind_eq_some_iff.mp hpartner
    rw [← h.keys] at hmatched
    exact hnone old rfl (a :: p) (.child hmatched hold hc hkeeps)

end Fate

/-! Kinds. -/

/-- The state of each instance is one of its kind. -/
def Kinded (inst : WidgetInstance) : Prop :=
  ∀ q n, inst.at? q = some n → n.state.kind = kindOf n.lastDesc

theorem Mirrors.at {inst : WidgetInstance} {slot : Nat} (h : Mirrors inst slot) {q : List Nat} {n : WidgetInstance}
    (hn : inst.at? q = some n) : n.key.typeTag = n.lastDesc.typeTag := by
  induction q generalizing inst slot with
  | nil =>
    obtain rfl := Option.some.inj hn
    cases h with
    | intro key =>
      rw [key]
      rfl
  | cons i q ih =>
    obtain ⟨c,hc,hn⟩ := Option.bind_eq_some_iff.mp hn
    cases h with
    | intro _ _ children => exact ih (children i c hc) hn

/-! Between two renders. -/

/-- What input, layout and paint do to a tree: states change within their kinds, and layouts. -/
inductive Touched : WidgetInstance → WidgetInstance → Prop
  | intro {before after : WidgetInstance} (key : after.key = before.key) (lastDesc : after.lastDesc = before.lastDesc)
    (kind : after.state.kind = before.state.kind) (length : after.children.length = before.children.length)
    (children : ∀ (i : Nat) (c d : WidgetInstance), before.children[i]? = some c → after.children[i]? = some d →
      Touched c d) : Touched before after

/-- The trees of a run: each is made from the one before it, which was touched in between. -/
inductive Produced : WidgetInstance → Prop
  | reconcile (order : DrainOrder) (prev : Option WidgetInstance) (desc : WidgetDescription)
    (h : ∀ old, prev = some old → Produced old) : Produced (reconcile order prev desc).1
  | touch {before after : WidgetInstance} (h : Produced before) (ht : Touched before after) : Produced after

/-- What a reconciliation makes of the root before it. -/
structure Reconciled (prev : Option WidgetInstance) (desc : WidgetDescription) (next : WidgetInstance)
    (summary : ReconcileSummary) : Prop where
  lastDesc : next.lastDesc = desc
  mirrors : Mirrors next 0
  newNodes : summary.mounted + summary.reused = next.nodes
  oldNodes : summary.reused + summary.unmounted = prev.elim 0 nodes
  kept : ∀ p q, KeptFrom prev next p q → ∃ old o n, prev = some old ∧ old.at? p = some o ∧ next.at? q = some n ∧
    n.state = o.state ∧ n.key = o.key
  fresh : ∀ q n, next.at? q = some n → (∀ p, ¬KeptFrom prev next p q) → n.state = defaultState (kindOf n.lastDesc)
  once : ∀ p q q', KeptFrom prev next p q → KeptFrom prev next p q' → q = q'
  kinds : Kinded next

/-- The tree that a reconciliation makes, with what it was made from. -/
theorem reconcile_rebuilt (order : DrainOrder) (prev : Option WidgetInstance) (desc : WidgetDescription) :
    Rebuilt (prev.filter fun old => old.key = instanceKey desc 0) desc 0 (reconcile order prev desc).1 ∧
      Counts .default (reconcile order prev desc).2 (prev.elim 0 nodes) (reconcile order prev desc).1.nodes := by
  cases prev with
  | none => exact mountSubtree_rebuilt desc 0 .default
  | some inst =>
    rw [reconcile]
    dsimp only
    by_cases hkey : inst.key = instanceKey desc 0
    · rw [if_pos hkey,Option.filter_some,if_pos (decide_eq_true hkey)]
      exact updates order desc inst ⟨.default,0⟩ 0 hkey
    · rw [if_neg hkey,Option.filter_some,if_neg (by simpa using hkey)]
      obtain ⟨hbuilt,hcounts⟩ := mountSubtree_rebuilt desc 0 (unmountSubtree inst .default)
      have hall := (Counts.unmount inst .default).trans hcounts
      rw [Nat.zero_add] at hall
      exact ⟨hbuilt,hall⟩

section Reconcile
variable {order : DrainOrder} {prev : Option WidgetInstance} {desc : WidgetDescription}

theorem keptFrom_iff {next : WidgetInstance} (hkey : next.key = instanceKey desc 0) {p q : List Nat} :
    KeptFrom prev next p q ↔ ∃ old, (prev.filter fun old => old.key = instanceKey desc 0) = some old ∧ KeepsState old next p q := by
  simp only [KeptFrom,Option.filter_eq_some_iff,decide_eq_true_eq,hkey,and_assoc]

/-- States of their kinds stay so: a state is handed on to an instance of the same kind. -/
theorem kinded_reconcile (hprev : ∀ old, prev = some old → Mirrors old 0 ∧ Kinded old) :
    Kinded (reconcile order prev desc).1 := by
  have hbuilt := (reconcile_rebuilt order prev desc).1
  intro q n hn
  by_cases hkept : ∃ old p, (prev.filter fun old => old.key = instanceKey desc 0) = some old ∧
      KeepsState old (reconcile order prev desc).1 p q
  · obtain ⟨old,p,hsome,hkeeps⟩ := hkept
    rw [hsome] at hbuilt
    obtain ⟨hold,hkey⟩ := Option.filter_eq_some_iff.mp hsome
    obtain ⟨hmirrors,hkinded⟩ := hprev old hold
    obtain ⟨o,n',ho,hn',hstate,hsame⟩ := hbuilt.kept ((of_decide_eq_true hkey).trans hbuilt.key_eq.symm) hkeeps
    obtain rfl := Option.some.inj (hn'.symm.trans hn)
    rw [hstate,hkinded p o ho]
    apply kindOf_eq_of_typeTag
    rw [← hmirrors.at ho,← hbuilt.mirrors.at hn,hsame]
  · rw [hbuilt.fresh hn,defaultState_kind]
    exact fun old hsome p hkeeps => hkept ⟨old,p,hsome,hkeeps⟩

theorem Touched.at {before after : WidgetInstance} (h : Touched before after) {q : List Nat} {n : WidgetInstance}
    (hn : after.at? q = some n) : ∃ m, before.at? q = some m ∧ Touched m n := by
  induction q generalizing before after with
  | nil =>
    obtain rfl := Option.some.inj hn
    exact ⟨before,rfl,h⟩
  | cons i q ih =>
    obtain ⟨d,hd,hn⟩ := Option.bind_eq_some_iff.mp hn
    cases h with
    | intro _ _ _ length children =>
      have hlt : i < before.children.length := length ▸ (List.getElem?_eq_some_iff.mp hd).1
      obtain ⟨m,hm,htouched⟩ := ih (children i _ d (List.getElem?_eq_getElem hlt) hd) hn
      refine ⟨m,?_,htouched⟩
      rw [WidgetInstance.at?,List.getElem?_eq_getElem hlt]
      exact hm

theorem Touched.kinded {before after : WidgetInstance} (ht : Touched before after) (h : Kinded before) : Kinded after := by
  intro q n hn
  obtain ⟨m,hm,htouched⟩ := ht.at hn
  cases htouched with
  | intro _ lastDesc kind => rw [kind,lastDesc,h q m hm]

theorem Touched.mirrors {before after : WidgetInstance} (ht : Touched before after) {slot : Nat} (h : Mirrors before slot) :
    Mirrors after slot := by
  induction ht generalizing slot with
  | intro key lastDesc kind length children ih =>
    rename_i before after
    cases h with
    | intro hkey shape hchildren =>
      refine .intro ?_ ?_ ?_
      · rw [key,lastDesc,hkey]
      · rw [lastDesc,← shape]
        apply List.ext_getElem?
        intro i
        rw [List.getElem?_map,List.getElem?_map]
        cases hd : after.children[i]? with
        | none =>
          rw [List.getElem?_eq_none_iff,length,← List.getElem?_eq_none_iff] at hd
          rw [hd]
        | some d =>
          have hlt : i < before.children.length := length ▸ (List.getElem?_eq_some_iff.mp hd).1
          rw [List.getElem?_eq_getElem hlt,Option.map_some,Option.map_some]
          cases children i _ d (List.getElem?_eq_getElem hlt) hd with
          | intro _ lastDesc => rw [lastDesc]
      · intro i d hd
        have hlt : i < before.children.length := length ▸ (List.getElem?_eq_some_iff.mp hd).1
        exact ih i _ d (List.getElem?_eq_getElem hlt) hd (hchildren i _ (List.getElem?_eq_getElem hlt))

/-- Every tree of a run mirrors its description, and its states are of their kinds. -/
theorem Produced.sound {inst : WidgetInstance} (h : Produced inst) : Mirrors inst 0 ∧ Kinded inst := by
  induction h with
  | reconcile order prev desc _ ih => exact ⟨(reconcile_rebuilt order prev desc).1.mirrors,kinded_reconcile ih⟩
  | touch _ ht ih => exact ⟨ht.mirrors ih.1,ht.kinded ih.2⟩

end Reconcile

/-- Whatever the run before it, a reconciliation keeps states exactly where keys match, and the order
in which hash maps are drained does not matter. -/
theorem reconciled (order : DrainOrder) (prev : Option WidgetInstance) (hprev : ∀ old, prev = some old → Produced old)
    (desc : WidgetDescription) :
    Reconciled prev desc (reconcile order prev desc).1 (reconcile order prev desc).2 ∧
      ∀ order', reconcile order' prev desc = reconcile order prev desc := by
  obtain ⟨hbuilt,hcounts⟩ := reconcile_rebuilt order prev desc
  refine ⟨?_,fun order' => reconcile_order order' order prev desc⟩
  constructor
  · exact hbuilt.lastDesc_eq
  · exact hbuilt.mirrors
  · exact hcounts.built.trans (Nat.zero_add _)
  · exact hcounts.gone.trans (Nat.zero_add _)
  · intro p q hkept
    obtain ⟨old,hsome,hkeeps⟩ := (keptFrom_iff hbuilt.key_eq).mp hkept
    rw [hsome] at hbuilt
    obtain ⟨hold,hkey⟩ := Option.filter_eq_some_iff.mp hsome
    obtain ⟨o,n,ho,hn,hstate,hsame⟩ := hbuilt.kept ((of_decide_eq_true hkey).trans hbuilt.key_eq.symm) hkeeps
    exact ⟨old,o,n,hold,ho,hn,hstate,hsame⟩
  · intro q n hn hnone
    apply hbuilt.fresh hn
    intro old hsome p hkeeps
    exact hnone p ((keptFrom_iff hbuilt.key_eq).mpr ⟨old,hsome,hkeeps⟩)
  · rintro p q q' ⟨old,hold,-,hkeeps⟩ ⟨old',hold',-,hkeeps'⟩
    obtain rfl := Option.some.inj (hold.symm.trans hold')
    exact hkeeps.once hkeeps'
  · exact kinded_reconcile fun old hold => (hprev old hold).sound

/-- Maps that are drained in the order of their entries. -/
def entryOrder : DrainOrder := ⟨fun _ map => map,fun _ map => List.Perm.refl map⟩

def keyedText (content key : String) : WidgetDescription := .text content none .word (some key)

/-- Two texts in a column. -/
def firstRender : WidgetDescription := .column [keyedText "a" "first",keyedText "b" "second"] 0 none false

/-- The texts have changed places, and a third of the first one's key is there. -/
def secondRender : WidgetDescription :=
  .column [keyedText "b2" "second",keyedText "a2" "first",keyedText "c" "first"] 0 none false

theorem reconciled_secondRender :
    Reconciled (some (reconcile entryOrder none firstRender).1) secondRender
      (reconcile entryOrder (some (reconcile entryOrder none firstRender).1) secondRender).1
      (reconcile entryOrder (some (reconcile entryOrder none firstRender).1) secondRender).2 := by
  refine (reconciled entryOrder (some (reconcile entryOrder none firstRender).1) ?_ secondRender).1
  intro old hold
  obtain rfl := Option.some.inj hold
  apply Produced.reconcile
  intro older holder
  cases holder

example : (reconcile entryOrder (some (reconcile entryOrder none firstRender).1) secondRender).2 = ⟨1,3,0⟩ := by decide

end Nefor.Tui
