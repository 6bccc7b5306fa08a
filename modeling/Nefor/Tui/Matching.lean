import Nefor.Tui.Reconciler

/-! What a reconciliation builds: which of the old instances each new one comes from. -/
namespace Nefor.Tui
open WidgetInstance (nodes)

/-! The functions on any description, by its children. -/

theorem mountSubtree_eq (desc : WidgetDescription) (position : Nat) (summary : ReconcileSummary) :
    mountSubtree desc position summary =
      let built := mountChildren desc.children 0 { summary with mounted := summary.mounted + 1 }
      (⟨instanceKey desc position,built.1,defaultState (kindOf desc),desc,.default⟩,built.2) := by
  cases desc <;> rfl

theorem updateInstance_eq (order : DrainOrder) (newDesc : WidgetDescription) (inst : WidgetInstance) (pass : Pass) :
    updateInstance order newDesc inst pass =
      let pass := { pass with summary := { pass.summary with reused := pass.summary.reused + 1 } }
      let built := reconcileChildren order inst.children newDesc.children pass
      let layout :=
        if newDesc.isLeaf ∧ inst.lastDesc.leafEq newDesc = false then { inst.layout with cachedConstraints := none }
        else inst.layout
      (⟨inst.key,built.1,inst.state,newDesc,layout⟩,built.2) := by
  cases newDesc <;> rfl

/-! Counting. -/

/-- Between two summaries `old` instances of the old tree and `new` ones of the new tree were counted. -/
structure Counts (before after : ReconcileSummary) (old new : Nat) : Prop where
  built : after.mounted + after.reused = before.mounted + before.reused + new
  gone : after.reused + after.unmounted = before.reused + before.unmounted + old

section Counts
variable {a b c : ReconcileSummary} {old old' new new' : Nat}

theorem Counts.refl (a : ReconcileSummary) : Counts a a 0 0 := ⟨rfl,rfl⟩

theorem Counts.trans (h : Counts a b old new) (h' : Counts b c old' new') : Counts a c (old + old') (new + new') := by
  obtain ⟨hbuilt,hgone⟩ := h
  obtain ⟨hbuilt',hgone'⟩ := h'
  constructor <;> omega

end Counts

mutual
theorem unmountSubtree_eq (inst : WidgetInstance) (summary : ReconcileSummary) :
    unmountSubtree inst summary = { summary with unmounted := summary.unmounted + inst.nodes } := by
  cases inst with
  | mk key children state lastDesc layout =>
    rw [unmountSubtree,unmountAll_eq children summary,WidgetInstance.nodes]
    congr 1
    dsimp only
    omega
theorem unmountAll_eq (insts : List WidgetInstance) (summary : ReconcileSummary) :
    unmountAll insts summary = { summary with unmounted := summary.unmounted + WidgetInstance.nodesOf insts } := by
  cases insts with
  | nil => rfl
  | cons inst rest =>
    rw [unmountAll,unmountSubtree_eq inst summary,unmountAll_eq rest,WidgetInstance.nodesOf]
    congr 1
    dsimp only
    omega
end

theorem Counts.unmount (inst : WidgetInstance) (summary : ReconcileSummary) :
    Counts summary (unmountSubtree inst summary) inst.nodes 0 := by
  rw [unmountSubtree_eq]
  constructor <;> dsimp only <;> omega

/-- What is left is counted in any order. -/
theorem unmountLeftovers_eq (order : DrainOrder) (map : OldMap) (pass : Pass) :
    unmountLeftovers order map pass =
      ⟨{ pass.summary with unmounted := pass.summary.unmounted + Buckets.total nodes map },pass.drains + 1⟩ := by
  have hnodes : WidgetInstance.nodesOf ((order.order pass.drains map).flatMap (·.2)) = Buckets.total nodes map := by
    rw [← Buckets.total_perm nodes (order.perm pass.drains map),WidgetInstance.nodesOf_eq,List.map_flatMap,
      List.flatMap_def,List.sum_flatten,List.map_map]
    rfl
  rw [unmountLeftovers,unmountAll_eq,hnodes]

theorem Counts.leftovers (order : DrainOrder) (map : OldMap) (pass : Pass) :
    Counts pass.summary (unmountLeftovers order map pass).summary (Buckets.total nodes map) 0 := by
  rw [unmountLeftovers_eq]
  constructor <;> dsimp only <;> omega

/-! Where a new tree comes from. -/

/-- The keys of descriptions in child slots, the first of which is `n`. -/
def slotKeys (n : Nat) (descs : List WidgetDescription) : List InstanceKey :=
  descs.mapIdx fun i desc => instanceKey desc (n + i)

/-- The old child that a new one is matched with: when it is the k-th of its key among its siblings,
the k-th of that key among the old ones. -/
def partner (old : WidgetInstance) (desc : WidgetDescription) (i : Nat) : Option WidgetInstance :=
  (Buckets.matched (old.children.map WidgetInstance.key) (slotKeys 0 desc.children) i).bind (old.children[·]?)

/-- A tree for a description in a slot, made from an old tree, if there is one: it has that tree's
state, or the default one, and its children are made from the old children they are matched with. -/
inductive Rebuilt : Option WidgetInstance → WidgetDescription → Nat → WidgetInstance → Prop
  | intro {prev : Option WidgetInstance} {desc : WidgetDescription} {slot : Nat} {inst : WidgetInstance}
    (lastDesc : inst.lastDesc = desc) (key : inst.key = instanceKey desc slot)
    (state : inst.state = prev.elim (defaultState (kindOf desc)) WidgetInstance.state)
    (length : inst.children.length = desc.children.length)
    (children : ∀ i child c, desc.children[i]? = some child → inst.children[i]? = some c →
      Rebuilt (prev.bind fun old => partner old desc i) child i c) : Rebuilt prev desc slot inst

section Build
variable {order : DrainOrder}

theorem length_mountChildren (descs : List WidgetDescription) (n : Nat) (summary : ReconcileSummary) :
    (mountChildren descs n summary).1.length = descs.length := by
  induction descs generalizing n summary with
  | nil => rfl
  | cons desc rest ih => exact congrArg (· + 1) (ih (n + 1) _)

theorem mountChildren_rebuilt {descs : List WidgetDescription} (n : Nat) (summary : ReconcileSummary)
    (h : ∀ desc ∈ descs, ∀ position summary, Rebuilt none desc position (mountSubtree desc position summary).1 ∧
      Counts summary (mountSubtree desc position summary).2 0 (mountSubtree desc position summary).1.nodes) :
    (∀ i child c, descs[i]? = some child → (mountChildren descs n summary).1[i]? = some c → Rebuilt none child (n + i) c) ∧
      Counts summary (mountChildren descs n summary).2 0 (((mountChildren descs n summary).1.map nodes).sum) := by
  induction descs generalizing n summary with
  | nil => exact ⟨fun i child c hd => by simp at hd,Counts.refl summary⟩
  | cons desc rest ih =>
    obtain ⟨hdesc,hrest⟩ := List.forall_mem_cons.mp h
    obtain ⟨hbuilt,hcounts⟩ := hdesc n summary
    obtain ⟨hall,hsum⟩ := ih (n + 1) (mountSubtree desc n summary).2 hrest
    constructor
    · intro i child c hd hc
      cases i with
      | zero =>
        cases hd
        cases hc
        exact hbuilt
      | succ i =>
        rw [Nat.add_comm i 1,← Nat.add_assoc]
        exact hall i child c hd hc
    · exact hcounts.trans hsum

theorem mountSubtree_rebuilt (desc : WidgetDescription) : ∀ position summary,
    Rebuilt none desc position (mountSubtree desc position summary).1 ∧
      Counts summary (mountSubtree desc position summary).2 0 (mountSubtree desc position summary).1.nodes := by
  induction desc using WidgetDescription.byChildren with
  | h desc ih =>
    intro position summary
    rw [mountSubtree_eq]
    dsimp only
    obtain ⟨hchildren,hcounts⟩ := mountChildren_rebuilt 0 { summary with mounted := summary.mounted + 1 } ih
    constructor
    · refine .intro rfl rfl rfl (length_mountChildren _ _ _) ?_
      intro i child c hd hc
      rw [← Nat.zero_add i]
      exact hchildren i child c hd hc
    · rw [WidgetInstance.nodes_eq]
      have hone : Counts summary { summary with mounted := summary.mounted + 1 } 0 1 := by
        constructor <;> dsimp only <;> omega
      exact hone.trans hcounts

/-- The elements of each bucket have its key. -/
def Keyed (map : OldMap) : Prop := ∀ k, ∀ inst ∈ map.bucket k, inst.key = k

theorem keyed_fill (insts : List WidgetInstance) : Keyed (Buckets.fill WidgetInstance.key insts) := by
  intro k inst hmem
  rw [Buckets.bucket_fill] at hmem
  exact of_decide_eq_true (List.mem_filter.mp hmem).2

theorem Keyed.takeFirst {map : OldMap} (h : Keyed map) (k : InstanceKey) : Keyed (map.takeFirst k).2 := by
  intro j inst hmem
  rw [Buckets.bucket_takeFirst] at hmem
  split at hmem
  · exact h j inst (List.mem_of_mem_tail hmem)
  · exact h j inst hmem

/-- An old tree whose key is that of a slot can be updated for a description there. -/
def Updates (order : DrainOrder) (desc : WidgetDescription) : Prop :=
  ∀ inst pass slot, inst.key = instanceKey desc slot →
    Rebuilt (some inst) desc slot (updateInstance order desc inst pass).1 ∧
      Counts pass.summary (updateInstance order desc inst pass).2.summary inst.nodes
        (updateInstance order desc inst pass).1.nodes

theorem matchChild_rebuilt {desc : WidgetDescription} (h : Updates order desc) (i : Nat) {map : OldMap} (hmap : Keyed map)
    (pass : Pass) :
    Rebuilt (map.takeFirst (instanceKey desc i)).1 desc i (matchChild (updateInstance order desc) desc i map pass).1 ∧
      (matchChild (updateInstance order desc) desc i map pass).2.1 = (map.takeFirst (instanceKey desc i)).2 ∧
      Counts pass.summary (matchChild (updateInstance order desc) desc i map pass).2.2.summary
        ((map.takeFirst (instanceKey desc i)).1.elim 0 nodes)
        (matchChild (updateInstance order desc) desc i map pass).1.nodes := by
  rw [matchChild]
  cases htake : map.takeFirst (instanceKey desc i) with
  | mk taken rest =>
    cases taken with
    | none =>
      obtain ⟨hbuilt,hcounts⟩ := mountSubtree_rebuilt desc i pass.summary
      exact ⟨hbuilt,rfl,hcounts⟩
    | some inst =>
      have hkey : inst.key = instanceKey desc i := by
        apply hmap
        apply List.mem_of_mem_head?
        rw [← Buckets.takeFirst_fst,htake]
        rfl
      obtain ⟨hbuilt,hcounts⟩ := h inst pass i hkey
      exact ⟨hbuilt,rfl,hcounts⟩

theorem matchChildren_cons (order : DrainOrder) (desc : WidgetDescription) (rest : List WidgetDescription) (n : Nat)
    (map : OldMap) (pass : Pass) :
    matchChildren order (desc :: rest) n map pass =
      let one := matchChild (updateInstance order desc) desc n map pass
      let more := matchChildren order rest (n + 1) one.2.1 one.2.2
      (one.1 :: more.1,more.2) := rfl

/-- The loop over the new children: each is made from the old one that its key takes. -/
theorem matchChildren_rebuilt {descs : List WidgetDescription} (h : ∀ desc ∈ descs, Updates order desc) (n : Nat)
    {map : OldMap} (hmap : Keyed map) (pass : Pass) :
    (matchChildren order descs n map pass).1.length = descs.length ∧
      (∀ i child c, descs[i]? = some child → (matchChildren order descs n map pass).1[i]? = some c →
        Rebuilt (map.takeAll (slotKeys n descs)).1[i]?.join child (n + i) c) ∧
      ∃ taken, taken + (matchChildren order descs n map pass).2.1.total nodes = map.total nodes ∧
        Counts pass.summary (matchChildren order descs n map pass).2.2.summary taken
          ((matchChildren order descs n map pass).1.map nodes).sum := by
  induction descs generalizing n map pass with
  | nil => exact ⟨rfl,fun i child c hd => by simp at hd,0,Nat.zero_add _,Counts.refl _⟩
  | cons desc rest ih =>
    obtain ⟨hdesc,hrest⟩ := List.forall_mem_cons.mp h
    obtain ⟨hbuilt,hleft,hcounts⟩ := matchChild_rebuilt hdesc n hmap pass
    have hnext := hmap.takeFirst (instanceKey desc n)
    rw [← hleft] at hnext
    obtain ⟨hlength,hall,taken,htaken,hsum⟩ := ih hrest (n + 1) hnext
      (matchChild (updateInstance order desc) desc n map pass).2.2
    have hkeys : slotKeys n (desc :: rest) = instanceKey desc n :: slotKeys (n + 1) rest := by
      rw [slotKeys,List.mapIdx_cons,slotKeys]
      simp only [Nat.add_zero,Nat.add_comm,Nat.add_left_comm]
    rw [matchChildren_cons]
    refine ⟨congrArg (· + 1) hlength,?_,_,?_,hcounts.trans hsum⟩
    · intro i child c hd hc
      rw [hkeys]
      cases i with
      | zero =>
        cases hd
        cases hc
        exact hbuilt
      | succ i =>
        have hchild := hall i child c hd hc
        rw [hleft] at hchild
        rw [Nat.add_comm i 1,← Nat.add_assoc,Nat.add_comm 1 i]
        exact hchild
    · dsimp only
      rw [Nat.add_assoc,htaken,hleft,Buckets.total_takeFirst]

theorem updates (order : DrainOrder) (desc : WidgetDescription) : Updates order desc := by
  induction desc using WidgetDescription.byChildren with
  | h desc ih =>
    intro inst pass slot hkey
    rw [updateInstance_eq]
    dsimp only [reconcileChildren]
    obtain ⟨hlength,hall,taken,htaken,hcounts⟩ := matchChildren_rebuilt ih 0 (keyed_fill inst.children)
      { pass with summary := { pass.summary with reused := pass.summary.reused + 1 } }
    constructor
    · refine .intro rfl hkey rfl hlength ?_
      intro i child c hd hc
      have hchild := hall i child c hd hc
      rw [Buckets.takeAll_fill,Nat.zero_add] at hchild
      exact hchild
    · rw [WidgetInstance.nodes_eq inst,WidgetInstance.nodes_eq]
      have hone : Counts pass.summary { pass.summary with reused := pass.summary.reused + 1 } 1 1 := by
        constructor <;> dsimp only <;> omega
      have hleft := Counts.leftovers order (matchChildren order desc.children 0 (Buckets.fill WidgetInstance.key inst.children)
        { pass with summary := { pass.summary with reused := pass.summary.reused + 1 } }).2.1
        (matchChildren order desc.children 0 (Buckets.fill WidgetInstance.key inst.children)
          { pass with summary := { pass.summary with reused := pass.summary.reused + 1 } }).2.2
      have hall := (hone.trans hcounts).trans hleft
      rw [Nat.add_assoc 1 taken,htaken,Buckets.total_fill] at hall
      exact hall

end Build

/-! The order of draining. -/

theorem matchChildren_order {order order' : DrainOrder} {descs : List WidgetDescription}
    (h : ∀ desc ∈ descs, updateInstance order desc = updateInstance order' desc) (n : Nat) (map : OldMap) (pass : Pass) :
    matchChildren order descs n map pass = matchChildren order' descs n map pass := by
  induction descs generalizing n map pass with
  | nil => rfl
  | cons desc rest ih =>
    obtain ⟨hdesc,hrest⟩ := List.forall_mem_cons.mp h
    rw [matchChildren_cons,matchChildren_cons,hdesc]
    dsimp only
    rw [ih hrest]

theorem updateInstance_order (order order' : DrainOrder) (desc : WidgetDescription) :
    updateInstance order desc = updateInstance order' desc := by
  induction desc using WidgetDescription.byChildren with
  | h desc ih =>
    funext inst pass
    rw [updateInstance_eq,updateInstance_eq]
    simp only [reconcileChildren,matchChildren_order ih,unmountLeftovers_eq]

theorem reconcile_order (order order' : DrainOrder) (prev : Option WidgetInstance) (desc : WidgetDescription) :
    reconcile order prev desc = reconcile order' prev desc := by
  cases prev with
  | none => rfl
  | some inst => rw [reconcile,reconcile,updateInstance_order order order']

/-! Which old instance a new one keeps the state of. -/

/-- The instance at one path of the new tree keeps the state of that at a path of the old tree: the
roots are a pair, and where two instances are, so are their children that are matched. -/
inductive KeepsState : (old new : WidgetInstance) → (p q : List Nat) → Prop
  | root (old new : WidgetInstance) : KeepsState old new [] []
  | child {old new oldChild newChild : WidgetInstance} {i a : Nat} {p q : List Nat}
    (hmatched : Buckets.matched (old.children.map WidgetInstance.key) (new.children.map WidgetInstance.key) i = some a)
    (hold : old.children[a]? = some oldChild) (hnew : new.children[i]? = some newChild)
    (h : KeepsState oldChild newChild p q) : KeepsState old new (a :: p) (i :: q)

section KeepsState
variable {old new : WidgetInstance} {p p' q q' : List Nat}

theorem KeepsState.once (h : KeepsState old new p q) (h' : KeepsState old new p q') : q = q' := by
  induction h generalizing q' with
  | root old new => cases h' with | root => rfl
  | child hmatched hold hnew _ ih =>
    cases h' with
    | child hmatched' hold' hnew' h' =>
      obtain rfl := Buckets.matched_inj hmatched hmatched'
      obtain rfl := Option.some.inj (hold.symm.trans hold')
      obtain rfl := Option.some.inj (hnew.symm.trans hnew')
      rw [ih h']

end KeepsState

/-- The root before the reconciliation has the key of the one after it, and there is a pair. -/
def KeptFrom (prev : Option WidgetInstance) (next : WidgetInstance) (p q : List Nat) : Prop :=
  ∃ old, prev = some old ∧ old.key = next.key ∧ KeepsState old next p q

/-- A tree mirrors its description from a slot on: the keys are those of the slots, and the children
are those of the description. -/
inductive Mirrors : WidgetInstance → Nat → Prop
  | intro {inst : WidgetInstance} {slot : Nat} (key : inst.key = instanceKey inst.lastDesc slot)
    (shape : inst.children.map WidgetInstance.lastDesc = inst.lastDesc.children)
    (children : ∀ i c, inst.children[i]? = some c → Mirrors c i) : Mirrors inst slot

section Rebuilt
variable {prev : Option WidgetInstance} {desc : WidgetDescription} {slot : Nat} {inst : WidgetInstance}

/-- The description of a child, where there is a child. -/
theorem Rebuilt.child (h : Rebuilt prev desc slot inst) {i : Nat} {c : WidgetInstance} (hc : inst.children[i]? = some c) :
    ∃ child, desc.children[i]? = some child ∧ Rebuilt (prev.bind fun old => partner old desc i) child i c := by
  cases h with
  | intro lastDesc key state length children =>
    have hlt : i < desc.children.length := length ▸ (List.getElem?_eq_some_iff.mp hc).1
    exact ⟨_,List.getElem?_eq_getElem hlt,children i _ c (List.getElem?_eq_getElem hlt) hc⟩

theorem Rebuilt.lastDesc_eq (h : Rebuilt prev desc slot inst) : inst.lastDesc = desc := by
  cases h with | intro lastDesc => exact lastDesc

theorem Rebuilt.key_eq (h : Rebuilt prev desc slot inst) : inst.key = instanceKey desc slot := by
  cases h with | intro _ key => exact key

/-- What a child has is what its description has there. -/
theorem Rebuilt.map_children {β : Type} (h : Rebuilt prev desc slot inst) {f : WidgetInstance → β}
    {g : Nat → WidgetDescription → β} (hf : ∀ i child prev c, Rebuilt prev child i c → f c = g i child) :
    inst.children.map f = desc.children.mapIdx g := by
  apply List.ext_getElem?
  intro i
  rw [List.getElem?_map,List.getElem?_mapIdx]
  cases hc : inst.children[i]? with
  | some c =>
    obtain ⟨child,hchild,hbuilt⟩ := h.child hc
    rw [hchild,Option.map_some,Option.map_some,hf i child _ c hbuilt]
  | none =>
    cases h with
    | intro _ _ _ length _ =>
      rw [List.getElem?_eq_none_iff,length,← List.getElem?_eq_none_iff] at hc
      rw [hc]
      rfl

theorem Rebuilt.keys (h : Rebuilt prev desc slot inst) : inst.children.map WidgetInstance.key = slotKeys 0 desc.children :=
  h.map_children fun i child _ c hc => by rw [hc.key_eq,Nat.zero_add]

theorem Rebuilt.mirrors (h : Rebuilt prev desc slot inst) : Mirrors inst slot := by
  induction h with
  | intro lastDesc key state length children ih =>
    rename_i prev desc slot inst
    have hbuilt : Rebuilt prev desc slot inst := .intro lastDesc key state length children
    refine .intro (lastDesc ▸ key) ?_ ?_
    · rw [hbuilt.map_children fun _ _ _ _ hc => hc.lastDesc_eq,lastDesc]
      apply List.ext_getElem?
      intro i
      rw [List.getElem?_mapIdx,Option.map_id']
    · intro i c hc
      obtain ⟨child,hchild,-⟩ := hbuilt.child hc
      exact ih i child c hchild hc

end Rebuilt
end Nefor.Tui
