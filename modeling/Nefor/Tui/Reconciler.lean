import Nefor.Buckets
import Nefor.Tui.Instance

/-! The tree reconciler (`reconciler.rs`): a new description against the instances of the last one. -/
namespace Nefor.Tui

structure ReconcileSummary where
  mounted : Nat
  reused : Nat
  unmounted : Nat
  deriving DecidableEq, Repr

def ReconcileSummary.default : ReconcileSummary := ⟨0,0,0⟩

/-- The old children that no new one has taken, by their keys. -/
abbrev OldMap := Buckets InstanceKey WidgetInstance

/-- The orders in which hash maps are drained: each map may have an order of its own. -/
structure DrainOrder where
  order : Nat → OldMap → OldMap
  perm : ∀ n map, (order n map).Perm map

/-- The summary, and how many maps were drained before. -/
structure Pass where
  summary : ReconcileSummary
  drains : Nat

/-! Mounting. -/

/-- An only child is a list of one. -/
def only {α : Type} (built : WidgetInstance × α) : List WidgetInstance × α := ([built.1],built.2)

mutual
def mountSubtree (desc : WidgetDescription) (position : Nat) (summary : ReconcileSummary) :
    WidgetInstance × ReconcileSummary :=
  let summary := { summary with mounted := summary.mounted + 1 }
  let (children,summary) :=
    match desc with
    | .text .. | .spans .. | .markdown .. | .animation .. | .spacer .. | .fill .. | .textInput .. => ([],summary)
    | .column children _ _ _ => mountChildren children 0 summary
    | .row children _ _ => mountChildren children 0 summary
    | .stack children _ => mountChildren children 0 summary
    | .padding _ _ _ _ child _ => only (mountSubtree child 0 summary)
    | .expanded _ _ child _ => only (mountSubtree child 0 summary)
    | .constrained _ _ _ _ child _ => only (mountSubtree child 0 summary)
    | .align _ child _ => only (mountSubtree child 0 summary)
    | .anchored _ _ _ _ _ child _ => only (mountSubtree child 0 summary)
    | .scrollable _ child _ _ _ _ _ _ => only (mountSubtree child 0 summary)
  (⟨instanceKey desc position,children,defaultState (kindOf desc),desc,.default⟩,summary)
/-- `children.iter().enumerate().map(..)`, where the next index is `i`. -/
def mountChildren : List WidgetDescription → (i : Nat) → ReconcileSummary → List WidgetInstance × ReconcileSummary
  | [], _, summary => ([],summary)
  | c :: rest, i, summary =>
    let (child,summary) := mountSubtree c i summary
    let (children,summary) := mountChildren rest (i + 1) summary
    (child :: children,summary)
end

/-! Unmounting. -/

mutual
def unmountSubtree : WidgetInstance → ReconcileSummary → ReconcileSummary
  | ⟨_,children,_,_,_⟩, summary =>
    let summary := unmountAll children summary
    { summary with unmounted := summary.unmounted + 1 }
def unmountAll : List WidgetInstance → ReconcileSummary → ReconcileSummary
  | [], summary => summary
  | inst :: rest, summary => unmountAll rest (unmountSubtree inst summary)
end

/-- What is left of the map is drained. -/
def unmountLeftovers (order : DrainOrder) (map : OldMap) (pass : Pass) : Pass where
  summary := unmountAll ((order.order pass.drains map).flatMap (·.2)) pass.summary
  drains := pass.drains + 1

/-! Reusing. -/

/-- A new child takes the first old one of its key, or is mounted. -/
def matchChild (update : WidgetInstance → Pass → WidgetInstance × Pass) (desc : WidgetDescription) (i : Nat)
    (oldMap : OldMap) (pass : Pass) : WidgetInstance × OldMap × Pass :=
  match oldMap.takeFirst (instanceKey desc i) with
  | (some inst,oldMap) =>
    let (child,pass) := update inst pass
    (child,oldMap,pass)
  | (none,oldMap) =>
    let (child,summary) := mountSubtree desc i pass.summary
    (child,oldMap,{ pass with summary := summary })

mutual
def updateInstance (order : DrainOrder) (newDesc : WidgetDescription) (inst : WidgetInstance) (pass : Pass) :
    WidgetInstance × Pass :=
  let pass := { pass with summary := { pass.summary with reused := pass.summary.reused + 1 } }
  let oldMap := Buckets.fill WidgetInstance.key inst.children
  let (children,oldMap,pass) :=
    match newDesc with
    | .text .. | .spans .. | .markdown .. | .animation .. | .spacer .. | .fill .. | .textInput .. => ([],oldMap,pass)
    | .column children _ _ _ => matchChildren order children 0 oldMap pass
    | .row children _ _ => matchChildren order children 0 oldMap pass
    | .stack children _ => matchChildren order children 0 oldMap pass
    | .padding _ _ _ _ child _ => only (matchChild (updateInstance order child) child 0 oldMap pass)
    | .expanded _ _ child _ => only (matchChild (updateInstance order child) child 0 oldMap pass)
    | .constrained _ _ _ _ child _ => only (matchChild (updateInstance order child) child 0 oldMap pass)
    | .align _ child _ => only (matchChild (updateInstance order child) child 0 oldMap pass)
    | .anchored _ _ _ _ _ child _ => only (matchChild (updateInstance order child) child 0 oldMap pass)
    | .scrollable _ child _ _ _ _ _ _ => only (matchChild (updateInstance order child) child 0 oldMap pass)
  let pass := unmountLeftovers order oldMap pass
  let layout :=
    if newDesc.isLeaf ∧ inst.lastDesc.leafEq newDesc = false then { inst.layout with cachedConstraints := none }
    else inst.layout
  (⟨inst.key,children,inst.state,newDesc,layout⟩,pass)
/-- The loop over the new children, where the next index is `i`. -/
def matchChildren (order : DrainOrder) : List WidgetDescription → (i : Nat) → OldMap → Pass →
    List WidgetInstance × OldMap × Pass
  | [], _, oldMap, pass => ([],oldMap,pass)
  | desc :: rest, i, oldMap, pass =>
    let (child,oldMap,pass) := matchChild (updateInstance order desc) desc i oldMap pass
    let (children,oldMap,pass) := matchChildren order rest (i + 1) oldMap pass
    (child :: children,oldMap,pass)
end

/-- `reconcile_children`: the old children in buckets, the loop over the new ones, and what is left. -/
def reconcileChildren (order : DrainOrder) (oldChildren : List WidgetInstance) (newChildren : List WidgetDescription)
    (pass : Pass) : List WidgetInstance × Pass :=
  let (out,oldMap,pass) := matchChildren order newChildren 0 (Buckets.fill WidgetInstance.key oldChildren) pass
  (out,unmountLeftovers order oldMap pass)

/-- `Reconciler::reconcile`, where `prev` is the root before: the root after it, and the summary. -/
def reconcile (order : DrainOrder) (prev : Option WidgetInstance) (newDesc : WidgetDescription) :
    WidgetInstance × ReconcileSummary :=
  let summary := ReconcileSummary.default
  let newRootKey := instanceKey newDesc 0
  match prev with
  | some inst =>
    if inst.key = newRootKey then
      let (next,pass) := updateInstance order newDesc inst ⟨summary,0⟩
      (next,pass.summary)
    else mountSubtree newDesc 0 (unmountSubtree inst summary)
  | none => mountSubtree newDesc 0 summary

end Nefor.Tui
