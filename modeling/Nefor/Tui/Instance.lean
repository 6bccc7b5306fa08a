import Mathlib.Algebra.Order.Ring.Nat
import Mathlib.Algebra.BigOperators.Group.List.Basic
import Nefor.Tui.Description
import Nefor.Tui.TextInput

/-! Widget instances (`instance.rs`): the tree that mirrors the last description, with the state that
each widget keeps from one render to the next. -/
namespace Nefor.Tui

/-! What layout and paint leave on an instance. -/

structure Constraints where
  minWidth : UInt16
  maxWidth : UInt16
  minHeight : UInt16
  maxHeight : UInt16
  deriving DecidableEq, Repr

structure Size where
  width : UInt16
  height : UInt16
  deriving DecidableEq, Repr

structure Rect where
  row : UInt16
  col : UInt16
  width : UInt16
  height : UInt16
  deriving DecidableEq, Repr

structure LayoutResult where
  size : Size
  flexMainSizes : List UInt16
  anchoredChildSize : Option Size
  paintedRect : Option Rect
  cachedConstraints : Option Constraints
  deriving DecidableEq, Repr

def LayoutResult.default : LayoutResult := ⟨⟨0,0⟩,[],none,none,none⟩

/-! States. -/

structure AnimationState where
  mountTimeMs : Option UInt64
  deriving DecidableEq, Repr

structure ScrollableState where
  scrollY : UInt16
  scrollX : UInt16
  contentHeight : UInt16
  measuredContentHeight : UInt16
  viewportHeight : UInt16
  wasAtEnd : Bool
  wasAtStart : Bool
  seeded : Bool
  innerWidth : UInt16
  revealRange : Option (UInt16 × UInt16)
  deriving DecidableEq, Repr

def ScrollableState.default : ScrollableState := ⟨0,0,0,0,0,false,false,false,0,none⟩

inductive InstanceKind
  | text
  | spans
  | markdown
  | animation
  | column
  | row
  | padding
  | stack
  | expanded
  | spacer
  | fill
  | constrained
  | align
  | anchored
  | textInput
  | scrollable
  deriving DecidableEq, Repr

inductive InstanceState
  | text
  | spans
  | markdown
  | animation (state : AnimationState)
  | column
  | row
  | padding
  | stack
  | expanded
  | spacer
  | fill
  | constrained
  | align
  | anchored
  | textInput (state : TextInputState)
  | scrollable (state : ScrollableState)
  deriving DecidableEq

/-- The kind whose state this is. -/
def InstanceState.kind : InstanceState → InstanceKind
  | text => .text
  | spans => .spans
  | markdown => .markdown
  | animation _ => .animation
  | column => .column
  | row => .row
  | padding => .padding
  | stack => .stack
  | expanded => .expanded
  | spacer => .spacer
  | fill => .fill
  | constrained => .constrained
  | align => .align
  | anchored => .anchored
  | textInput _ => .textInput
  | scrollable _ => .scrollable

/-- Default state slot for a freshly mounted instance. -/
def defaultState : InstanceKind → InstanceState
  | .text => .text
  | .spans => .spans
  | .markdown => .markdown
  | .animation => .animation ⟨none⟩
  | .column => .column
  | .row => .row
  | .padding => .padding
  | .stack => .stack
  | .expanded => .expanded
  | .spacer => .spacer
  | .fill => .fill
  | .constrained => .constrained
  | .align => .align
  | .anchored => .anchored
  | .textInput => .textInput .default
  | .scrollable => .scrollable { ScrollableState.default with wasAtEnd := true, wasAtStart := true }

theorem defaultState_kind (kind : InstanceKind) : (defaultState kind).kind = kind := by
  cases kind <;> rfl

/-! Keys. -/

inductive KeyId
  | user (key : String)
  | position (position : Nat)
  deriving DecidableEq, Repr

structure InstanceKey where
  typeTag : String
  id : KeyId
  deriving DecidableEq, Repr

def kindOf : WidgetDescription → InstanceKind
  | .text .. => .text
  | .spans .. => .spans
  | .markdown .. => .markdown
  | .animation .. => .animation
  | .column .. => .column
  | .row .. => .row
  | .padding .. => .padding
  | .stack .. => .stack
  | .expanded .. => .expanded
  | .spacer .. => .spacer
  | .fill .. => .fill
  | .constrained .. => .constrained
  | .align .. => .align
  | .anchored .. => .anchored
  | .textInput .. => .textInput
  | .scrollable .. => .scrollable

/-- The key of a description in a child slot of its parent. -/
def instanceKey (desc : WidgetDescription) (position : Nat) : InstanceKey where
  typeTag := desc.typeTag
  id := match desc.userKey with
    | some s => .user s
    | none => .position position

theorem lookup_typeTag (desc : WidgetDescription) :
    [("text",InstanceKind.text),("spans",.spans),("markdown",.markdown),("animation",.animation),("column",.column),
      ("row",.row),("padding",.padding),("stack",.stack),("expanded",.expanded),("spacer",.spacer),("fill",.fill),
      ("constrained",.constrained),("align",.align),("anchored",.anchored),("text_input",.textInput),
      ("scrollable",.scrollable)].lookup desc.typeTag = some (kindOf desc) := by
  cases desc <;> rfl

/-- A type tag belongs to one kind. -/
theorem kindOf_eq_of_typeTag {a b : WidgetDescription} (h : a.typeTag = b.typeTag) : kindOf a = kindOf b := by
  have hkind := lookup_typeTag a
  rw [h,lookup_typeTag] at hkind
  exact (Option.some.inj hkind).symm

structure WidgetInstance where
  key : InstanceKey
  children : List WidgetInstance
  state : InstanceState
  lastDesc : WidgetDescription
  layout : LayoutResult

namespace WidgetInstance

mutual
/-- How many instances a tree has. -/
def nodes : WidgetInstance → Nat
  | ⟨_,children,_,_,_⟩ => 1 + nodesOf children
def nodesOf : List WidgetInstance → Nat
  | [] => 0
  | inst :: rest => inst.nodes + nodesOf rest
end

/-- The instance at the end of a path of child slots. -/
def at? : WidgetInstance → List Nat → Option WidgetInstance
  | inst, [] => some inst
  | inst, i :: path => inst.children[i]?.bind (·.at? path)

theorem nodesOf_eq (insts : List WidgetInstance) : nodesOf insts = (insts.map nodes).sum := by
  induction insts with
  | nil => rfl
  | cons inst rest ih => rw [nodesOf,ih,List.map_cons,List.sum_cons]

theorem nodes_eq (inst : WidgetInstance) : inst.nodes = 1 + (inst.children.map nodes).sum := by
  rw [← nodesOf_eq]
  cases inst
  rfl

end WidgetInstance
end Nefor.Tui
