import Mathlib.Tactic.Common

/-! Widget descriptions (`desc.rs`): what a render gives, of which the instances keep the last. -/
namespace Nefor.Tui

inductive Color
  | reset
  | indexed (index : UInt8)
  | rgb (r g b : UInt8)
  deriving DecidableEq, Repr

structure Style where
  fg : Option Color
  bg : Option Color
  bold : Bool
  italic : Bool
  underline : Bool
  reverse : Bool
  strikethrough : Bool
  deriving DecidableEq, Repr

/-- `Style::default()`. -/
def Style.empty : Style := ⟨none,none,false,false,false,false,false⟩

inductive WrapMode
  | word
  | char
  | none
  | ellipsis
  | tail
  | tailEllipsis
  deriving DecidableEq, Repr

structure Span where
  text : String
  style : Style
  deriving DecidableEq, Repr

structure HeadingStyle where
  style : Style
  prefixGlyph : Option Char
  deriving DecidableEq, Repr

structure MarkdownTheme where
  bold : Option Style
  italic : Option Style
  code : Option Style
  codeBlock : Option Style
  h1 : Option HeadingStyle
  h2 : Option HeadingStyle
  h3 : Option HeadingStyle
  h4 : Option HeadingStyle
  h5 : Option HeadingStyle
  h6 : Option HeadingStyle
  link : Option Style
  blockquote : Option Style
  listMarker : Option Style
  strikethrough : Option Style
  deriving DecidableEq, Repr

inductive AnimationFrame
  | text (text : String)
  | spans (spans : List Span)
  deriving DecidableEq, Repr

inductive AnimationDirection
  | forward
  | reverse
  | alternate
  deriving DecidableEq, Repr

inductive FlexFit
  | tight
  | loose
  deriving DecidableEq, Repr

inductive Alignment
  | topLeft
  | top
  | topRight
  | left
  | center
  | right
  | bottomLeft
  | bottom
  | bottomRight
  deriving DecidableEq, Repr

inductive Anchor
  | topLeft
  | top
  | topRight
  | left
  | center
  | right
  | bottomLeft
  | bottom
  | bottomRight
  deriving DecidableEq, Repr

inductive Dimension
  | intrinsic
  | cells (cells : UInt16)
  | percent (percent : UInt8)
  deriving DecidableEq, Repr

inductive StickTo
  | start
  | finish
  deriving DecidableEq, Repr

inductive ScrollbarMode
  | auto
  | always
  | never
  deriving DecidableEq, Repr

structure ScrollableStyle where
  scrollbarFg : Option Color
  scrollbarBg : Option Color
  thumb : Option Color
  deriving DecidableEq, Repr

structure TextInputStyle where
  fg : Option Color
  bg : Option Color
  cursor : Option Color
  selectionBg : Option Color
  placeholder : Option Color
  deriving DecidableEq, Repr

inductive WidgetDescription
  | text (content : String) (style : Option Style) (wrap : WrapMode) (key : Option String)
  | spans (spans : List Span) (wrap : WrapMode) (key : Option String)
  | markdown (source : String) (theme : Option MarkdownTheme) (wrap : WrapMode) (key : Option String)
  | animation (frames : List AnimationFrame) (durationMs : UInt64) (iterations : Option UInt32)
    (direction : AnimationDirection) (key : Option String)
  | column (children : List WidgetDescription) (gap : UInt16) (key : Option String) (selectable : Bool)
  | row (children : List WidgetDescription) (gap : UInt16) (key : Option String)
  | padding (top right bottom left : UInt16) (child : WidgetDescription) (key : Option String)
  | stack (children : List WidgetDescription) (key : Option String)
  | expanded (flex : UInt16) (fit : FlexFit) (child : WidgetDescription) (key : Option String)
  | spacer (flex : UInt16) (key : Option String)
  | fill (char : String) (style : Option Style) (key : Option String)
  | constrained (minWidth maxWidth minHeight maxHeight : Option UInt16) (child : WidgetDescription)
    (key : Option String)
  | align (alignment : Alignment) (child : WidgetDescription) (key : Option String)
  | anchored (anchor : Anchor) (offsetX offsetY : Int16) (width height : Dimension) (child : WidgetDescription)
    (key : Option String)
  | scrollable (key : Option String) (child : WidgetDescription) (stickTo : Option StickTo)
    (onScroll : Option String) (scrollbar : ScrollbarMode) (style : Option ScrollableStyle) (selectable : Bool)
    (virtualContentHeight : Option UInt16)
  | textInput (key : Option String) (value : String) (focused : Bool) (onChange onSubmit : Option String)
    (minLines maxLines : UInt16) (placeholder : Option String) (cursorBlink : Bool) (style : Option TextInputStyle)
    (selectable : Bool)

namespace WidgetDescription

/-- Static type tag used as half of the reconciler's match key. -/
def typeTag : WidgetDescription → String
  | text .. => "text"
  | spans .. => "spans"
  | markdown .. => "markdown"
  | animation .. => "animation"
  | column .. => "column"
  | row .. => "row"
  | padding .. => "padding"
  | stack .. => "stack"
  | expanded .. => "expanded"
  | spacer .. => "spacer"
  | fill .. => "fill"
  | constrained .. => "constrained"
  | align .. => "align"
  | anchored .. => "anchored"
  | textInput .. => "text_input"
  | scrollable .. => "scrollable"

/-- User-supplied `key` field, if any. -/
def userKey : WidgetDescription → Option String
  | text _ _ _ key => key
  | spans _ _ key => key
  | markdown _ _ _ key => key
  | animation _ _ _ _ key => key
  | column _ _ key _ => key
  | row _ _ key => key
  | padding _ _ _ _ _ key => key
  | stack _ key => key
  | expanded _ _ _ key => key
  | spacer _ key => key
  | fill _ _ key => key
  | constrained _ _ _ _ _ key => key
  | align _ _ key => key
  | anchored _ _ _ _ _ _ key => key
  | scrollable key _ _ _ _ _ _ _ => key
  | textInput key _ _ _ _ _ _ _ _ _ _ => key

/-- A leaf whose size comes from the description alone. -/
def isLeaf : WidgetDescription → Bool
  | text .. | spans .. | markdown .. | animation .. | spacer .. | fill .. => true
  | _ => false

/-- `==`, where one of the two is a leaf. -/
def leafEq : WidgetDescription → WidgetDescription → Bool
  | text content style wrap key, text content' style' wrap' key' =>
    content = content' ∧ style = style' ∧ wrap = wrap' ∧ key = key'
  | spans runs wrap key, spans runs' wrap' key' => runs = runs' ∧ wrap = wrap' ∧ key = key'
  | markdown source theme wrap key, markdown source' theme' wrap' key' =>
    source = source' ∧ theme = theme' ∧ wrap = wrap' ∧ key = key'
  | animation frames durationMs iterations direction key, animation frames' durationMs' iterations' direction' key' =>
    frames = frames' ∧ durationMs = durationMs' ∧ iterations = iterations' ∧ direction = direction' ∧ key = key'
  | spacer flex key, spacer flex' key' => flex = flex' ∧ key = key'
  | fill char style key, fill char' style' key' => char = char' ∧ style = style' ∧ key = key'
  | _, _ => false

/-- The descriptions in the child slots. -/
def children : WidgetDescription → List WidgetDescription
  | text .. | spans .. | markdown .. | animation .. | spacer .. | fill .. | textInput .. => []
  | column children _ _ _ => children
  | row children _ _ => children
  | stack children _ => children
  | padding _ _ _ _ child _ => [child]
  | expanded _ _ child _ => [child]
  | constrained _ _ _ _ child _ => [child]
  | align _ child _ => [child]
  | anchored _ _ _ _ _ child _ => [child]
  | scrollable _ child _ _ _ _ _ _ => [child]

theorem leafEq_self {a : WidgetDescription} (h : a.isLeaf = true) : a.leafEq a = true := by
  cases a <;> cases h <;> simp [leafEq]

theorem eq_of_leafEq {a b : WidgetDescription} (h : a.leafEq b = true) : a = b := by
  unfold leafEq at h
  split at h <;> simp_all

theorem leafEq_iff {a b : WidgetDescription} (h : b.isLeaf = true) : a.leafEq b = true ↔ a = b := by
  constructor
  · exact eq_of_leafEq
  · rintro rfl
    exact leafEq_self h

theorem sizeOf_child {desc child : WidgetDescription} (h : child ∈ desc.children) : sizeOf child < sizeOf desc := by
  have hlist {children : List WidgetDescription} (hmem : child ∈ children) : sizeOf child < sizeOf children :=
    List.sizeOf_lt_of_mem hmem
  cases desc <;> simp only [children,List.mem_singleton,List.not_mem_nil] at h
  all_goals first
    | subst h
      simp
      omega
    | have hsize := hlist h
      simp
      omega

/-- A property of all descriptions, when each has it whose child slots have it. -/
theorem byChildren {P : WidgetDescription → Prop} (h : ∀ desc, (∀ child ∈ desc.children, P child) → P desc)
    (desc : WidgetDescription) : P desc := by
  induction hsize : sizeOf desc using Nat.strongRecOn generalizing desc with
  | _ size ih =>
    apply h
    intro child hmem
    exact ih (sizeOf child) (hsize ▸ sizeOf_child hmem) child rfl

end WidgetDescription
end Nefor.Tui
