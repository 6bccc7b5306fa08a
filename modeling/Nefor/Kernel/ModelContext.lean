import Mathlib.Algebra.Order.Ring.Nat
import Nefor.Utf8

/-! What a provider is shown of the outputs of nodes: texts cut to a budget, with a marker where
something is left out (`model-context.lua`). Strings are bytes. -/
namespace Nefor.Kernel

abbrev Bytes := List UInt8

def itemLimit : Nat := 32 * 1024

/-- `TURN_LIMIT`, the limit of one continuation. -/
def turnLimit : Nat := 96 * 1024

def headTarget : Nat := itemLimit * 3 / 4

def tailTarget : Nat := itemLimit - headTarget

/-! Cutting. -/

/-- The length of an encoding that begins with a byte that is no byte of ASCII. -/
def width (byte : UInt8) : Nat := if byte < 224 then 2 else if byte < 240 then 3 else 4

/-- The loop of `utf8_head`, which walks back from a byte. -/
def headLoop (value : Bytes) (limit : Nat) : Nat → Bytes
  | 0 => []
  | start + 1 =>
    let byte := value.getD start 0
    if byte < 128 then value.take (start + 1)
    else if 192 ≤ byte then
      let finish := start + width byte
      value.take (if finish ≤ limit then finish else start)
    else headLoop value limit start

def utf8Head (value : Bytes) (limit : Nat) : Bytes :=
  if value.length ≤ limit then value else headLoop value limit limit

/-- The loop of `utf8_tail`, which passes over the bytes inside an encoding. -/
def tailLoop : Bytes → Bytes
  | [] => []
  | byte :: rest => if byte < 128 ∨ 192 ≤ byte then byte :: rest else tailLoop rest

def utf8Tail (value : Bytes) (limit : Nat) : Bytes :=
  if value.length ≤ limit then value else tailLoop (value.drop (value.length - limit))

/-! The marker. -/

/-- A path that is no string, or empty, is no path. -/
def location : Option Bytes → Bytes
  | none => ascii "Full output is unavailable (no persisted output path)."
  | some path =>
    if path = [] then ascii "Full output is unavailable (no persisted output path)."
    else ascii "Full output: " ++ path

def marker (original omittedStart omittedEnd : Nat) (path : Option Bytes) : Bytes :=
  ascii "\n\n[output truncated: original " ++ decimal original ++ ascii " bytes; omitted " ++
    decimal (omittedEnd - omittedStart) ++ ascii " bytes at zero-based half-open range [" ++
    decimal omittedStart ++ ascii ", " ++ decimal omittedEnd ++ ascii "). " ++ location path ++ ascii "]\n\n"

/-! One text. -/

/-- The head and the tail that are kept when so many bytes were kept before. -/
def keep (value : Bytes) (budget : Nat) (path : Option Bytes) (retained : Nat) : Bytes × Bytes :=
  let original := value.length
  let note := marker original (min original retained) original path
  let room := budget - note.length
  let headRoom := min headTarget (room * 3 / 4)
  let tailRoom := min tailTarget (room - headRoom)
  let spare := room - headRoom - tailRoom
  (utf8Head value (headRoom + spare),utf8Tail value tailRoom)

def cut (value : Bytes) (path : Option Bytes) (kept : Bytes × Bytes) : Bytes :=
  kept.1 ++ marker value.length kept.1.length (value.length - kept.2.length) path ++ kept.2

/-- The rounds that are left; after the last one the text itself is cut. -/
def renderLoop (value : Bytes) (budget : Nat) (path : Option Bytes) : Nat → Nat → Bytes → Bytes
  | 0, _, text => utf8Head text budget
  | rounds + 1, retained, _ =>
    let kept := keep value budget path retained
    let text := cut value path kept
    if text.length ≤ budget then text
    else renderLoop value budget path rounds (kept.1.length + kept.2.length) text

def render (value : Bytes) (budget : Nat) (path : Option Bytes) : Bytes :=
  if value.length ≤ budget then value
  else if budget = 0 then []
  else renderLoop value budget path 8 (min value.length budget) (marker value.length 0 value.length path)

/-! The budgets. -/

/-- The sizes, and the budgets of those that have one. -/
abbrev Filling := List (Nat × Option Nat)

structure Pass where
  entries : Filling
  remaining : Nat
  count : Nat
  satisfied : Bool

/-- The loop that gives their size to the entries no larger than the share. -/
def satisfy (share : Nat) : Filling → Nat → Nat → Bool → Pass
  | [], remaining, count, satisfied => ⟨[],remaining,count,satisfied⟩
  | (size,some budget) :: rest, remaining, count, satisfied =>
    let pass := satisfy share rest remaining count satisfied
    { pass with entries := (size,some budget) :: pass.entries }
  | (size,none) :: rest, remaining, count, satisfied =>
    if size ≤ share then
      let pass := satisfy share rest (remaining - size) (count - 1) true
      { pass with entries := (size,some size) :: pass.entries }
    else
      let pass := satisfy share rest remaining count satisfied
      { pass with entries := (size,none) :: pass.entries }

/-- The loop that divides what remains among the other entries. -/
def divideRest (share : Nat) : Filling → Nat → Filling
  | [], _ => []
  | (size,some budget) :: rest, extra => (size,some budget) :: divideRest share rest extra
  | (size,none) :: rest, extra =>
    (size,some (share + if 0 < extra then 1 else 0)) :: divideRest share rest (extra - 1)

/-- The rounds that are left. Each of them satisfies an entry or is the last, so there are no more
than entries. -/
def allocate : Nat → Filling → Nat → Nat → Filling
  | 0, entries, _, _ => entries
  | rounds + 1, entries, remaining, count =>
    if count = 0 then entries
    else
      let share := remaining / count
      let pass := satisfy share entries remaining count false
      if pass.satisfied then allocate rounds pass.entries pass.remaining pass.count
      else divideRest share pass.entries (pass.remaining - share * pass.count)

def allocations (sizes : List Nat) (total : Nat) : List Nat :=
  (allocate sizes.length (sizes.map fun size => (size,none)) total sizes.length).map fun e => e.2.getD 0

/-! All entries of a continuation. -/

structure Entry (ν : Type) where
  value : ν
  outputPath : Option Bytes

/-- What is shown: a value as it is, or a text. -/
inductive Projected (ν : Type)
  | value (value : ν)
  | text (text : Bytes)

section
variable {ν : Type} (textual : ν → Bytes)

def sizes (entries : List (Entry ν)) : List Nat := entries.map fun e => min (textual e.value).length itemLimit

def budgets (entries : List (Entry ν)) : List Nat :=
  if (sizes textual entries).sum ≤ turnLimit then sizes textual entries
  else allocations (sizes textual entries) turnLimit

def projectEntry (preserveUnderLimit : Bool) (entry : Entry ν) (budget : Nat) : Projected ν :=
  if preserveUnderLimit ∧ (textual entry.value).length ≤ budget then .value entry.value
  else .text (render (textual entry.value) budget entry.outputPath)

/-- `project`, for the text that stands for a value. -/
def project (entries : List (Entry ν)) (preserveUnderLimit : Bool) : List (Projected ν) :=
  (entries.zip (budgets textual entries)).map fun e => projectEntry textual preserveUnderLimit e.1 e.2

/-- The text that is shown. -/
def Projected.shown : Projected ν → Bytes
  | .value v => textual v
  | .text t => t

end
end Nefor.Kernel
