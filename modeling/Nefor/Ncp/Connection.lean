import Mathlib.Data.List.DropRight
import Mathlib.Tactic.Common

/-! One plugin connection: the frames it admits and what its reader hands over. -/
namespace Nefor.Ncp

abbrev PluginName := String

/-- Ids are issued once each and say nothing about the order of the connections. -/
abbrev ConnectionId := Nat

/-- Why a reader loop stopped. -/
inductive ReaderEnd
  | eof
  | ioError
  | invalidUtf8
  | lineTooLong
  deriving DecidableEq, Repr

inductive WriterEnd
  | writeIo
  | flushIo
  deriving DecidableEq, Repr

namespace WriterEnd

def phase : WriterEnd → String
  | writeIo => "write"
  | flushIo => "flush"

def kind : WriterEnd → String
  | writeIo => "write_io"
  | flushIo => "flush_io"

end WriterEnd

/-- What a reader sends to the broker. -/
inductive ConnectionInbound
  | line (line : String)
  | closed (reason : ReaderEnd)
  deriving DecidableEq, Repr

/-- Closed account of how a plugin process ended. -/
inductive ExitOutcome
  | cleanExit
  | exitCode (code : Int32)
  | signal (signal : Int32)
  | crash
  | spawnFailure (reason : String)
  | unknown (reason : String)
  deriving DecidableEq, Repr

def maxLineBytes : Nat := 16 * 1024 * 1024

inductive AdmissionError
  | frameTooLarge (bytes limitBytes : Nat)
  | invalidFraming
  | unavailable (target : PluginName)
  | writerClosed (target : PluginName)
  deriving DecidableEq, Repr

/-- One final line feed is dropped; the size counts it again. -/
def admitFrame (payload : String) : Except AdmissionError String :=
  let text := payload.toList
  let text := if text.getLast? = some '\n' then text.dropLast else text
  if '\n' ∈ text then .error .invalidFraming
  else
    let payload := String.ofList text
    let bytes := payload.utf8ByteSize + 1
    if bytes > maxLineBytes then .error (.frameTooLarge bytes maxLineBytes) else .ok payload

def withTrailingNewline (s : String) : String :=
  if s.toList.getLast? = some '\n' then s else s.push '\n'

/-! The reader. -/

inductive StreamEnd
  | eof
  | ioError
  deriving DecidableEq, Repr

/-- All that a plugin writes, and how its stream ends. -/
structure Output where
  bytes : List UInt8
  ending : StreamEnd
  deriving DecidableEq, Repr

/-- The stream cut after each line feed, and what follows the last one. -/
def frames : List UInt8 → List (List UInt8) × List UInt8
  | [] => ([],[])
  | byte :: rest =>
    let (complete,left) := frames rest
    if byte = 10 then ([byte] :: complete,left)
    else match complete with
      | [] => ([],byte :: left)
      | frame :: more => ((byte :: frame) :: more,left)

/-- A frame as a line, its end trimmed. -/
def readLine (frame : List UInt8) : Except ReaderEnd String :=
  if frame.length > maxLineBytes then .error .lineTooLong
  else match String.fromUTF8? (ByteArray.mk frame.toArray) with
    | none => .error .invalidUtf8
    | some line => .ok (String.ofList (line.toList.rdropWhile fun c => c = '\n' ∨ c = '\r'))

/-- The line in a frame, if there is one and it is not empty. -/
def frameLine (frame : List UInt8) : Option String :=
  match readLine frame with
  | .error _ => none
  | .ok line => if line = "" then none else some line

/-- The frames one after the other, up to the first that cannot be read. -/
def readFrames (final : ReaderEnd) : List (List UInt8) → List ConnectionInbound
  | [] => [.closed final]
  | frame :: rest => match readLine frame with
    | .error reason => [.closed reason]
    | .ok line => if line = "" then readFrames final rest else .line line :: readFrames final rest

namespace Output

/-- At the end of a stream what is left over is a frame too; an error loses it. -/
def frames (output : Output) : List (List UInt8) :=
  let (complete,left) := Ncp.frames output.bytes
  match output.ending with
  | .eof => if left = [] then complete else complete ++ [left]
  | .ioError => complete

/-- The lines the plugin wrote. -/
def lines (output : Output) : List String := output.frames.filterMap frameLine

end Output

/-- All that the reader of a connection sends. -/
def runReader (output : Output) : List ConnectionInbound :=
  match output.ending with
  | .eof => readFrames .eof output.frames
  | .ioError =>
    readFrames (if (frames output.bytes).2.length > maxLineBytes then .lineTooLong else .ioError)
      output.frames

namespace ConnectionInbound

def line? : ConnectionInbound → Option String
  | .line text => some text
  | .closed _ => none

end ConnectionInbound

/-- The lines among what was received. -/
def linesOf (messages : List ConnectionInbound) : List String := messages.filterMap ConnectionInbound.line?

@[simp] theorem linesOf_append (xs ys : List ConnectionInbound) :
    linesOf (xs ++ ys) = linesOf xs ++ linesOf ys := List.filterMap_append

/-- The end of the stream is the last thing a reader sends, and a good one comes after all lines. -/
theorem readFrames_ends (final : ReaderEnd) (fs : List (List UInt8)) :
    ∃ ls r, readFrames final fs = ls.map .line ++ [.closed r] ∧ ls <+: fs.filterMap frameLine ∧
      (r = .eof → ls = fs.filterMap frameLine) := by
  induction fs with
  | nil => exact ⟨[],final,rfl,List.prefix_refl _,fun _ => rfl⟩
  | cons frame rest ih =>
    obtain ⟨ls,r,hread,hpre,heof⟩ := ih
    rw [readFrames,List.filterMap_cons,frameLine]
    cases hl : readLine frame with
    | error reason =>
      refine ⟨[],reason,rfl,List.nil_prefix,fun h => ?_⟩
      subst h
      unfold readLine at hl
      split at hl
      · cases hl
      · split at hl <;> cases hl
    | ok line =>
      by_cases hempty : line = ""
      · refine ⟨ls,r,?_,?_,fun h => ?_⟩
        · simp [hempty,hread]
        · simpa [hempty] using hpre
        · simp [hempty,heof h]
      · refine ⟨line :: ls,r,?_,?_,fun h => ?_⟩
        · simp [hempty,hread]
        · simpa [hempty] using hpre
        · simp [hempty,heof h]

theorem runReader_ends (output : Output) :
    ∃ ls r, runReader output = ls.map .line ++ [.closed r] ∧ ls <+: output.lines ∧
      (r = .eof → ls = output.lines) := by
  unfold runReader
  split
  · exact readFrames_ends _ output.frames
  · exact readFrames_ends _ output.frames

@[simp] theorem linesOf_map (ls : List String) : linesOf (ls.map .line) = ls := by
  simp [linesOf,ConnectionInbound.line?,List.filterMap_map,Function.comp_def]

@[simp] theorem linesOf_closed (reason : ReaderEnd) : linesOf [.closed reason] = [] := rfl

/-- A reader hands over lines that were written, in their order. -/
theorem linesOf_runReader (output : Output) : linesOf (runReader output) <+: output.lines := by
  obtain ⟨ls,r,hread,hpre,-⟩ := runReader_ends output
  rw [hread,linesOf_append,linesOf_map,linesOf_closed,List.append_nil]
  exact hpre

end Nefor.Ncp
