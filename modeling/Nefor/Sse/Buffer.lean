import Nefor.Utf8

/-! The decoder of event streams, on bytes. A text is kept by its bytes. -/
namespace Nefor.Sse

abbrev Bytes := List UInt8

/-- The bytes of the characters that mean something in a stream. -/
def lf : UInt8 := 10
def cr : UInt8 := 13
def colon : UInt8 := 58
def space : UInt8 := 32

structure SseFrame where
  data : Bytes
  event : Option Bytes
  id : Option Bytes
  retry : Option UInt64
  deriving DecidableEq, Repr

/-- An error, without its text. -/
inductive SseError
  | invalidUtf8
  deriving DecidableEq, Repr

abbrev SseResult := Except SseError SseFrame

def text (s : String) : Bytes := s.toUTF8.data.toList

/-! One frame. -/

/-- The parts between the line feeds; one that ends the text adds no part. -/
def splitLines (current : Bytes) : Bytes → List Bytes
  | [] => if current = [] then [] else [current]
  | b :: rest => if b = lf then current :: splitLines [] rest else splitLines (current ++ [b]) rest

def trimReturns (line : Bytes) : Bytes := (line.reverse.dropWhile (· = cr)).reverse

/-- `lines`, with all returns taken off the end of each line. -/
def frameLines (frame : Bytes) : List Bytes := (splitLines [] frame).map trimReturns

/-- `split_once` at the first colon. -/
def splitColon : Bytes → Option (Bytes × Bytes)
  | [] => none
  | b :: rest => if b = colon then some ([],rest) else (splitColon rest).map fun p => (b :: p.1,p.2)

def stripSpace : Bytes → Bytes
  | [] => []
  | b :: rest => if b = space then rest else b :: rest

/-- The number of some digits, if it fits. -/
def digits (bytes : Bytes) : Option UInt64 :=
  let value := bytes.foldl (fun n b => 10 * n + (b.toNat - 48)) 0
  if bytes ≠ [] ∧ bytes.all (fun b => 48 ≤ b.toNat ∧ b.toNat ≤ 57) ∧ value < UInt64.size then
    some (UInt64.ofNat value)
  else none

/-- `parse::<u64>`, which takes a sign. -/
def parseU64 : Bytes → Option UInt64
  | [] => none
  | b :: rest => if b = 43 then digits rest else digits (b :: rest)

/-- What has been read of a frame. -/
structure Fields where
  data : List Bytes
  event : Option Bytes
  id : Option Bytes
  retry : Option UInt64
  deriving DecidableEq, Repr

def Fields.empty : Fields := ⟨[],none,none,none⟩

def setField (fields : Fields) (field value : Bytes) : Fields :=
  if field = text "data" then { fields with data := fields.data ++ [value] }
  else if field = text "event" then { fields with event := some value }
  else if field = text "id" then { fields with id := some value }
  else if field = text "retry" then
    match parseU64 value with
    | some parsed => { fields with retry := some parsed }
    | none => fields
  else fields

def readLine (fields : Fields) (line : Bytes) : Fields :=
  if line.head? = some colon then fields
  else
    match splitColon line with
    | none => fields
    | some (field,value) => setField fields field (stripSpace value)

def Fields.frame (fields : Fields) : Option SseFrame :=
  if fields.data = [] then none
  else some ⟨[lf].intercalate fields.data,fields.event,fields.id,fields.retry⟩

def parseFrame (frame : Bytes) : Option SseFrame :=
  ((frameLines frame).foldl readLine .empty).frame

/-! The buffer. -/

/-- The length of the boundary the bytes begin with, if they do. -/
def boundary (bytes : Bytes) : Nat :=
  if bytes.take 2 = [lf,lf] then 2
  else if bytes.take 2 = [cr,cr] then 2
  else if bytes.take 4 = [cr,lf,cr,lf] then 4
  else 0

def findFrameEnd : Bytes → Option (Nat × Nat)
  | [] => none
  | b :: rest =>
    if boundary (b :: rest) ≠ 0 then some (0,boundary (b :: rest))
    else (findFrameEnd rest).map fun p => (p.1 + 1,p.2)

def frameResult (frame : Bytes) : Option SseResult :=
  if utf8Valid frame then (parseFrame frame).map .ok else some (.error .invalidUtf8)

/-- The loop of `drain`, with fuel; what is left stays in the buffer. -/
def drainLoop : Nat → Bytes → List SseResult × Bytes
  | 0, buf => ([],buf)
  | fuel + 1, buf =>
    match findFrameEnd buf with
    | none => ([],buf)
    | some (frameEnd,len) =>
      let (more,left) := drainLoop fuel (buf.drop (frameEnd + len))
      ((frameResult (buf.take frameEnd)).toList ++ more,left)

/-- Every round of the loop takes a boundary off, so the length of the buffer is fuel enough. -/
def drain (buf : Bytes) : List SseResult × Bytes := drainLoop buf.length buf

inductive Call
  | pushSlice (bytes : Bytes)
  | drain

/-- All that the drains of a run give, and the buffer after it. -/
def run (calls : List Call) (buf : Bytes) : List SseResult × Bytes :=
  match calls with
  | [] => ([],buf)
  | .pushSlice bytes :: rest => run rest (buf ++ bytes)
  | .drain :: rest =>
    let (out,left) := drain buf
    let (more,last) := run rest left
    (out ++ more,last)

end Nefor.Sse
