import Nefor.Sse.Buffer

/-! The event stream format, as lines and events. -/
namespace Nefor.Sse.Format

/-- The lines of a stream. A line feed right after a return belongs to the return; a line that has
no end yet is left out. -/
def lines (afterReturn : Bool) (current : Bytes) : Bytes → List Bytes
  | [] => []
  | b :: rest =>
    if afterReturn ∧ b = lf then lines false current rest
    else if b = lf ∨ b = cr then current :: lines (b = cr) [] rest
    else lines false (current ++ [b]) rest

/-- A blank line ends an event; an event has lines, and one that has no end is left out. -/
def events (current : List Bytes) : List Bytes → List (List Bytes)
  | [] => []
  | line :: rest =>
    if line ≠ [] then events (current ++ [line]) rest
    else if current = [] then events [] rest
    else current :: events [] rest

/-- A field without a colon has the empty value, and one space before the value is no part of it. -/
def field (line : Bytes) : Bytes × Bytes :=
  match splitColon line with
  | none => (line,[])
  | some (name,value) => (name,stripSpace value)

/-- A line that begins with a colon is a comment, and a retry value is valid when it is a number. -/
def interpret (fields : Fields) (line : Bytes) : Fields :=
  if line.head? = some colon then fields
  else
    let (name,value) := field line
    if name = text "data" then { fields with data := fields.data ++ [value] }
    else if name = text "event" then { fields with event := some value }
    else if name = text "id" then { fields with id := some value }
    else if name = text "retry" ∧ (digits value).isSome then { fields with retry := digits value }
    else fields

def decodeEvent (event : List Bytes) : Option SseResult :=
  if event.all utf8Valid then ((event.foldl interpret .empty).frame).map .ok
  else some (.error .invalidUtf8)

/-- What a stream says. -/
def decode (bytes : Bytes) : List SseResult := (events [] (lines false [] bytes)).filterMap decodeEvent

end Nefor.Sse.Format
