import Nefor.Json.Equality
import Nefor.Json.Text
import Nefor.Protocol.Timestamp

/-! Envelopes, their lines and the parser of these. -/
namespace Nefor.Protocol
open Json (Object)

/-- A wire identity, which is never empty. -/
structure PluginName where
  name : String
  nonempty : name ≠ ""
  deriving DecidableEq, Repr

inductive MessageKind
  | system
  | event
  deriving DecidableEq, Repr

inductive ErrorCode
  | protocolVersionMismatch
  | invalidReady
  | malformedEnvelope
  | bodyNotObject
  | unknownKind
  | queueOverflow
  | rateLimited
  deriving DecidableEq, Repr

structure Offending where
  sender : PluginName
  ts : Timestamp
  deriving DecidableEq, Repr

inductive SystemBody
  | ready (protocolVersion : String)
  | readyOk (engineVersion : String)
  | shutdown (reason : Option String) (graceMs : Option UInt64)
  | error (code : ErrorCode) (message : String) (offending : Option Offending)
  deriving DecidableEq, Repr

inductive Body
  | system (body : SystemBody)
  | event (map : Object)
  deriving DecidableEq, Repr

/-- A stamped envelope; `sender` is its field `from`. -/
structure Envelope where
  kind : MessageKind
  sender : PluginName
  ts : Timestamp
  body : Body
  deriving DecidableEq, Repr

structure PluginOutgoing where
  kind : MessageKind
  body : Body
  deriving DecidableEq, Repr

namespace Envelope

def system (sender : PluginName) (ts : Timestamp) (body : SystemBody) : Envelope :=
  ⟨.system,sender,ts,.system body⟩

def event (sender : PluginName) (ts : Timestamp) (body : Object) : Envelope :=
  ⟨.event,sender,ts,.event body⟩

end Envelope

namespace PluginOutgoing

def system (body : SystemBody) : PluginOutgoing := ⟨.system,.system body⟩

def event (body : Object) : PluginOutgoing := ⟨.event,.event body⟩

end PluginOutgoing

/-! Printing. Objects hold their entries in the order of insertion. -/

def MessageKind.text : MessageKind → String
  | system => "system"
  | event => "event"

def ErrorCode.text : ErrorCode → String
  | protocolVersionMismatch => "protocol_version_mismatch"
  | invalidReady => "invalid_ready"
  | malformedEnvelope => "malformed_envelope"
  | bodyNotObject => "body_not_object"
  | unknownKind => "unknown_kind"
  | queueOverflow => "queue_overflow"
  | rateLimited => "rate_limited"

def Offending.value (o : Offending) : Json :=
  .object [("from",.string o.sender.name),("ts",.string o.ts.toIso8601)]

/-- An entry that is skipped when there is nothing to say. -/
def skipNone {α : Type} (key : String) (value : Option α) (f : α → Json) : Object :=
  match value with
  | none => []
  | some a => [(key,f a)]

/-- The entries of a system body, after its kind. -/
def SystemBody.fields : SystemBody → Object
  | ready version => [("protocol_version",.string version)]
  | readyOk version => [("engine_version",.string version)]
  | shutdown reason graceMs => skipNone "reason" reason .string ++
      skipNone "grace_ms" graceMs fun n => .number (.posInt n.toFin)
  | error code message offending => [("code",.string code.text),("message",.string message)] ++
      skipNone "offending" offending Offending.value

def SystemBody.kind : SystemBody → String
  | ready _ => "ready"
  | readyOk _ => "ready_ok"
  | shutdown .. => "shutdown"
  | error .. => "error"

def encodeBody : Body → Json
  | .system body => .object (("kind",.string body.kind) :: body.fields)
  | .event map => .object map

def encodeEnvelope (e : Envelope) : Json :=
  .object [("type",.string e.kind.text),("from",.string e.sender.name),("ts",.string e.ts.toIso8601),
    ("body",encodeBody e.body)]

def encodeOutgoing (o : PluginOutgoing) : Json :=
  .object [("type",.string o.kind.text),("body",encodeBody o.body)]

def Envelope.toLine (w : World) (e : Envelope) : String := (encodeEnvelope e).compact w.float

def PluginOutgoing.toLine (w : World) (o : PluginOutgoing) : String :=
  (encodeOutgoing o).compact w.float

/-! Parsing. -/

/-- The system kinds whose errors are about a field of the body. -/
inductive SystemBodyKind
  | readyOk
  | shutdown
  | error
  deriving DecidableEq, Repr

inductive InvalidBodyReason
  | missingField (field : String)
  | wrongFieldType (field expected : String)
  | extraField (name : String)
  | invalidEnumValue (field value expected : String)
  deriving DecidableEq, Repr

inductive ParseError
  | invalidJson (error : String)
  | notAnObject
  | missingField (field : String)
  | wrongType (field expected : String)
  | extraFields (names : List String)
  | bodyNotObject
  | invalidType (value : String)
  | unknownKind (kind : String)
  | systemBodyMissingKind
  | systemBodyKindNotString
  /-- The version that was found, or what stood in its place. -/
  | invalidReadyBody (raw : String)
  | invalidSystemBody (kind : SystemBodyKind) (reason : InvalidBodyReason)
  | outgoingHasStampedField (field : String)
  | invalidTimestamp (error : String)
  | emptyFrom
  deriving DecidableEq, Repr

/-- `Map::remove`: the last entry takes the place of the one that goes. -/
def swapRemove (key : String) : Object → Object
  | [] => []
  | e :: rest =>
    if e.1 = key then
      match rest.getLast? with
      | none => []
      | some last => last :: rest.dropLast
    else e :: swapRemove key rest

def takeString (obj : Object) (field : String) :
    Except InvalidBodyReason (Option String × Object) :=
  match obj.get field with
  | none | some .null => .ok (none,swapRemove field obj)
  | some (.string s) => .ok (some s,swapRemove field obj)
  | some _ => .error (.wrongFieldType field "string")

/-- A field that must hold a string. -/
def needString (obj : Object) (field : String) : Except InvalidBodyReason (String × Object) := do
  let (value,obj) ← takeString obj field
  match value with
  | none => .error (.missingField field)
  | some s => .ok (s,obj)

def rejectExtras (obj : Object) : Except InvalidBodyReason Unit :=
  match obj with
  | [] => .ok ()
  | e :: _ => .error (.extraField e.1)

/-- Digits, a full stop, and digits. -/
def majorMinor (s : String) : Bool :=
  match s.toList.splitOn '.' with
  | [major,minor] => major ≠ [] ∧ minor ≠ [] ∧ major.all Char.isDigit ∧ minor.all Char.isDigit
  | _ => false

def isValidProtocolVersion (w : World) (s : String) : Bool := w.semver s || majorMinor s

def parseReady (w : World) (obj : Object) : Except String SystemBody :=
  match obj.get "protocol_version" with
  | none | some .null => .error ""
  | some (.string version) =>
    match swapRemove "protocol_version" obj with
    | e :: _ => .error e.1
    | [] => if isValidProtocolVersion w version then .ok (.ready version) else .error version
  | some other => .error (other.compact w.float)

def parseReadyOk (obj : Object) : Except InvalidBodyReason SystemBody := do
  let (engineVersion,obj) ← needString obj "engine_version"
  rejectExtras obj
  return .readyOk engineVersion

/-- `as_u64`. -/
def asU64 : JsonNumber → Option UInt64
  | .posInt n => some (.ofFin n)
  | .negInt _ | .float _ => none

def takeGrace (obj : Object) : Except InvalidBodyReason (Option UInt64) :=
  match obj.get "grace_ms" with
  | none | some .null => .ok none
  | some (.number n) => match asU64 n with
    | some v => .ok (some v)
    | none => .error (.wrongFieldType "grace_ms" "non-negative integer")
  | some _ => .error (.wrongFieldType "grace_ms" "non-negative integer")

def parseShutdown (obj : Object) : Except InvalidBodyReason SystemBody := do
  let (reason,obj) ← takeString obj "reason"
  let graceMs ← takeGrace obj
  rejectExtras (swapRemove "grace_ms" obj)
  return .shutdown reason graceMs

def parseErrorCode (s : String) : Except InvalidBodyReason ErrorCode :=
  match s with
  | "protocol_version_mismatch" => .ok .protocolVersionMismatch
  | "invalid_ready" => .ok .invalidReady
  | "malformed_envelope" => .ok .malformedEnvelope
  | "body_not_object" => .ok .bodyNotObject
  | "unknown_kind" => .ok .unknownKind
  | "queue_overflow" => .ok .queueOverflow
  | "rate_limited" => .ok .rateLimited
  | _ => .error (.invalidEnumValue "code" s
      "a §8 error code (e.g. \"malformed_envelope\", \"invalid_ready\")")

def parseOffending (w : World) (obj : Object) : Except InvalidBodyReason Offending := do
  let (fromRaw,obj) ← needString obj "from"
  let (tsRaw,obj) ← needString obj "ts"
  rejectExtras obj
  if h : fromRaw ≠ "" then
    let ts ← (Timestamp.parse w tsRaw).mapError fun _ =>
      .wrongFieldType "ts" "ISO-8601 UTC timestamp"
    return ⟨⟨fromRaw,h⟩,ts⟩
  else .error (.wrongFieldType "from" "non-empty string")

def takeOffending (w : World) (obj : Object) : Except InvalidBodyReason (Option Offending) :=
  match obj.get "offending" with
  | none | some .null => .ok none
  | some (.object map) => (parseOffending w map).map some
  | some _ => .error (.wrongFieldType "offending" "object")

def parseErrorBody (w : World) (obj : Object) : Except InvalidBodyReason SystemBody := do
  let (codeRaw,obj) ← needString obj "code"
  let code ← parseErrorCode codeRaw
  let (message,obj) ← needString obj "message"
  let offending ← takeOffending w obj
  rejectExtras (swapRemove "offending" obj)
  return .error code message offending

/-- The body of a kind, from the entries that are left. -/
def parseBodyOf (w : World) (obj : Object) (kind : String) : Except ParseError SystemBody :=
  match kind with
  | "ready" => (parseReady w obj).mapError .invalidReadyBody
  | "ready_ok" => (parseReadyOk obj).mapError (.invalidSystemBody .readyOk)
  | "shutdown" => (parseShutdown obj).mapError (.invalidSystemBody .shutdown)
  | "error" => (parseErrorBody w obj).mapError (.invalidSystemBody .error)
  | _ => .error (.unknownKind kind)

def parseSystemBody (w : World) (obj : Object) : Except ParseError SystemBody :=
  match obj.get "kind" with
  | none => .error .systemBodyMissingKind
  | some (.string kind) => parseBodyOf w (swapRemove "kind" obj) kind
  | some _ => .error .systemBodyKindNotString

/-- Step 1, for a stamped envelope: no key beyond the four. -/
def checkStampedKeys (obj : Object) : Except ParseError Unit :=
  let extras := (obj.map (·.1)).filter (· ∉ ["type","from","ts","body"])
  if extras = [] then .ok () else .error (.extraFields extras)

/-- Step 1, for what a plugin sends: the first stamp is reported before any extra key. -/
def checkOutgoingKeys (obj : Object) : Except ParseError Unit :=
  match (obj.map (·.1)).find? fun key => key = "from" ∨ key = "ts" with
  | some field => .error (.outgoingHasStampedField field)
  | none =>
    let extras := (obj.map (·.1)).filter (· ∉ ["type","body"])
    if extras = [] then .ok () else .error (.extraFields extras)

def takeText (obj : Object) (field : String) : Except ParseError (String × Object) :=
  match obj.get field with
  | none => .error (.missingField field)
  | some (.string s) => .ok (s,swapRemove field obj)
  | some _ => .error (.wrongType field "string")

/-- Step 2. -/
def takeKind (obj : Object) : Except ParseError (MessageKind × Object) := do
  let (kindStr,obj) ← takeText obj "type"
  match kindStr with
  | "system" => .ok (.system,obj)
  | "event" => .ok (.event,obj)
  | _ => .error (.invalidType kindStr)

/-- Step 3, for a stamped envelope. -/
def takeStamps (w : World) (obj : Object) : Except ParseError ((PluginName × Timestamp) × Object) := do
  let (s,obj) ← takeText obj "from"
  if h : s ≠ "" then
    let (raw,obj) ← takeText obj "ts"
    let ts ← (Timestamp.parse w raw).mapError fun e =>
      .invalidTimestamp ("invalid ISO-8601 UTC timestamp: " ++ e)
    return ((⟨s,h⟩,ts),obj)
  else .error .emptyFrom

/-- Steps 4 and 5. -/
def takeBody (w : World) (kind : MessageKind) (obj : Object) : Except ParseError Body :=
  match obj.get "body" with
  | none => .error (.missingField "body")
  | some (.object body) =>
    match kind with
    | .system => (parseSystemBody w body).map .system
    | .event => .ok (.event body)
  | some _ => .error .bodyNotObject

def readObject (w : World) (line : String) : Except ParseError Object :=
  match w.read line with
  | .error e => .error (.invalidJson e)
  | .ok (.object map) => .ok map
  | .ok _ => .error .notAnObject

def Envelope.parseLine (w : World) (line : String) : Except ParseError Envelope := do
  let obj ← readObject w line
  checkStampedKeys obj
  let (kind,obj) ← takeKind obj
  let ((sender,ts),obj) ← takeStamps w obj
  let body ← takeBody w kind obj
  return ⟨kind,sender,ts,body⟩

def PluginOutgoing.parseLine (w : World) (line : String) : Except ParseError PluginOutgoing := do
  let obj ← readObject w line
  checkOutgoingKeys obj
  let (kind,obj) ← takeKind obj
  let body ← takeBody w kind obj
  return ⟨kind,body⟩

end Nefor.Protocol
