import Mathlib.Data.List.AList
import Std.Data.String.ToNat
import Nefor.Json.Value
import Nefor.ToolGate.Policy

/-! The state of the gate and the frames it sends. -/
namespace Nefor.ToolGate
open Json (Object)

/-- The characters that trimming a string drops. -/
def isWhitespace (c : Char) : Bool :=
  let n := c.toNat
  (9 ≤ n && n ≤ 13) || n = 32 || n = 133 || n = 160 || n = 5760 || (8192 ≤ n && n ≤ 8202) ||
    n = 8232 || n = 8233 || n = 8239 || n = 8287 || n = 12288

/-- Nothing is left of the string once it is trimmed. -/
def blank (s : String) : Bool := s.toList.all isWhitespace

/-- Execution authority carried by an advertised capability. -/
inductive ToolExecution
  | routed
  | providerNative (provider : String)
  deriving DecidableEq, Repr

namespace ToolExecution

def parse (value : Option Json) (source : String) : Except String ToolExecution :=
  match value with
  | none => .ok routed
  | some value => match value.asObject with
    | none => .error "execution must be an object"
    | some object =>
      if !object.all (fun e => e.1 = "kind" ∨ e.1 = "provider") then
        .error "execution has unknown field"
      else match (object.get "kind").bind Json.asStr with
        | some "routed" =>
          if (object.get "provider").isSome then
            .error "routed execution must not declare provider"
          else .ok routed
        | some "provider_native" =>
          match ((object.get "provider").bind Json.asStr).filter fun p => !blank p with
          | none => .error "provider_native execution requires a non-empty provider"
          | some provider =>
            if provider ≠ source then
              .error ("provider_native execution provider `" ++ provider ++
                "` must match advertising source `" ++ source ++ "`")
            else .ok (providerNative provider)
        | _ => .error "execution.kind must be routed or provider_native"

def wireValue : ToolExecution → Json
  | routed => .object [("kind",.string "routed")]
  | providerNative provider => .object [("kind",.string "provider_native"),("provider",.string provider)]

end ToolExecution

/-- One advertised tool. -/
structure ToolSpec where
  name : String
  description : String
  parameters : Json
  display : Json
  execution : ToolExecution
  policyDescriptions : Option Json
  deriving Repr

/-- A forwarded invocation: the caller's id, and where the call was sent. -/
structure PendingForward where
  outerId : String
  source : String
  name : String
  deriving DecidableEq, Repr

/-- One call the gate has not yet executed. The caller's policy is absent for a workflow node's
call. -/
structure PendingApproval where
  outerId : String
  innerId : String
  source : String
  name : String
  args : Json
  invokingFrom : Option String
  invocation : Option Json
  allowlist : Option Json
  approvalPolicy : Option ApprovalPolicy
  deriving Repr

def PendingApproval.forward (call : PendingApproval) : PendingForward :=
  ⟨call.outerId,call.source,call.name⟩

/-- A map of the gate. -/
abbrev Table (α : Type) := AList fun _ : String => α

structure GateState where
  advertised : Table (List ToolSpec) := ∅
  toolOwner : Table String := ∅
  toolExecution : Table ToolExecution := ∅
  /-- Active forwards keyed by inner id. -/
  pending : Table PendingForward := ∅
  /-- Calls whose source is preparing them, keyed by inner id. -/
  preparing : Table PendingApproval := ∅
  /-- Active permission requests keyed by the caller's id. -/
  awaitingApproval : Table PendingApproval := ∅
  innerIdCounter : Nat := 0
  denied : List String := []
  mode : GateMode := .safe

def innerId (n : Nat) : String := "gate-" ++ toString n

theorem innerId_injective {m n : Nat} (h : innerId m = innerId n) : m = n := by
  have hs : toString m = toString n := by
    have := congrArg String.toList h
    simp only [innerId,String.toList_append,List.append_cancel_left_eq] at this
    exact String.toList_inj.mp this
  exact Nat.repr_injective hs

namespace GateState

def rebuildOwnerMap (s : GateState) : GateState :=
  let tools := s.advertised.entries.flatMap fun e => e.2.map fun tool => (e.1,tool)
  { s with
    toolOwner := tools.foldl (fun m e => m.insert e.2.name e.1) ∅
    toolExecution := tools.foldl (fun m e => m.insert e.2.name e.2.execution) ∅ }

/-- The advertised tools with their owners, by name. -/
def specs (s : GateState) : List (String × ToolSpec) :=
  (s.advertised.entries.flatMap fun e => e.2.map fun tool => (e.1,tool)).mergeSort
    fun a b => a.2.name ≤ b.2.name

end GateState

/-- The two requests to a source. -/
inductive Phase
  | prepare
  | invoke
  deriving DecidableEq, Repr

def Phase.text : Phase → String
  | prepare => "prepare"
  | invoke => "invoke"

/-- What the gate sends. -/
inductive Frame
  | request (phase : Phase) (call : PendingApproval)
  | cancel (source innerId : String)
  | permissionRequest (call : PendingApproval) (policy : ApprovalPolicy) (reason : String)
  | resultError (outerId message : String)
  | result (pending : PendingForward) (body : Object)
  | progress (outerId : String) (body : Object)
  | modeChanged (mode : GateMode)
  | advertiseError (source message : String)
  | toolRegister (specs : List (String × ToolSpec))
  | hello (version : String)
  | goodbye

namespace Frame

/-- The entries of a body whose optional fields are absent. -/
def present (entries : List (String × Option Json)) : List (String × Json) :=
  entries.filterMap fun e => e.2.map fun v => (e.1,v)

def requestBody (phase : Phase) (call : PendingApproval) : Object := Object.ofList (present [
  ("kind",some (.string (call.source ++ ".tool." ++ phase.text))),
  ("id",some (.string call.innerId)),
  ("caller_id",some (.string call.outerId)),
  ("from",call.invokingFrom.map .string),
  ("invocation",call.invocation),
  ("allowlist",call.allowlist),
  match call.approvalPolicy with
    | some policy => ("approval_policy",some (.string policy.asStr))
    | none => ("workflow_node",some (.bool true)),
  ("name",some (.string call.name)),
  ("args",some call.args)])

def permissionRequestBody (call : PendingApproval) (policy : ApprovalPolicy) (reason : String) :
    Object := Object.ofList (present [
  ("kind",some (.string "chat.tool.permission_request")),
  ("id",some (.string call.outerId)),
  ("tool",some (.string call.name)),
  ("args",some call.args),
  ("approval_policy",some (.string policy.asStr)),
  ("reason",some (.string reason)),
  ("allowlist",call.allowlist)])

def resultErrorBody (id message : String) : Object := Object.ofList [
  ("kind",.string "tool.result"),("id",.string id),("error",.string message)]

def toolRegisterBody (specs : List (String × ToolSpec)) : Object :=
  let tool (e : String × ToolSpec) : Json := .object (Object.ofList (present [
    ("name",some (.string e.2.name)),
    ("owner",some (.string e.1)),
    ("description",some (.string e.2.description)),
    ("parameters",some e.2.parameters),
    ("display",some e.2.display),
    ("execution",some e.2.execution.wireValue),
    ("policy_descriptions",e.2.policyDescriptions)]))
  Object.ofList [("kind",.string "tool.register"),("tools",.array (specs.map tool))]

/-- The body of a frame on the wire. -/
def body : Frame → Object
  | request phase call => requestBody phase call
  | cancel source innerId =>
    Object.ofList [("kind",.string (source ++ ".tool.cancel")),("id",.string innerId)]
  | permissionRequest call policy reason => permissionRequestBody call policy reason
  | resultError id message => resultErrorBody id message
  | result pending body =>
    ((body.insert "kind" (.string "tool.result")).insert "id" (.string pending.outerId)).insert
      "name" (.string pending.name)
  | progress outerId body => body.insert "id" (.string outerId)
  | modeChanged mode =>
    Object.ofList [("kind",.string "tool-gate.mode_changed"),("mode",.string mode.asStr)]
  | advertiseError source message => Object.ofList [
    ("kind",.string "tool-gate.advertise_error"),
    ("source",.string source),("message",.string message)]
  | toolRegister specs => toolRegisterBody specs
  | hello version => Object.ofList [("kind",.string "tool-gate.hello"),("version",.string version)]
  | goodbye =>
    Object.ofList [("kind",.string "tool-gate.goodbye"),("reason",.string "stream closed")]

/-- The caller's id of a terminal answer. -/
def terminalId (frame : Frame) : Option String :=
  if (frame.body.get "kind").bind Json.asStr = some "tool.result" then
    (frame.body.get "id").bind Json.asStr
  else none

theorem get_present {entries : List (String × Option Json)} (h : (entries.map (·.1)).Nodup)
    (key : String) : (Object.ofList (present entries)).get key = (entries.lookup key).join := by
  have hs : ((present entries).map (·.1)).Sublist (entries.map (·.1)) := by
    induction entries with
    | nil => exact .slnil
    | cons e rest ih =>
      obtain ⟨k,v⟩ := e
      have ih := ih (List.nodup_cons.mp h).2
      cases v with
      | none => simpa [present] using ih.cons k
      | some v => simpa [present] using ih.cons_cons k
  rw [Object.get_ofList (hs.nodup h)]
  clear hs
  induction entries with
  | nil => rfl
  | cons e rest ih =>
    obtain ⟨k,v⟩ := e
    have hn := List.nodup_cons.mp h
    have ih := ih hn.2
    have hlook : (present rest).lookup key = (rest.lookup key).join := ih
    by_cases hk : key = k
    · subst hk
      cases v with
      | some v => simp [present]
      | none =>
        have hnone : rest.lookup key = none := by
          rw [List.lookup_eq_none_iff]
          intro e he
          have hne : e.1 ≠ key := fun hek => hn.1 (List.mem_map.mpr ⟨e,he,hek⟩)
          simpa using hne.symm
        rw [hnone] at hlook
        simpa [present] using hlook
    · cases v <;> simpa [present,List.lookup_cons,beq_eq_false_iff_ne.mpr hk] using hlook

/-- A kind that ends like the requests to a source is not that of a terminal answer. -/
theorem kind_ne {source suffix : String} (h : suffix.toList.getLast? ≠ some 't')
    (hs : suffix.toList ≠ []) : source ++ suffix ≠ "tool.result" := by
  intro he
  have hl := congrArg (fun s => s.toList.getLast?) he
  simp only [String.toList_append,List.getLast?_append_of_ne_nil _ hs] at hl
  exact h hl

theorem terminalId_eq_none {frame : Frame} {kind : String}
    (h : frame.body.get "kind" = some (.string kind)) (hk : kind ≠ "tool.result") :
    frame.terminalId = none := by simp [terminalId,h,Json.asStr,hk]

theorem terminalId_ofList {frame : Frame} {kind : String} {entries : List (String × Json)}
    (hbody : frame.body = Object.ofList (("kind",.string kind) :: entries))
    (hnodup : ((("kind",Json.string kind) :: entries).map (·.1)).Nodup) (hk : kind ≠ "tool.result") :
    frame.terminalId = none :=
  terminalId_eq_none (by rw [hbody,Object.get_ofList hnodup,List.lookup_cons_self]) hk

@[simp] theorem terminalId_resultError (id message : String) :
    (resultError id message).terminalId = some id := by
  have hb : ∀ key, (resultError id message).body.get key =
      [("kind",Json.string "tool.result"),("id",.string id),("error",.string message)].lookup key :=
    Object.get_ofList (by simp)
  simp [terminalId,hb,List.lookup_cons,Json.asStr]

@[simp] theorem terminalId_result (pending : PendingForward) (body : Object) :
    (result pending body).terminalId = some pending.outerId := by
  simp [terminalId,Frame.body,Object.get_insert,Json.asStr]

@[simp] theorem terminalId_cancel (source innerId : String) :
    (cancel source innerId).terminalId = none :=
  terminalId_ofList rfl (by simp) (kind_ne (by decide) (by decide))

@[simp] theorem terminalId_request (phase : Phase) (call : PendingApproval) :
    (request phase call).terminalId = none := by
  have hk : (request phase call).body.get "kind" =
      some (.string (call.source ++ (".tool." ++ phase.text))) := by
    change (requestBody phase call).get "kind" = _
    rw [requestBody,get_present]
    · simp [String.append_assoc]
    · cases call.approvalPolicy <;> simp
  refine terminalId_eq_none hk ?_
  cases phase <;> exact kind_ne (by decide) (by decide)

@[simp] theorem terminalId_permissionRequest (call : PendingApproval) (policy : ApprovalPolicy)
    (reason : String) : (permissionRequest call policy reason).terminalId = none := by
  have hk : (permissionRequest call policy reason).body.get "kind" =
      some (.string "chat.tool.permission_request") := by
    change (permissionRequestBody call policy reason).get "kind" = _
    rw [permissionRequestBody,get_present]
    · rfl
    · simp
  exact terminalId_eq_none hk (by decide)

@[simp] theorem terminalId_modeChanged (mode : GateMode) :
    (modeChanged mode).terminalId = none :=
  terminalId_ofList rfl (by simp) (by decide)

@[simp] theorem terminalId_advertiseError (source message : String) :
    (advertiseError source message).terminalId = none :=
  terminalId_ofList rfl (by simp) (by decide)

@[simp] theorem terminalId_toolRegister (specs : List (String × ToolSpec)) :
    (toolRegister specs).terminalId = none :=
  terminalId_ofList rfl (by simp) (by decide)

@[simp] theorem terminalId_hello (version : String) : (hello version).terminalId = none :=
  terminalId_ofList rfl (by simp) (by decide)

@[simp] theorem terminalId_goodbye : goodbye.terminalId = none :=
  terminalId_ofList rfl (by simp) (by decide)

theorem terminalId_progress {outerId : String} {body : Object}
    (h : (body.get "kind").bind Json.asStr = some "tool.stream") :
    (progress outerId body).terminalId = none := by
  simp [terminalId,Frame.body,Object.get_insert,h]

end Frame
end Nefor.ToolGate
