import Mathlib.Algebra.BigOperators.Pi
import Mathlib.Algebra.Order.Ring.Nat
import Mathlib.Data.List.AList
import Nefor.Action
import Nefor.Lua.Value

/-! Ordered routes and value transformations of one run (`topology.lua`). An arrival is a value here. In
the source, a delivery writes its edge, wire and declared type into the arrival itself, which a queued
arrival sees when no transform has copied it; the values that it carries stay what they were. -/
namespace Nefor.Kernel.Topology
open Nefor.Lua Nefor.Action

structure Constructor where
  id : String
  payloadId : String

/-- What the semantic host answers about descriptors, and its JSON `null`. -/
structure Semantic (D : Type) where
  id : D → Option String
  accepts : D → D → Bool
  validateValue : D → LuaValue → Bool
  constructor : D → String → Except String Constructor
  unit : D
  list : D → D
  null : LuaValue

/-- A typed value on its way (`typed-value.lua`). -/
structure Arrival (D : Type) where
  arrivalId : String
  sender : String
  edgeId : Option String
  typeId : String
  type : D
  declaredTypeId : String
  declaredType : D
  constructorId : Option String
  protocolWire : String
  productPosition : Int
  payload : LuaValue
  controlMetadata : LuaValue

/-- One slot of a product that is put together at its destination. Its slot is one of its inputs, which
the preflight of a modification requires. -/
structure Assembly (D : Type) where
  inputs : List D
  output : D
  slot : Nat
  path : List Int
  slot_lt : slot < inputs.length

inductive Transform (D : Type)
  | unit (input : D)
  | project (input output : D) (index : Nat)
  | pack (owner payload : D) (constructor : String)
  | unpack (owner payload : D) (constructor : String)
  | assemble (spec : Assembly D)
  | emptyList (item : D)

structure Port (D : Type) where
  id : String
  wire : String
  type : D
  typeId : String

structure Route (D : Type) where
  id : String
  source : Port D
  target : Port D
  transforms : List (Transform D)

structure Message (D : Type) where
  target : Port D
  semanticType : D
  semanticTypeId : String
  content : LuaValue
  transforms : List (Transform D)

structure Leaf (D : Type) where
  port : Port D
  steps : List (Transform D)

/-- The result boundary of a run: its leaves, and the flows that lead to the result without an actor. -/
structure Boundary (D : Type) where
  leaves : List (Leaf D)
  through : List (List (Transform D))

/-- What waits in a slot. -/
structure Queued (D : Type) where
  arrival : Arrival D
  remaining : List (Transform D)

/-- The slots of an assembly and what waits in them. -/
structure Cohort (D : Type) where
  inputs : List D
  output : D
  queues : Nat → List (Queued D)
  inputs_ne : inputs ≠ []

/-- An arrival at a slot, and what came of it. The cohort is the one it joined, the arrival included. -/
structure Assembling (D : Type) where
  destination : String
  spec : Assembly D
  entry : Queued D
  cohort : Cohort D
  outcome : Except String (Option (Arrival D × List (Transform D)))

/-- The state of the topology. The history is not kept by the source. -/
structure State (D : Type) where
  routes : List (Route D)
  assemblies : AList fun _ : String => Cohort D
  initialSeq : Nat
  result : Option (Boundary D)
  history : List (Assembling D)

def State.new {D : Type} : State D where
  routes := []
  assemblies := ∅
  initialSeq := 0
  result := none
  history := []

/-- A result as it is settled. -/
structure Observed (D : Type) where
  payload : LuaValue
  semanticType : D
  semanticTypeId : String
  constructorId : Option String
  arrivalId : String

section
variable {D : Type}

def Port.address (port : Port D) : String :=
  "actor:" ++ toString port.id.utf8ByteSize ++ ":" ++ port.id ++ ":" ++ port.wire

def Arrival.source (arrival : Arrival D) : LuaValue := if arrival.payload.isTable then arrival.payload else .record []

/-- The first value of `payload_values`. -/
def Arrival.raw (arrival : Arrival D) : LuaValue := arrival.source.get "value"

/-- The second value of `payload_values`. -/
def Arrival.semantic (arrival : Arrival D) : LuaValue :=
  if (arrival.source.get "semantic_value").isNil then arrival.raw else arrival.source.get "semantic_value"

def Arrival.dynamic (arrival : Arrival D) : LuaValue := arrival.source.get "dynamic"

/-- A list with the array mark of `nefor.json`. -/
def markArray (values : List LuaValue) : LuaValue := .table true (LuaValue.arrayFrom 1 values)

variable (host : Semantic D)

/-- A `nil` has to stay present in a list. -/
def arrayValue (value : LuaValue) : LuaValue := if value.isNil then host.null else value

def preserveTransport (source target : Fields) : Fields :=
  ["messages","calls","dynamic","output_path"].foldl
    (fun target field => if (source.get field).isNil then target else target.set field (source.get field)) target

/-- The streamed end of a dynamic list carries no value. -/
def validates (descriptor : D) (value : LuaValue) (arrival : Option (Arrival D)) : Bool :=
  (arrival.any fun arrival => (arrival.dynamic.get "kind").rawEq (.str "complete")) || host.validateValue descriptor value

def validateValue (descriptor : D) (value : LuaValue) (label : String) (arrival : Option (Arrival D)) :
    Except String Unit :=
  if validates host descriptor value arrival then .ok () else .error (label ++ " has malformed semantic value")

def setPresent (fields : Fields) (name : String) (value : LuaValue) : Fields :=
  if value.isNil then fields else fields.set name value

def derived (arrival : Arrival D) (descriptor : D) (wire : String) (value semanticValue : LuaValue)
    (constructorId : Option String) (preserve : Bool) : Except String (Arrival D) :=
  let payload : Fields := [(.str "kind",.str wire)]
  let payload := if preserve then preserveTransport arrival.source.fields payload else payload
  let payload := setPresent (setPresent payload "value" value) "semantic_value" semanticValue
  match host.id descriptor with
  | none => .error "transform descriptor has no semantic id"
  | some id => .ok { arrivalId := arrival.arrivalId
                     sender := arrival.sender
                     edgeId := arrival.edgeId
                     typeId := id
                     type := descriptor
                     declaredTypeId := id
                     declaredType := descriptor
                     constructorId := some (constructorId.getD id)
                     protocolWire := wire
                     productPosition := -1
                     payload := .table false payload
                     controlMetadata := arrival.controlMetadata }

def assemblyKey (destination : String) (path : List Int) : String :=
  destination ++ "#" ++ String.join (path.map fun value => toString value ++ ".")

/-- Take the first entry of each slot in turn. An entry is taken before it is validated. -/
def takeEntries : List (Nat × D) → Action (Nat → List (Queued D)) String (List (Queued D))
  | [] => pure []
  | (index,input) :: rest => fun queues =>
    match queues index with
    | [] => (.error "attempt to index a nil value",queues)
    | entry :: more =>
      let queues := Function.update queues index more
      match validateValue host input (arrayValue host entry.arrival.semantic)
          ("assembly slot " ++ toString index) (some entry.arrival) with
      | .error message => (.error message,queues)
      | .ok () =>
        match takeEntries rest queues with
        | (.error message,queues) => (.error message,queues)
        | (.ok entries,queues) => (.ok (entry :: entries),queues)

/-- The product of the entries that were taken, and how it goes on. -/
def Cohort.product (cohort : Cohort D) (entries : List (Queued D)) : Except String (Option (Arrival D × List (Transform D))) :=
  let values := markArray (entries.map fun entry => arrayValue host entry.arrival.raw)
  let semantics := markArray (entries.map fun entry => arrayValue host entry.arrival.semantic)
  match entries with
  | [] => .error "attempt to index a nil value"
  | first :: _ => do
    validateValue host cohort.output semantics "assembly output" none
    let arrival ← derived host first.arrival cohort.output first.arrival.protocolWire values semantics none false
    return some (arrival,first.remaining)

def Cohort.push (cohort : Cohort D) (slot : Nat) (entry : Queued D) : Cohort D where
  inputs := cohort.inputs
  output := cohort.output
  queues := Function.update cohort.queues slot (cohort.queues slot ++ [entry])
  inputs_ne := cohort.inputs_ne

/-- A value waits in every slot. -/
def Cohort.complete (cohort : Cohort D) : Bool :=
  (List.range cohort.inputs.length).all fun index => !(cohort.queues index).isEmpty

def State.cohort (topology : State D) (destination : String) (spec : Assembly D) : Cohort D :=
  match topology.assemblies.lookup (assemblyKey destination spec.path) with
  | some cohort => cohort
  | none => ⟨spec.inputs,spec.output,fun _ => [],List.ne_nil_of_length_pos (Nat.zero_lt_of_lt spec.slot_lt)⟩

/-- `assemble`: the cohort is kept with its entries taken even where one of them is refused. -/
def assemble (destination : String) (spec : Assembly D) (arrival : Arrival D) (remaining : List (Transform D)) :
    Action (State D) String (Option (Arrival D × List (Transform D))) := fun topology =>
  let entry : Queued D := ⟨arrival,remaining⟩
  let cohort := (topology.cohort destination spec).push spec.slot entry
  let ending : Except String (Option (Arrival D × List (Transform D))) × (Nat → List (Queued D)) :=
    if cohort.complete then
      match takeEntries host ((List.range cohort.inputs.length).zip cohort.inputs) cohort.queues with
      | (.error message,queues) => (.error message,queues)
      | (.ok entries,queues) => (cohort.product host entries,queues)
    else (.ok none,cohort.queues)
  (ending.1,{ topology with
    assemblies := topology.assemblies.insert (assemblyKey destination spec.path) { cohort with queues := ending.2 }
    history := topology.history ++ [⟨destination,spec,entry,cohort,ending.1⟩] })

/-- An item of a list; `false` is lost on the way. -/
def item (value : LuaValue) (position : Int) : LuaValue :=
  if (value.fields.index (.int position)).truthy then value.fields.index (.int position) else .nil

/-- The steps of `transform` other than an assembly. -/
def applyStep (arrival : Arrival D) : Transform D → Except String (Option (Arrival D))
  | .unit input => do
    validateValue host input arrival.semantic "Unit input" (some arrival)
    some <$> derived host arrival host.unit arrival.protocolWire .nil .nil none false
  | .project input output index => do
    validateValue host input arrival.semantic "Project input" (some arrival)
    some <$> derived host arrival output arrival.protocolWire (item arrival.raw (index + 1))
      (item arrival.semantic (index + 1)) none true
  | .pack owner _ constructor => do
    let evidence ← host.constructor owner constructor
    if arrival.dynamic.truthy then
      some <$> derived host arrival owner arrival.protocolWire arrival.raw arrival.semantic (some evidence.id) true
    else
      some <$> derived host arrival owner arrival.protocolWire
        (.record [("constructor",.str constructor),("value",arrival.raw)])
        (.record [("constructor",.str constructor),("value",arrival.semantic)]) (some evidence.id) true
  | .unpack owner payload constructor =>
    if arrival.dynamic.truthy then do
      let evidence ← host.constructor owner constructor
      if arrival.constructorId ≠ some evidence.id then .ok none
      else some <$> derived host arrival payload arrival.protocolWire arrival.raw arrival.semantic (some evidence.payloadId) true
    else if !((arrival.raw.get "constructor").rawEq (.str constructor)) then .ok none
    else if !((arrival.semantic.get "constructor").rawEq (.str constructor)) then
      .error "Unpack semantic constructor differs from raw value"
    else some <$> derived host arrival payload arrival.protocolWire (arrival.raw.get "value") (arrival.semantic.get "value")
      none true
  | .emptyList item => some <$> derived host arrival (host.list item) arrival.protocolWire (markArray []) (markArray []) none false
  | .assemble _ => .ok none

/-! An assembly takes more transforms out of its queues than it goes on with. -/

def waiting (entries : List (Queued D)) : Nat := (entries.map fun entry => entry.remaining.length + 1).sum

def slotsWeight (count : Nat) (queues : Nat → List (Queued D)) : Nat := ∑ index ∈ Finset.range count, waiting (queues index)

def Cohort.weight (cohort : Cohort D) : Nat := slotsWeight cohort.inputs.length cohort.queues

def State.weight (topology : State D) : Nat := (topology.assemblies.entries.map fun entry => entry.2.weight).sum

theorem slotsWeight_update {count index : Nat} {queues : Nat → List (Queued D)} {entries : List (Queued D)}
    (h : index < count) : slotsWeight count (Function.update queues index entries) + waiting (queues index) =
      slotsWeight count queues + waiting entries := by
  unfold slotsWeight
  have hcomp : (fun x => waiting (Function.update queues index entries x)) =
      Function.update (fun x => waiting (queues x)) index (waiting entries) := by
    funext x
    by_cases hx : x = index
    · subst hx
      simp only [Function.update_self]
    · simp only [Function.update_of_ne hx]
  rw [hcomp,Finset.sum_update_of_mem (Finset.mem_range.mpr h),Finset.sdiff_singleton_eq_erase]
  have hsum := Finset.add_sum_erase _ (fun x => waiting (queues x)) (Finset.mem_range.mpr h)
  omega

theorem takeEntries_weight {count : Nat} {slots : List (Nat × D)} {queues queues' : Nat → List (Queued D)}
    {entries : List (Queued D)} (hslots : ∀ slot ∈ slots, slot.1 < count)
    (h : takeEntries host slots queues = (.ok entries,queues')) :
    slotsWeight count queues' + waiting entries = slotsWeight count queues := by
  induction slots generalizing queues entries with
  | nil =>
    cases h
    rfl
  | cons slot rest ih =>
    obtain ⟨index,input⟩ := slot
    have hindex := hslots _ List.mem_cons_self
    unfold takeEntries at h
    split at h
    · cases h
    · rename_i entry more hqueue
      simp only at h
      split at h
      · cases h
      · split at h
        · cases h
        · rename_i taken queues'' htaken
          cases h
          have hrest := ih (fun slot hslot => hslots slot (List.mem_cons_of_mem _ hslot)) htaken
          have hupdate := @slotsWeight_update _ _ _ queues more hindex
          rw [hqueue] at hupdate
          simp only [waiting,List.map_cons,List.sum_cons] at hrest hupdate ⊢
          omega

theorem weight_push (cohort : Cohort D) (slot : Nat) (entry : Queued D) :
    (cohort.push slot entry).weight ≤ cohort.weight + (entry.remaining.length + 1) := by
  unfold Cohort.weight Cohort.push
  by_cases h : slot < cohort.inputs.length
  · have hupdate := @slotsWeight_update _ _ _ cohort.queues (cohort.queues slot ++ [entry]) h
    have hwait : waiting (cohort.queues slot ++ [entry]) = waiting (cohort.queues slot) + (entry.remaining.length + 1) := by
      simp only [waiting,List.map_append,List.sum_append,List.map_cons,List.map_nil,List.sum_cons,List.sum_nil,Nat.add_zero]
    simp only
    omega
  · have hsame : slotsWeight cohort.inputs.length (Function.update cohort.queues slot (cohort.queues slot ++ [entry])) =
        slotsWeight cohort.inputs.length cohort.queues := by
      apply Finset.sum_congr rfl
      intro x hx
      rw [Function.update_of_ne (by have := Finset.mem_range.mp hx; omega)]
    simp only [hsame]
    omega

theorem weight_lookup (key : String) (entries : List (Sigma fun _ : String => Cohort D)) :
    (entries.map fun entry => entry.2.weight).sum =
      ((entries.dlookup key).elim 0 Cohort.weight) + ((entries.kerase key).map fun entry => entry.2.weight).sum := by
  induction entries with
  | nil => rfl
  | cons entry rest ih =>
    obtain ⟨name,cohort⟩ := entry
    by_cases h : key = name
    · subst h
      have herase : List.kerase key (⟨key,cohort⟩ :: rest) = rest := List.kerase_cons_eq rfl
      rw [List.dlookup_cons_eq,herase]
      rfl
    · rw [List.dlookup_cons_ne _ _ h,List.kerase_cons_ne h]
      simp only [List.map_cons,List.sum_cons,ih]
      omega

theorem product_rest {cohort : Cohort D} {entries : List (Queued D)} {product : Arrival D} {rest : List (Transform D)}
    (h : cohort.product host entries = .ok (some (product,rest))) :
    rest.length + 1 ≤ waiting entries := by
  cases entries with
  | nil => cases h
  | cons first more =>
    unfold Cohort.product at h
    simp only [bind,Except.bind] at h
    split at h
    · cases h
    · split at h
      · cases h
      · cases h
        simp only [waiting,List.map_cons,List.sum_cons]
        omega

theorem slots_lt {cohort : Cohort D} : ∀ slot ∈ (List.range cohort.inputs.length).zip cohort.inputs,
    slot.1 < cohort.inputs.length := fun _ hslot => List.mem_range.mp (List.of_mem_zip hslot).1

theorem assemble_weight {destination : String} {spec : Assembly D} {arrival product : Arrival D}
    {remaining rest : List (Transform D)} {topology topology' : State D}
    (h : assemble host destination spec arrival remaining topology = (.ok (some (product,rest)),topology')) :
    topology'.weight + rest.length ≤ topology.weight + remaining.length := by
  have hpush := weight_push (topology.cohort destination spec) spec.slot ⟨arrival,remaining⟩
  have hlookup := weight_lookup (assemblyKey destination spec.path) topology.assemblies.entries
  have hcohort : (topology.cohort destination spec).weight =
      (topology.assemblies.entries.dlookup (assemblyKey destination spec.path)).elim 0 Cohort.weight := by
    unfold State.cohort AList.lookup
    cases topology.assemblies.entries.dlookup (assemblyKey destination spec.path) with
    | none =>
      unfold Cohort.weight slotsWeight
      simp [waiting]
    | some cohort => rfl
  unfold assemble at h
  simp only [Prod.mk.injEq] at h
  obtain ⟨hending,rfl⟩ := h
  simp only [State.weight,AList.entries_insert,List.map_cons,List.sum_cons]
  split at hending
  · rename_i hcomplete
    split at hending
    · cases hending
    · rename_i entries queues htake
      have htaken := takeEntries_weight host slots_lt htake
      have hrest := product_rest host hending
      simp only [if_pos hcomplete]
      unfold Cohort.weight at hpush hlookup hcohort ⊢
      simp only at hpush hlookup hcohort ⊢
      omega
  · cases hending

/-- `transform`. What is left after an assembly are the transforms that its first entry had before it. -/
def transform (destination : String) (arrival : Arrival D) (transforms : List (Transform D)) (topology : State D) :
    Except String (Option (Arrival D)) × State D :=
  match transforms with
  | [] => (.ok (some arrival),topology)
  | .assemble spec :: rest =>
    match _h : assemble host destination spec arrival rest topology with
    | (.error message,topology) => (.error message,topology)
    | (.ok none,topology) => (.ok none,topology)
    | (.ok (some (arrival,remaining)),topology) => transform destination arrival remaining topology
  | step :: rest =>
    match applyStep host arrival step with
    | .error message => (.error message,topology)
    | .ok none => (.ok none,topology)
    | .ok (some arrival) => transform destination arrival rest topology
termination_by topology.weight + transforms.length
decreasing_by
  · have hweight := assemble_weight host _h
    simp only [List.length_cons]
    omega
  · simp only [List.length_cons]
    omega

/-- A delivery to an actor, and the settlement of a result. -/
structure Hooks (D : Type) where
  dispatch : String → Port D → Arrival D → Action (State D) String Unit
  settleResult : String → Observed D → Action (State D) String Unit

variable (hooks : Hooks D)

def Port.declare (port : Port D) (arrival : Arrival D) : Arrival D :=
  { arrival with protocolWire := port.wire, declaredType := port.type, declaredTypeId := port.typeId }

/-- `initial`. -/
def initial (message : Message D) : Action (State D) String Unit := do
  update fun topology => { topology with initialSeq := topology.initialSeq + 1 }
  let topology ← read
  let arrivalId := "initial:" ++ toString topology.initialSeq
  let arrival : Arrival D := { arrivalId := arrivalId
                               sender := "mag.control"
                               edgeId := some ("initial:" ++ arrivalId)
                               typeId := message.semanticTypeId
                               type := message.semanticType
                               declaredTypeId := message.semanticTypeId
                               declaredType := message.semanticType
                               constructorId := some message.semanticTypeId
                               protocolWire := message.target.wire
                               productPosition := -1
                               payload := message.content
                               controlMetadata := .nil }
  let transformed ← transform host message.target.address arrival message.transforms
  match transformed with
  | none => pure ()
  | some transformed => hooks.dispatch message.target.id message.target (message.target.declare transformed)

/-- The loop of `route` over the routes that are installed as it begins. A delivery without transforms
writes into the arrival that the later routes take. -/
def routeEach (sender wire : String) : List (Route D) → Arrival D → Action (State D) String Unit
  | [], _ => pure ()
  | route :: rest, arrival => do
    if route.source.id = sender ∧ route.source.wire = wire then
      let transformed ← transform host route.target.address arrival route.transforms
      match transformed with
      | none => routeEach sender wire rest arrival
      | some transformed =>
        let delivered := { route.target.declare transformed with edgeId := some route.id }
        hooks.dispatch route.target.id route.target delivered
        routeEach sender wire rest (if route.transforms.isEmpty then delivered else arrival)
    else routeEach sender wire rest arrival

/-- `route`. -/
def route (sender wire : String) (arrival : Arrival D) : Action (State D) String Unit := do
  let topology ← read
  routeEach host hooks sender wire topology.routes arrival

/-- What a result boundary observes of an arrival. -/
def Arrival.observe (arrival : Arrival D) : Observed D where
  payload := arrival.payload
  semanticType := arrival.type
  semanticTypeId := arrival.typeId
  constructorId := arrival.constructorId
  arrivalId := arrival.arrivalId

/-- The loop of `observe_result` over the leaves. -/
def observeEach (sender wire : String) (arrival : Arrival D) : List (Leaf D) → Bool → Action (State D) String Bool
  | [], terminal => pure terminal
  | leaf :: rest, terminal => do
    if leaf.port.id = sender ∧ leaf.port.wire = wire then
      let transformed ← transform host "result" arrival leaf.steps
      match transformed with
      | none => observeEach sender wire arrival rest terminal
      | some transformed =>
        if transformed.dynamic.isNil ∨ (transformed.dynamic.get "kind").rawEq (.str "complete") then
          hooks.settleResult sender { transformed.observe with
            payload := .table false (transformed.payload.fields.set "kind" (.str "out"))
            constructorId := transformed.constructorId <|> some transformed.typeId }
          observeEach sender wire arrival rest true
        else observeEach sender wire arrival rest terminal
    else observeEach sender wire arrival rest terminal

/-- `observe_result`. -/
def observeResult (sender wire : String) (arrival : Arrival D) : Action (State D) String Bool := do
  let topology ← read
  match topology.result with
  | none => pure false
  | some boundary => observeEach host hooks sender wire arrival boundary.leaves false

/-- The loop of `bootstrap_result` over the flows from `index` on. -/
def bootstrapEach (unitId : String) : Nat → List (List (Transform D)) → Bool → Action (State D) String Bool
  | _, [], settled => pure settled
  | index, steps :: rest, settled => do
    let arrivalId := "result:" ++ toString index
    let arrival : Arrival D := { arrivalId := arrivalId
                                 sender := "mag.control"
                                 edgeId := some ("initial:" ++ arrivalId)
                                 typeId := unitId
                                 type := host.unit
                                 declaredTypeId := unitId
                                 declaredType := host.unit
                                 constructorId := some unitId
                                 protocolWire := "mag.Unit"
                                 productPosition := -1
                                 payload := .record [("kind",.str "mag.Unit")]
                                 controlMetadata := .nil }
    let transformed ← transform host "result" arrival steps
    match transformed with
    | none => bootstrapEach unitId (index + 1) rest settled
    | some transformed =>
      hooks.settleResult "mag.result" transformed.observe
      bootstrapEach unitId (index + 1) rest true

/-- `bootstrap_result`. -/
def bootstrapResult : Action (State D) String Bool := do
  let topology ← read
  match topology.result with
  | none => pure false
  | some boundary =>
    match host.id host.unit with
    | none => if boundary.through.isEmpty then pure false else fail "typed arrival needs type_id"
    | some unitId => bootstrapEach host hooks unitId 1 boundary.through false

def setResult (boundary : Option (Boundary D)) (topology : State D) : State D := { topology with result := boundary }

/-- `install`: the routes become those that a preflight has found. -/
def install (routes : List (Route D)) (topology : State D) : State D := { topology with routes := routes }

structure Snapshot (D : Type) where
  routes : List (Route D)
  assemblies : AList fun _ : String => Cohort D
  initialSeq : Nat

def snapshot (topology : State D) : Snapshot D := ⟨topology.routes,topology.assemblies,topology.initialSeq⟩

/-- `restore`. The cohorts of a snapshot are those of the topology itself, and no arrival comes between. -/
def restore (snapshot : Snapshot D) (topology : State D) : State D :=
  { topology with routes := snapshot.routes, assemblies := snapshot.assemblies, initialSeq := snapshot.initialSeq }

end

end Nefor.Kernel.Topology
