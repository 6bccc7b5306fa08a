import Mathlib.Data.List.AList
import Nefor.Lua.Table

/-! The actors that a traversal of a dynamic list is made of (`dynamic-each.lua`, `dynamic-index.lua`,
`dynamic-output.lua`, `dynamic-all.lua`), and the check of what they stream (`routing.lua`). -/
namespace Nefor.Kernel.Dynamic
open Nefor.Lua

/-- A number that is whole and not negative. -/
def wholeNumber : LuaValue → Option Nat
  | .num (.int i) => if 0 ≤ i then some i.toNat else none
  | .num (.float q) => if 0 ≤ q ∧ q.den = 1 then some q.num.toNat else none
  | _ => none

def natural (n : Nat) : LuaValue := .num (.int n)

def indexed (collection : String) (index value : LuaValue) : LuaValue :=
  .record [("collection",.str collection),("index",index),("value",value)]

/-- A constructor of a dynamic event with its payload. -/
def tagged (name : String) (value : LuaValue) : LuaValue := .record [("constructor",.str name),("value",value)]

/-- An element of a stream, raw and semantic. -/
def itemMessage (wire id : String) (collection index : LuaValue) (v : LuaValue × LuaValue) : LuaValue :=
  .record [("kind",.str wire),("from",.str id),("value",v.1),("semantic_value",v.2),
    ("dynamic",.record [("kind",.str "item"),("collection",collection),("index",index)])]

def completeMessage (wire id : String) (collection count : LuaValue) : LuaValue :=
  .record [("kind",.str wire),("from",.str id),
    ("dynamic",.record [("kind",.str "complete"),("collection",collection),("count",count)])]

def okCompletion : LuaValue := .record [("status",.str "ok")]

def failedCompletion (id kind field : String) (value : LuaValue) : LuaValue :=
  .record [("status",.str "failed"),("failure",.str "mag.Failed"),
    ("value",.record [("kind",.str kind),("actor",.str id),(field,value)])]

/-- What a call of an instance leaves, emits and returns. -/
structure Turn (σ : Type) where
  state : σ
  emitted : List LuaValue
  completion : Option LuaValue

/-- `dynamic-each`. -/
structure Each where
  active : Option String
  nextIndex : Nat
  finished : Bool

namespace Each

def start : Each := ⟨none,0,false⟩

def failure (s : Each) (id kind : String) (protocol : LuaValue) : Turn Each :=
  ⟨{ s with finished := true },[],some (failedCompletion id kind "protocol" protocol)⟩

def deliver (s : Each) (id : String) (message : LuaValue) : Turn Each :=
  let protocol := message.get "dynamic"
  let value := message.get "value"
  match s.finished, protocol.get "collection" with
  | false, .str collection =>
    let active := s.active.getD collection
    let s := { s with active := some active }
    if collection ≠ active then s.failure id "dynamic_each_collection_changed" protocol
    else if (protocol.get "kind").rawEq (.str "item") then
      if !(protocol.get "index").rawEq (natural s.nextIndex) || value.isNil then
        s.failure id "dynamic_each_noncontiguous_item" protocol
      else ⟨{ s with nextIndex := s.nextIndex + 1 },[.record [("kind",.str "nefor.dynamic.Indexed"),("from",.str id),
        ("value",indexed active (natural s.nextIndex) value),
        ("semantic_value",indexed active (natural s.nextIndex) ((message.get "semantic_value").orElse value))]],none⟩
    else if (protocol.get "kind").rawEq (.str "complete") then
      if !(protocol.get "count").rawEq (natural s.nextIndex) then s.failure id "dynamic_each_wrong_final_count" protocol
      else ⟨{ s with finished := true },[.record [("kind",.str "nefor.dynamic.Complete"),("from",.str id),
        ("value",.record [("collection",.str active),("count",natural s.nextIndex)])]],some okCompletion⟩
    else s.failure id "dynamic_each_unknown_event" protocol
  | _, _ => s.failure id "dynamic_each_invalid_protocol" protocol

end Each

/-- `dynamic-index`: what an instance emits for the message that it is given. -/
def indexEvent (id collection : String) (index input : LuaValue) : LuaValue :=
  let message := input.orElse (.record [])
  let value := if (message.get "value").isNil then message else message.get "value"
  .record [("kind",.str "nefor.dynamic.Event"),("from",.str id),
    ("value",tagged "Item" (indexed collection index value)),
    ("semantic_value",tagged "Item" (indexed collection index ((message.get "semantic_value").orElse value)))]

/-- `dynamic-output`. -/
structure Output where
  collection : Option String
  countValue : Option LuaValue
  values : AList fun _ : Nat => LuaValue
  semanticValues : AList fun _ : Nat => LuaValue
  received : Nat
  finished : Bool

namespace Output

def start : Output := ⟨none,none,∅,∅,0,false⟩

def cleared (s : Output) : Output := { s with finished := true, values := ∅, semanticValues := ∅ }

def failure (s : Output) (id kind : String) (value : LuaValue) : Turn Output :=
  ⟨s.cleared,[],some (failedCompletion id kind "value" value)⟩

def collectionValue (s : Output) : LuaValue := (s.collection.map .str).getD .nil

def element (s : Output) (index : Nat) : LuaValue × LuaValue :=
  ((s.values.lookup index).getD .nil,(s.semanticValues.lookup index).getD .nil)

def count (s : Output) : Option Nat := s.countValue.bind wholeNumber

def finishIfReady (s : Output) (id : String) : Turn Output :=
  match s.countValue, s.count with
  | some countValue, some count =>
    if s.received ≠ count || (List.range count).any fun index => (s.values.lookup index).isNone then ⟨s,[],none⟩
    else ⟨s.cleared,
      ((List.range count).map fun index => itemMessage "nefor.dynamic.Output" id s.collectionValue (natural index) (s.element index)) ++
        [completeMessage "nefor.dynamic.Output" id s.collectionValue countValue],some okCompletion⟩
  | _, _ => ⟨s,[],none⟩

def deliver (s : Output) (id : String) (message : LuaValue) : Turn Output :=
  let envelope := message.get "value"
  let value := (envelope.get "value").orElse .nil
  let item := (envelope.get "constructor").rawEq (.str "Item")
  match s.finished || !(item || (envelope.get "constructor").rawEq (.str "Complete")), value.get "collection" with
  | false, .str collection =>
    let s := { s with collection := some (s.collection.getD collection) }
    if s.collection ≠ some collection then s.failure id "dynamic_output_collection_changed" value
    else if item then
      match wholeNumber (value.get "index") with
      | none => s.failure id "dynamic_output_invalid_item" value
      | some index =>
        if (value.get "value").isNil || (s.values.lookup index).isSome || s.count.any (fun count => decide (count ≤ index)) then
          s.failure id "dynamic_output_invalid_item" value
        else
          let semantic := ((message.get "semantic_value").get "value").get "value"
          { s with
            values := s.values.insert index (value.get "value")
            semanticValues := s.semanticValues.insert index (semantic.orElse (value.get "value"))
            received := s.received + 1 : Output }.finishIfReady id
    else
      match wholeNumber (value.get "count") with
      | none => s.failure id "dynamic_output_invalid_count" value
      | some count =>
        if s.countValue.isSome || decide (count < s.received) then s.failure id "dynamic_output_invalid_count" value
        else { s with countValue := some (value.get "count") : Output }.finishIfReady id
  | _, _ => s.failure id "dynamic_output_invalid_value" value

def handleKill (s : Output) : Output := s.cleared

def handleDrain (s : Output) (id : String) : Turn Output :=
  ⟨s.cleared,if s.finished then [] else [.record [("kind",.str "mag.failed"),("from",.str id),("failure",.str "mag.Failed"),
    ("value",.record [("kind",.str "dynamic_output_drained_incomplete"),("actor",.str id)])]],none⟩

end Output

/-- `dynamic-all`. -/
structure All where
  collection : Option String
  nextIndex : Nat
  values : List LuaValue
  finished : Bool

namespace All

def start : All := ⟨none,0,[],false⟩

def failure (s : All) (id kind : String) (protocol : LuaValue) : Turn All :=
  ⟨{ s with finished := true, values := [] },[],some (failedCompletion id kind "protocol" protocol)⟩

/-- The list that the provider is told. -/
def content (schema : LuaValue) (values : List LuaValue) : LuaValue :=
  .record [("mag_type",.record [("version",(schema.get "version").orElse (natural 1)),
      ("root",.record [("kind",.str "list"),("item",schema.get "root")])]),
    ("value",.table true (LuaValue.arrayFrom 1 values))]

def message (id : String) (schema : LuaValue) (values : List LuaValue) : LuaValue :=
  .record [("kind",.str "generic-provider.ProviderOut"),("from",.str id),("value",.record [("content",content schema values)]),
    ("messages",.array [.record [("role",.str "user"),("content",content schema values)]])]

def deliver (s : All) (id : String) (schema input : LuaValue) : Turn All :=
  let protocol := input.get "dynamic"
  match s.finished, protocol.get "collection" with
  | false, .str collection =>
    let s := { s with collection := some (s.collection.getD collection) }
    if s.collection ≠ some collection then s.failure id "dynamic_all_collection_changed" protocol
    else if (protocol.get "kind").rawEq (.str "item") then
      if !(protocol.get "index").rawEq (natural s.nextIndex) || (input.get "value").isNil then
        s.failure id "dynamic_all_noncontiguous_item" protocol
      else ⟨{ s with
        values := s.values ++ [(input.get "semantic_value").orElse (input.get "value")]
        nextIndex := s.nextIndex + 1 },[],none⟩
    else if !(protocol.get "kind").rawEq (.str "complete") || !(protocol.get "count").rawEq (natural s.nextIndex) then
      s.failure id "dynamic_all_invalid_completion" protocol
    else ⟨{ s with finished := true, values := [] },[message id schema s.values],some okCompletion⟩
  | _, _ => s.failure id "dynamic_all_invalid_protocol" protocol

end All

structure Stream where
  collection : String
  nextIndex : Nat
  completed : Bool

abbrev Streams := AList fun _ : String => Stream

def refusal (id wire complaint : String) : String := "actor '" ++ id ++ "' " ++ complaint ++ " on '" ++ wire ++ "'"

end Nefor.Kernel.Dynamic
