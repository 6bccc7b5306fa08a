import Mathlib.Data.List.Induction
import Mathlib.Data.List.Perm.Basic
import Mathlib.Data.Option.Basic
import Nefor.Kernel.DynamicStreams

/-! A traversal of a dynamic list from end to end: in whatever order the workers finish, their results come in
the order of the elements. -/
namespace Nefor.Kernel.Dynamic
open Nefor.Lua

/-- What an instance is left in and has emitted when it was given some messages, one after the other. -/
def run {σ : Type} (deliver : σ → LuaValue → Turn σ) (s : σ) (ms : List LuaValue) : σ × List LuaValue :=
  ms.foldl (fun r m => ((deliver r.1 m).state,r.2 ++ (deliver r.1 m).emitted)) (s,[])

/-- A dynamic list on a wire. -/
def stream (wire id collection : String) (n : Nat) (element : Nat → LuaValue × LuaValue) : List LuaValue :=
  ((List.range n).map fun i => itemMessage wire id (.str collection) (natural i) (element i)) ++
    [completeMessage wire id (.str collection) (natural n)]

/-- What `dynamic-each` says of an element. -/
def indexedMessage (id collection : String) (i : Nat) (v : LuaValue × LuaValue) : LuaValue :=
  .record [("kind",.str "nefor.dynamic.Indexed"),("from",.str id),("value",indexed collection (natural i) v.1),
    ("semantic_value",indexed collection (natural i) (v.2.orElse v.1))]

/-- What `dynamic-each` says of the end. -/
def countMessage (id collection : String) (n : Nat) : LuaValue :=
  .record [("kind",.str "nefor.dynamic.Complete"),("from",.str id),
    ("value",.record [("collection",.str collection),("count",natural n)])]

/-- The routes of a traversal: an element starts a worker, whose result is indexed; the number is packed
(`dynamic.mag`). -/
def forward (work : LuaValue → LuaValue) (occurrence : LuaValue → String) (m : LuaValue) : LuaValue :=
  match (m.get "kind").rawEq (.str "nefor.dynamic.Indexed"), (m.get "value").get "collection" with
  | true, .str collection => indexEvent (occurrence m) collection ((m.get "value").get "index") (work m)
  | _, _ =>
    let semantic := if (m.get "semantic_value").isNil then m.get "value" else m.get "semantic_value"
    .record [("kind",m.get "kind"),("value",tagged "Complete" (m.get "value")),
      ("semantic_value",tagged "Complete" semantic)]

/-- What is indexed of a worker's result, raw and semantic. -/
def resultOf (result : LuaValue) : LuaValue × LuaValue :=
  let message := result.orElse (.record [])
  let value := if (message.get "value").isNil then message else message.get "value"
  (value,(message.get "semantic_value").orElse value)

section fields
variable {wire id collection : String} {i n : Nat} {v : LuaValue × LuaValue}

@[simp] theorem record_isNil (es : List (String × LuaValue)) : (LuaValue.record es).isNil = false := rfl

@[simp] theorem str_isNil (t : String) : (LuaValue.str t).isNil = false := rfl

@[simp] theorem natural_isNil (n : Nat) : (natural n).isNil = false := rfl

@[simp] theorem tagged_isNil (name : String) (value : LuaValue) : (tagged name value).isNil = false := rfl

@[simp] theorem tagged_constructor (name : String) (value : LuaValue) : (tagged name value).get "constructor" = .str name := by
  simp [tagged,LuaValue.get_record_cons]

@[simp] theorem tagged_value (name : String) (value : LuaValue) : (tagged name value).get "value" = value := by
  simp [tagged,LuaValue.get_record_cons,LuaValue.get_record_nil,LuaValue.ite_isNil]

@[simp] theorem indexed_collection (index value : LuaValue) :
    (indexed collection index value).get "collection" = .str collection := by
  simp [indexed,LuaValue.get_record_cons]

@[simp] theorem indexed_index (value : LuaValue) : (indexed collection (natural i) value).get "index" = natural i := by
  simp [indexed,LuaValue.get_record_cons]

@[simp] theorem indexed_value (index value : LuaValue) : (indexed collection index value).get "value" = value := by
  simp [indexed,LuaValue.get_record_cons,LuaValue.get_record_nil,LuaValue.ite_isNil]

theorem itemMessage_value (index : LuaValue) : (itemMessage wire id (.str collection) index v).get "value" = v.1 := by
  simp [itemMessage,LuaValue.get_record_cons,LuaValue.get_record_nil,LuaValue.ite_isNil]

theorem itemMessage_semantic (index : LuaValue) : (itemMessage wire id (.str collection) index v).get "semantic_value" = v.2 := by
  simp [itemMessage,LuaValue.get_record_cons,LuaValue.get_record_nil,LuaValue.ite_isNil]

theorem itemMessage_dynamic (wire id collection : String) (i : Nat) (v : LuaValue × LuaValue) :
    (itemMessage wire id (.str collection) (natural i) v).get "dynamic" =
      .record [("kind",.str "item"),("collection",.str collection),("index",natural i)] := by
  simp [itemMessage,LuaValue.get_record_cons]

theorem completeMessage_dynamic (wire id collection : String) (n : Nat) :
    (completeMessage wire id (.str collection) (natural n)).get "dynamic" =
      .record [("kind",.str "complete"),("collection",.str collection),("count",natural n)] := by
  simp [completeMessage,LuaValue.get_record_cons]

theorem orElse_isNil {a b : LuaValue} (h : b.isNil = false) : (a.orElse b).isNil = false := by
  unfold LuaValue.orElse
  split
  · next ha =>
    cases a with
    | nil => cases ha
    | _ => rfl
  · exact h

theorem orElse_orElse (a b : LuaValue) : (a.orElse b).orElse b = a.orElse b := by
  unfold LuaValue.orElse
  split <;> simp_all

theorem resultOf_isNil (result : LuaValue) : (resultOf result).1.isNil = false := by
  unfold resultOf
  dsimp only
  split
  · exact orElse_isNil rfl
  · next h => exact Bool.not_eq_true _ ▸ h

theorem forward_indexed (work : LuaValue → LuaValue) (occurrence : LuaValue → String) (m : LuaValue)
    (hm : m = indexedMessage id collection i v) :
    forward work occurrence m = indexEvent (occurrence m) collection (natural i) (work m) := by
  have hkind : (m.get "kind").rawEq (.str "nefor.dynamic.Indexed") = true := by
    simp [hm,indexedMessage,LuaValue.get_record_cons,LuaValue.rawEq]
  have hvalue : m.get "value" = indexed collection (natural i) v.1 := by
    simp [hm,indexedMessage,LuaValue.get_record_cons,indexed]
  unfold forward
  rw [hkind,hvalue,indexed_collection,indexed_index]

end fields

section run
variable {σ : Type} (deliver : σ → LuaValue → Turn σ) (s : σ)

theorem run_append_singleton (ms : List LuaValue) (m : LuaValue) : run deliver s (ms ++ [m]) =
    ((deliver (run deliver s ms).1 m).state,(run deliver s ms).2 ++ (deliver (run deliver s ms).1 m).emitted) := by
  rw [run,List.foldl_append]
  rfl

/-- What holds before the first message and is kept by each holds after all of them. -/
theorem run_range {n : Nat} {item : Nat → LuaValue} (Holds : Nat → σ × List LuaValue → Prop) (hstart : Holds 0 (s,[]))
    (hstep : ∀ k < n, ∀ r, Holds k r → Holds (k + 1) ((deliver r.1 (item k)).state,r.2 ++ (deliver r.1 (item k)).emitted)) :
    Holds n (run deliver s ((List.range n).map item)) := by
  induction n with
  | zero => exact hstart
  | succ n ih =>
    rw [List.range_succ,List.map_append,List.map_singleton,run_append_singleton]
    apply hstep n n.lt_succ_self
    apply ih
    intro k hk
    exact hstep k (Nat.lt_succ_of_lt hk)

end run

theorem protocol_item {collection : String} {i : Nat} (protocol : LuaValue)
    (h : protocol = .record [("kind",.str "item"),("collection",.str collection),("index",natural i)]) :
    protocol.get "collection" = .str collection ∧ (protocol.get "kind").rawEq (.str "item") = true ∧
      protocol.get "index" = natural i := by
  simp [h,LuaValue.get_record_cons,LuaValue.rawEq]

theorem protocol_complete {collection : String} {n : Nat} (protocol : LuaValue)
    (h : protocol = .record [("kind",.str "complete"),("collection",.str collection),("count",natural n)]) :
    protocol.get "collection" = .str collection ∧ (protocol.get "kind").rawEq (.str "item") = false ∧
      (protocol.get "kind").rawEq (.str "complete") = true ∧ protocol.get "count" = natural n := by
  simp [h,LuaValue.get_record_cons,LuaValue.rawEq]

namespace Each
variable {wire src id collection : String} {n : Nat} {element : Nat → LuaValue × LuaValue}

theorem deliver_item {s : Each} (hopen : s.finished = false) (hactive : s.active.getD collection = collection)
    {v : LuaValue × LuaValue} (hv : v.1.isNil = false) :
    s.deliver id (itemMessage wire src (.str collection) (natural s.nextIndex) v) =
      ⟨⟨some collection,s.nextIndex + 1,false⟩,[indexedMessage id collection s.nextIndex v],none⟩ := by
  obtain ⟨hcollection,hkind,hindex⟩ := protocol_item _ (itemMessage_dynamic wire src collection s.nextIndex v)
  unfold deliver
  dsimp only
  rw [hopen,hcollection]
  dsimp only
  rw [hkind,hindex,hactive,itemMessage_value,itemMessage_semantic,hv]
  simp [indexedMessage]

theorem deliver_complete {s : Each} (hopen : s.finished = false) (hactive : s.active.getD collection = collection)
    (hnext : s.nextIndex = n) : s.deliver id (completeMessage wire src (.str collection) (natural n)) =
      ⟨⟨some collection,n,true⟩,[countMessage id collection n],some okCompletion⟩ := by
  subst hnext
  obtain ⟨hcollection,hkind,hcomplete,hcount⟩ := protocol_complete _ (completeMessage_dynamic wire src collection s.nextIndex)
  unfold deliver
  dsimp only
  rw [hopen,hcollection]
  dsimp only
  rw [hkind,hcomplete,hcount,hactive]
  simp [countMessage]

/-- After some elements: each was handed out with its index. -/
structure Handed (id collection : String) (element : Nat → LuaValue × LuaValue) (k : Nat) (r : Each × List LuaValue) : Prop where
  unfinished : r.1.finished = false
  active : r.1.active.getD collection = collection
  nextIndex : r.1.nextIndex = k
  emitted : r.2 = (List.range k).map fun i => indexedMessage id collection i (element i)

theorem Handed.deliver {k : Nat} {r : Each × List LuaValue} (h : Handed id collection element k r)
    (hv : (element k).1.isNil = false) : Handed id collection element (k + 1)
      ((r.1.deliver id (itemMessage wire src (.str collection) (natural k) (element k))).state,
        r.2 ++ (r.1.deliver id (itemMessage wire src (.str collection) (natural k) (element k))).emitted) := by
  obtain ⟨hopen,hactive,rfl,hemitted⟩ := h
  rw [deliver_item hopen hactive hv]
  refine ⟨rfl,rfl,rfl,?_⟩
  rw [hemitted,List.range_succ,List.map_append]
  rfl

/-- `dynamic-each` hands out each element with its index, and then the number. -/
theorem run_stream (hvs : ∀ i < n, (element i).1.isNil = false) :
    (run (fun s m => s.deliver id m) start (stream wire src collection n element)).2 =
      ((List.range n).map fun i => indexedMessage id collection i (element i)) ++ [countMessage id collection n] := by
  have hitems : Handed id collection element n (run (fun s m => s.deliver id m) start
      ((List.range n).map fun i => itemMessage wire src (.str collection) (natural i) (element i))) := by
    apply run_range
    · exact ⟨rfl,rfl,rfl,rfl⟩
    · intro k hk r h
      exact h.deliver (hvs k hk)
  obtain ⟨hopen,hactive,hnext,hemitted⟩ := hitems
  rw [stream,run_append_singleton,hemitted,deliver_complete hopen hactive hnext]

end Each

namespace All
variable {wire src id collection : String} {schema : LuaValue} {n : Nat} {element : Nat → LuaValue × LuaValue}

theorem deliver_item {s : All} (hopen : s.finished = false) (hactive : s.collection.getD collection = collection)
    {v : LuaValue × LuaValue} (hv : v.1.isNil = false) :
    s.deliver id schema (itemMessage wire src (.str collection) (natural s.nextIndex) v) =
      ⟨⟨some collection,s.nextIndex + 1,s.values ++ [v.2.orElse v.1],false⟩,[],none⟩ := by
  obtain ⟨hcollection,hkind,hindex⟩ := protocol_item _ (itemMessage_dynamic wire src collection s.nextIndex v)
  unfold deliver
  dsimp only
  rw [hopen,hcollection]
  dsimp only
  rw [hkind,hindex,hactive,itemMessage_value,itemMessage_semantic,hv]
  simp

theorem deliver_complete {s : All} (hopen : s.finished = false) (hactive : s.collection.getD collection = collection)
    (hnext : s.nextIndex = n) : s.deliver id schema (completeMessage wire src (.str collection) (natural n)) =
      ⟨⟨some collection,n,[],true⟩,[message id schema s.values],some okCompletion⟩ := by
  subst hnext
  obtain ⟨hcollection,hkind,hcomplete,hcount⟩ := protocol_complete _ (completeMessage_dynamic wire src collection s.nextIndex)
  unfold deliver
  dsimp only
  rw [hopen,hcollection]
  dsimp only
  rw [hkind,hcomplete,hcount,hactive]
  simp

/-- After some elements: they are kept in order, and nothing was said. -/
structure Listed (collection : String) (element : Nat → LuaValue × LuaValue) (k : Nat) (r : All × List LuaValue) : Prop where
  unfinished : r.1.finished = false
  active : r.1.collection.getD collection = collection
  nextIndex : r.1.nextIndex = k
  values : r.1.values = (List.range k).map fun i => (element i).2.orElse (element i).1
  emitted : r.2 = []

theorem Listed.deliver {k : Nat} {r : All × List LuaValue} (h : Listed collection element k r)
    (hv : (element k).1.isNil = false) : Listed collection element (k + 1)
      ((r.1.deliver id schema (itemMessage wire src (.str collection) (natural k) (element k))).state,
        r.2 ++ (r.1.deliver id schema (itemMessage wire src (.str collection) (natural k) (element k))).emitted) := by
  obtain ⟨hopen,hactive,rfl,hvalues,hemitted⟩ := h
  rw [deliver_item hopen hactive hv,hemitted]
  refine ⟨rfl,rfl,rfl,?_,rfl⟩
  dsimp only
  rw [hvalues,List.range_succ,List.map_append]
  rfl

/-- `dynamic-all` tells the provider of all elements, once. -/
theorem run_stream (hvs : ∀ i < n, (element i).1.isNil = false) :
    (run (fun s m => s.deliver id schema m) start (stream wire src collection n element)).2 =
      [message id schema ((List.range n).map fun i => (element i).2.orElse (element i).1)] := by
  have hitems : Listed collection element n (run (fun s m => s.deliver id schema m) start
      ((List.range n).map fun i => itemMessage wire src (.str collection) (natural i) (element i))) := by
    apply run_range
    · exact ⟨rfl,rfl,rfl,rfl,rfl⟩
    · intro k hk r h
      exact h.deliver (hvs k hk)
  obtain ⟨hopen,hactive,hnext,hvalues,hemitted⟩ := hitems
  rw [stream,run_append_singleton,hemitted,deliver_complete hopen hactive hnext,hvalues]
  rfl

end All

section accepts
variable {valid : LuaValue → Bool} {streams : Streams} {wire id collection : String} {n : Nat}

end accepts

/-- The number of a list, packed. -/
def countEvent (collection : String) (n : Nat) : LuaValue :=
  let value := tagged "Complete" (.record [("collection",.str collection),("count",natural n)])
  .record [("kind",.str "nefor.dynamic.Complete"),("value",value),("semantic_value",value)]

namespace Output

section deliver
variable {s : Output} {id src collection : String} {i n : Nat} {result : LuaValue}

theorem deliver_item (hopen : s.finished = false) (hactive : s.collection.getD collection = collection)
    (hfree : s.values.lookup i = none) (hcount : s.count.any (fun count => decide (count ≤ i)) = false) :
    s.deliver id (indexEvent src collection (natural i) result) =
      { s with
        collection := some collection
        values := s.values.insert i (resultOf result).1
        semanticValues := s.semanticValues.insert i (resultOf result).2
        received := s.received + 1 : Output }.finishIfReady id := by
  have hvalue : (indexEvent src collection (natural i) result).get "value" =
      tagged "Item" (indexed collection (natural i) (resultOf result).1) := by
    simp [indexEvent,resultOf,LuaValue.get_record_cons]
  have hsemantic : (indexEvent src collection (natural i) result).get "semantic_value" =
      tagged "Item" (indexed collection (natural i) (resultOf result).2) := by
    simp [indexEvent,resultOf,LuaValue.get_record_cons]
  have hsome : (indexed collection (natural i) (resultOf result).1).orElse .nil =
      indexed collection (natural i) (resultOf result).1 := rfl
  have horElse : (resultOf result).2.orElse (resultOf result).1 = (resultOf result).2 := orElse_orElse _ _
  have hcount' : Output.count { s with collection := some collection, finished := false } = s.count := rfl
  unfold deliver
  dsimp only
  simp only [hvalue,hsemantic,tagged_constructor,tagged_value,hsome,indexed_collection,indexed_index,indexed_value,hopen,
    LuaValue.str_rawEq,wholeNumber_natural,horElse,resultOf_isNil,hfree]
  simp [hactive,hcount',hcount]

theorem deliver_count (hopen : s.finished = false) (hactive : s.collection.getD collection = collection)
    (hnone : s.countValue = none) (hle : s.received ≤ n) : s.deliver id (countEvent collection n) =
      { s with collection := some collection, countValue := some (natural n) : Output }.finishIfReady id := by
  have hvalue : (countEvent collection n).get "value" =
      tagged "Complete" (.record [("collection",.str collection),("count",natural n)]) := by
    simp [countEvent,LuaValue.get_record_cons]
  have hsome : ∀ es, (LuaValue.record es).orElse .nil = .record es := fun _ => rfl
  have hcollection : (LuaValue.record [("collection",.str collection),("count",natural n)]).get "collection" = .str collection := by
    simp [LuaValue.get_record_cons]
  have hcount : (LuaValue.record [("collection",.str collection),("count",natural n)]).get "count" = natural n := by
    simp [LuaValue.get_record_cons]
  unfold deliver
  dsimp only
  simp only [hvalue,tagged_constructor,tagged_value,hsome,hcollection,hcount,hopen,LuaValue.str_rawEq,wholeNumber_natural,hnone]
  simp [hactive,Nat.not_lt.mpr hle]

end deliver

/-- What a collector is given: an indexed result, or the number. -/
def arrival (collection : String) (n : Nat) (sender : Nat → String) (result : Nat → LuaValue) : Option Nat → LuaValue
  | some i => indexEvent (sender i) collection (natural i) (result i)
  | none => countEvent collection n

/-- A collector that was given some of the results, and perhaps the number. -/
structure Gathered (collection : String) (n : Nat) (result : Nat → LuaValue) (done : List (Option Nat)) (s : Output) : Prop where
  unfinished : s.finished = false
  collection : s.collection.getD collection = collection
  countValue : s.countValue = if none ∈ done then some (natural n) else none
  values : ∀ i, s.values.lookup i = if some i ∈ done then some (resultOf (result i)).1 else none
  semanticValues : ∀ i, s.semanticValues.lookup i = if some i ∈ done then some (resultOf (result i)).2 else none
  received : s.received + (if none ∈ done then 1 else 0) = done.length

variable {s : Output} {id collection : String} {n : Nat} {sender : Nat → String} {result : Nat → LuaValue}
  {done : List (Option Nat)}

theorem Gathered.count (h : Gathered collection n result done s) : s.count = if none ∈ done then some n else none := by
  rw [Output.count,h.countValue]
  split
  · exact wholeNumber_natural n
  · rfl

/-- Before everything is there, nothing is released. -/
theorem Gathered.waits (h : Gathered collection n result done s) (hlen : done.length ≤ n) : s.finishIfReady id = ⟨s,[],none⟩ := by
  have hreceived := h.received
  have hcount := h.count
  have hcountValue := h.countValue
  unfold finishIfReady
  by_cases hnone : none ∈ done
  · rw [if_pos hnone] at hreceived hcount hcountValue
    rw [hcountValue,hcount]
    dsimp only
    rw [if_pos]
    have hne : s.received ≠ n := by omega
    simp [hne]
  · rw [if_neg hnone] at hcountValue
    rw [hcountValue]

/-- Once everything is there, it is released in order. -/
theorem Gathered.releases (h : Gathered collection n result done s) (hcollection : s.collection = some collection)
    (hlen : done.length = n + 1) (hnone : none ∈ done) (hall : ∀ i < n, some i ∈ done) :
    (s.finishIfReady id).emitted = stream "nefor.dynamic.Output" id collection n fun i => resultOf (result i) := by
  have hreceived := h.received
  have hcount := h.count
  have hcountValue := h.countValue
  have hlookup : ∀ i < n, s.element i = resultOf (result i) := by
    intro i hi
    rw [element,h.values,h.semanticValues,if_pos (hall i hi),if_pos (hall i hi)]
    rfl
  have hready : ¬ ((decide (s.received ≠ n) || (List.range n).any fun index => (s.values.lookup index).isNone) = true) := by
    rw [if_pos hnone] at hreceived
    have heq : s.received = n := by omega
    rw [Bool.or_eq_true,List.any_eq_true]
    rintro (hne | ⟨i,hi,hmissing⟩)
    · exact of_decide_eq_true hne heq
    · rw [h.values,if_pos (hall i (List.mem_range.mp hi))] at hmissing
      cases hmissing
  rw [if_pos hnone] at hcount hcountValue
  unfold finishIfReady
  rw [hcountValue,hcount]
  dsimp only
  rw [if_neg (by simpa using hready)]
  dsimp only
  rw [collectionValue,hcollection,stream]
  congr 1
  apply List.map_congr_left
  intro i hi
  rw [hlookup i (List.mem_range.mp hi)]
  rfl

theorem Gathered.deliver (h : Gathered collection n result done s) (id : String) (sender : Nat → String) {t : Option Nat}
    (ht : t ∉ done) (hbound : ∀ i, t = some i → i < n) (hlen : done.length ≤ n) :
    ∃ s' : Output, s'.collection = some collection ∧ Gathered collection n result (done ++ [t]) s' ∧
      s.deliver id (arrival collection n sender result t) = s'.finishIfReady id := by
  cases t with
  | none =>
    have hreceived := h.received
    rw [if_neg ht] at hreceived
    refine ⟨_,rfl,?_,deliver_count h.unfinished h.collection (by rw [h.countValue,if_neg ht]) (by omega)⟩
    constructor
    · exact h.unfinished
    · rfl
    · simp
    · intro i
      simpa using h.values i
    · intro i
      simpa using h.semanticValues i
    · simpa using hreceived
  | some i =>
    have hfree : s.values.lookup i = none := by rw [h.values,if_neg ht]
    have hcount : s.count.any (fun count => decide (count ≤ i)) = false := by
      rw [h.count]
      split
      · simpa using hbound i rfl
      · rfl
    refine ⟨_,rfl,?_,deliver_item h.unfinished h.collection hfree hcount⟩
    constructor
    · exact h.unfinished
    · rfl
    · simpa using h.countValue
    · intro j
      dsimp only
      rw [lookup_insert_ite,h.values]
      by_cases hj : j = i
      · simp [hj]
      · simp [hj]
    · intro j
      dsimp only
      rw [lookup_insert_ite,h.semanticValues]
      by_cases hj : j = i
      · simp [hj]
      · simp [hj]
    · have hreceived := h.received
      simp only [List.mem_append,List.mem_singleton,reduceCtorEq,or_false,List.length_append,List.length_singleton]
      omega

/-- One more arrival, after some that released nothing. -/
theorem run_arrival (hrun : ∃ s, Gathered collection n result done s ∧
      run (fun s m => s.deliver id m) start (done.map (arrival collection n sender result)) = (s,[]))
    {t : Option Nat} (hnodup : (done ++ [t]).Nodup) (hbound : ∀ i, some i ∈ done ++ [t] → i < n) (hlen : done.length ≤ n) :
    ∃ s, s.collection = some collection ∧ Gathered collection n result (done ++ [t]) s ∧
      run (fun s m => s.deliver id m) start ((done ++ [t]).map (arrival collection n sender result)) =
        ((s.finishIfReady id).state,(s.finishIfReady id).emitted) := by
  obtain ⟨s,hgathered,hrun⟩ := hrun
  rw [List.nodup_append_comm,List.singleton_append,List.nodup_cons] at hnodup
  have ht : ∀ i, t = some i → i < n := by
    intro i hi
    apply hbound i
    rw [hi]
    exact List.mem_append_right _ List.mem_cons_self
  obtain ⟨s',hcollection,hgathered',hdeliver⟩ := hgathered.deliver id sender hnodup.1 ht hlen
  refine ⟨s',hcollection,hgathered',?_⟩
  rw [List.map_append,List.map_singleton,run_append_singleton,hrun,hdeliver]
  rfl

theorem run_gathered (id collection : String) (sender : Nat → String) (result : Nat → LuaValue) (hnodup : done.Nodup)
    (hbound : ∀ i, some i ∈ done → i < n) (hlen : done.length ≤ n) :
    ∃ s, Gathered collection n result done s ∧
      run (fun s m => s.deliver id m) start (done.map (arrival collection n sender result)) = (s,[]) := by
  induction done using List.reverseRecOn with
  | nil =>
    refine ⟨start,?_,rfl⟩
    constructor <;> simp [start]
  | append_singleton done t ih =>
    have hbefore : done.length + 1 ≤ n := by simpa using hlen
    have hprior := ih (List.Nodup.of_append_left hnodup) (fun i hi => hbound i (List.mem_append_left _ hi)) (by omega)
    obtain ⟨s,_,hgathered,hrun⟩ := run_arrival hprior hnodup hbound (by omega)
    refine ⟨s,hgathered,?_⟩
    rw [hrun,hgathered.waits hlen]

/-- `dynamic-output` puts the results back in the order of the elements. -/
theorem run_arrivals {arrivals : List LuaValue}
    (hperm : arrivals.Perm (((List.range n).map some ++ [none]).map (arrival collection n sender result))) :
    (run (fun s m => s.deliver id m) start arrivals).2 =
      stream "nefor.dynamic.Output" id collection n fun i => resultOf (result i) := by
  obtain ⟨tokens,rfl,htokens⟩ := (congrFun (congrFun (List.eq_map_comp_perm _) arrivals) _).mpr hperm
  have hmem : ∀ t, t ∈ tokens ↔ t = none ∨ ∃ i < n, t = some i := by
    intro t
    rw [htokens.mem_iff]
    cases t <;> simp
  have hnodup : tokens.Nodup := by
    rw [htokens.nodup_iff,List.nodup_append_comm,List.singleton_append,List.nodup_cons]
    refine ⟨by simp,List.nodup_range.map (Option.some_injective _)⟩
  have hlen : tokens.length = n + 1 := by simpa using htokens.length_eq
  cases List.eq_nil_or_concat tokens with
  | inl hnil =>
    rw [hnil] at hlen
    cases hlen
  | inr hlast =>
    obtain ⟨done,t,rfl⟩ := hlast
    rw [List.concat_eq_append] at hmem hnodup hlen ⊢
    have hdone : done.length = n := by simpa using hlen
    have hbound : ∀ i, some i ∈ done ++ [t] → i < n := by
      intro i hi
      simpa using (hmem _).mp hi
    have hprior := run_gathered id collection sender result
      (List.Nodup.of_append_left hnodup) (fun i hi => hbound i (List.mem_append_left _ hi)) hdone.le
    obtain ⟨s,hcollection,hgathered,hrun⟩ := run_arrival hprior hnodup hbound hdone.le
    rw [hrun]
    apply hgathered.releases hcollection hlen
    · exact (hmem _).mpr (.inl rfl)
    · intro i hi
      exact (hmem _).mpr (.inr ⟨i,hi,rfl⟩)

end Output

theorem forward_count (work : LuaValue → LuaValue) (occurrence : LuaValue → String) (id collection : String) (n : Nat) :
    forward work occurrence (countMessage id collection n) = countEvent collection n := by
  have hkind : (countMessage id collection n).get "kind" = .str "nefor.dynamic.Complete" := by
    simp [countMessage,LuaValue.get_record_cons]
  have hdiffers : (LuaValue.str "nefor.dynamic.Complete").rawEq (.str "nefor.dynamic.Indexed") = false := by
    simp [LuaValue.str_rawEq]
  have hsemantic : (countMessage id collection n).get "semantic_value" = .nil := by
    simp [countMessage,LuaValue.get_record_cons,LuaValue.get_record_nil]
  have hvalue : (countMessage id collection n).get "value" =
      .record [("collection",.str collection),("count",natural n)] := by
    simp [countMessage,LuaValue.get_record_cons]
  unfold forward
  rw [hkind,hdiffers,hvalue,hsemantic]
  rfl

/-- Whatever the workers make of the elements, and in whatever order they finish, what the provider is told is the
list of their results in the order of the elements, once. -/
theorem traversal_in_order (work : LuaValue → LuaValue) (occurrence : LuaValue → String) (schema : LuaValue)
    (wire src each out all collection : String) (n : Nat) (element : Nat → LuaValue × LuaValue)
    (hvs : ∀ i < n, (element i).1.isNil = false) (arrivals : List LuaValue)
    (hperm : arrivals.Perm ((run (fun s m => s.deliver each m) Each.start (stream wire src collection n element)).2.map
      (forward work occurrence))) :
    (run (fun s m => s.deliver all schema m) All.start (run (fun s m => s.deliver out m) Output.start arrivals).2).2 =
      [All.message all schema
        ((List.range n).map fun i => (resultOf (work (indexedMessage each collection i (element i)))).2)] := by
  let handed : Nat → LuaValue := fun i => indexedMessage each collection i (element i)
  have harrivals : (((List.range n).map handed ++ [countMessage each collection n]).map (forward work occurrence)) =
      ((List.range n).map some ++ [none]).map
        (Output.arrival collection n (fun i => occurrence (handed i)) fun i => work (handed i)) := by
    rw [List.map_append,List.map_append,List.map_map,List.map_map,List.map_singleton,List.map_singleton,forward_count]
    refine congrArg₂ (· ++ ·) (List.map_congr_left ?_) rfl
    intro i _
    exact forward_indexed work occurrence (handed i) rfl
  rw [Each.run_stream hvs,harrivals] at hperm
  rw [Output.run_arrivals hperm,All.run_stream fun i _ => resultOf_isNil _]
  congr 2
  apply List.map_congr_left
  intro i _
  exact orElse_orElse _ _

theorem traversal_in_order_reversed :
    (run (fun s m => s.deliver "all" .nil m) All.start (run (fun s m => s.deliver "out" m) Output.start
      ((run (fun s m => s.deliver "each" m) Each.start
        (stream "nefor.dynamic.Input" "source" "list" 2 fun i => (natural i,.nil))).2.map
          (forward (fun m => m.get "value") fun _ => "result")).reverse).2).2 =
      [All.message "all" .nil [natural 0,natural 1]] :=
  traversal_in_order (fun m => m.get "value") (fun _ => "result") .nil "nefor.dynamic.Input" "source" "each" "out" "all" "list" 2
    (fun i => (natural i,.nil)) (fun _ _ => rfl) _ (List.reverse_perm _)

end Nefor.Kernel.Dynamic
