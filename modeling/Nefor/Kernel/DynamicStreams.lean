import Nefor.Behaviour
import Nefor.Kernel.DynamicList
import Nefor.Maps

/-! What a stream of a dynamic list may carry: the elements in order, then their number. The check accepts
nothing else, and the collector releases all of it or nothing. -/
namespace Nefor.Lua

theorem LuaNum.eq_int_iff {n : LuaNum} {i : Int} : n.eq (.int i) = true ↔ n = .int i ∨ n = .float i := by
  cases n <;> simp [LuaNum.eq,LuaNum.toRat]

end Nefor.Lua

namespace Nefor.Kernel.Dynamic
open Nefor.Lua Behaviour

theorem wholeNumber_of_rawEq {v : LuaValue} {n : Nat} (h : v.rawEq (natural n) = true) : wholeNumber v = some n := by
  cases v with
  | num m =>
    cases LuaNum.eq_int_iff.mp h with
    | inl hint =>
      rw [hint]
      simp [wholeNumber]
    | inr hfloat =>
      rw [hfloat]
      have hle : (0 : ℚ) ≤ ((n : Int) : ℚ) := by exact_mod_cast Int.natCast_nonneg n
      simp [wholeNumber,hle]
  | _ => cases h

@[simp] theorem natural_rawEq (n m : Nat) : (natural n).rawEq (natural m) = decide (n = m) := by
  have hcast : ((n : Int) : ℚ) = ((m : Int) : ℚ) ↔ n = m := by norm_cast
  simp only [natural,LuaValue.rawEq,LuaNum.eq,LuaNum.toRat,hcast]

@[simp] theorem wholeNumber_natural (n : Nat) : wholeNumber (natural n) = some n := by simp [wholeNumber,natural]

inductive StreamEvent
  | item (collection : String) (index : Nat)
  | complete (collection : String) (count : Nat)

/-- What a message says of its stream. -/
def eventOf (payload : LuaValue) : Option StreamEvent :=
  let protocol := payload.get "dynamic"
  match protocol.get "collection" with
  | .str collection =>
    if (protocol.get "kind").rawEq (.str "item") then (wholeNumber (protocol.get "index")).map (.item collection)
    else (wholeNumber (protocol.get "count")).map (.complete collection)
  | _ => none

/-- The elements of one collection in order, and perhaps their number at the end. -/
def Ordered (events : List StreamEvent) : Prop :=
  ∃ collection k, events = (List.range k).map (.item collection) ∨
    events = (List.range k).map (.item collection) ++ [.complete collection k]

structure Emission where
  id : String
  wire : String
  payload : LuaValue

/-- The streams, and what was accepted on each of them. -/
structure Accepted where
  streams : Streams
  log : List (String × StreamEvent)

namespace Accepted

def empty : Accepted := ⟨∅,[]⟩

/-- What was accepted on one stream. -/
def on (a : Accepted) (key : String) : List StreamEvent := (about (fun e : String × StreamEvent => some e.1) key a.log).map Prod.snd

end Accepted

/-- What a stream has carried so far. -/
def Stream.carried (s : Stream) : List StreamEvent :=
  (List.range s.nextIndex).map (.item s.collection) ++ if s.completed then [.complete s.collection s.nextIndex] else []

theorem Stream.ordered (s : Stream) : Ordered s.carried := by
  refine ⟨s.collection,s.nextIndex,?_⟩
  unfold Stream.carried
  split
  · exact .inr rfl
  · exact .inl (List.append_nil _)

/-- What the check leaves of the streams: the one of the message goes on, or starts. -/
inductive Checked (streams : Streams) (key : String) (payload : LuaValue) : Streams × Option String → Prop
  | refused {message : String} : Checked streams key payload (streams,some message)
  | started {collection message : String} : streams.lookup key = none →
    Checked streams key payload (streams.insert key ⟨collection,0,false⟩,some message)
  | item {streams' : Streams} {stream : Stream} : stream.completed = false →
    (streams.lookup key = some stream ∨ streams.lookup key = none ∧ stream.nextIndex = 0) →
    eventOf payload = some (.item stream.collection stream.nextIndex) →
    (∀ other, streams'.lookup other = if other = key then some { stream with nextIndex := stream.nextIndex + 1 } else streams.lookup other) →
    Checked streams key payload (streams',none)
  | complete {streams' : Streams} {stream : Stream} : stream.completed = false →
    (streams.lookup key = some stream ∨ streams.lookup key = none ∧ stream.nextIndex = 0) →
    eventOf payload = some (.complete stream.collection stream.nextIndex) →
    (∀ other, streams'.lookup other = if other = key then some { stream with completed := true } else streams.lookup other) →
    Checked streams key payload (streams',none)

/-- What is left of the check once the stream is found or started. -/
theorem Checked.found {streams streams' : Streams} {key collection : String} {stream : Stream} {payload : LuaValue} {item : Bool}
    (hcollection : (payload.get "dynamic").get "collection" = .str collection)
    (hitem : ((payload.get "dynamic").get "kind").rawEq (.str "item") = item)
    (hfound : streams.lookup key = some stream ∧ streams' = streams ∨
      streams.lookup key = none ∧ stream = ⟨collection,0,false⟩ ∧ streams' = streams.insert key stream)
    (changed late gap count : String) : Checked streams key payload
      (if collection ≠ stream.collection then (streams',some changed)
      else if stream.completed then (streams',some late)
      else if item then
        if !((payload.get "dynamic").get "index").rawEq (natural stream.nextIndex) then (streams',some gap)
        else (streams'.insert key { stream with nextIndex := stream.nextIndex + 1 },none)
      else if (wholeNumber ((payload.get "dynamic").get "count")).isNone ||
          !((payload.get "dynamic").get "count").rawEq (natural stream.nextIndex) then (streams',some count)
      else (streams'.insert key { stream with completed := true },none)) := by
  have hrefused : ∀ message, Checked streams key payload (streams',some message) := by
    intro message
    rcases hfound with ⟨_,rfl⟩ | ⟨hnone,rfl,rfl⟩
    · exact .refused
    · exact .started hnone
  have hknown : streams.lookup key = some stream ∨ streams.lookup key = none ∧ stream.nextIndex = 0 := by
    rcases hfound with ⟨hsome,_⟩ | ⟨hnone,rfl,_⟩
    · exact .inl hsome
    · exact .inr ⟨hnone,rfl⟩
  have hlookup : ∀ next other, (streams'.insert key next).lookup other = if other = key then some next else streams.lookup other := by
    intro next other
    rw [lookup_insert_ite]
    rcases hfound with ⟨_,rfl⟩ | ⟨_,_,rfl⟩
    · rfl
    · rw [lookup_insert_ite]
      split <;> rfl
  split
  · exact hrefused changed
  · next hsame =>
    rw [not_not] at hsame
    split
    · exact hrefused late
    · next hopen =>
      rw [Bool.not_eq_true] at hopen
      split
      · next htrue =>
        split
        · exact hrefused gap
        · next hindex =>
          apply Checked.item hopen hknown
          · rw [eventOf,hcollection]
            dsimp only
            rw [hitem,if_pos htrue,wholeNumber_of_rawEq (by simpa using hindex),hsame]
            rfl
          · exact hlookup _
      · next hfalse =>
        split
        · exact hrefused count
        · next hcount =>
          rw [Bool.or_eq_true,not_or] at hcount
          apply Checked.complete hopen hknown
          · rw [eventOf,hcollection]
            dsimp only
            rw [hitem,if_neg hfalse,wholeNumber_of_rawEq (by simpa using hcount.2),hsame]
            rfl
          · exact hlookup _

namespace Output

/-- What may be done to a collector. -/
inductive Act
  | deliver (message : LuaValue)
  | kill
  | drain

def act (s : Output) (id : String) : Act → Turn Output
  | .deliver message => s.deliver id message
  | .kill => ⟨s.handleKill,[],none⟩
  | .drain => s.handleDrain id

/-- What a collector emits from a state on. -/
def emissions (id : String) (s : Output) : List Act → List LuaValue
  | [] => []
  | a :: rest => (s.act id a).emitted ++ emissions id (s.act id a).state rest

/-- A message on the wire of the stream. -/
def isElement (e : LuaValue) : Bool := (e.get "kind").rawEq (.str "nefor.dynamic.Output")

/-- An item that was delivered, with its raw and its semantic value. -/
def Reported (acts : List Act) (collection : String) (index : Nat) (v : LuaValue × LuaValue) : Prop :=
  ∃ message, .deliver message ∈ acts ∧
    ((message.get "value").get "constructor").rawEq (.str "Item") = true ∧
    ((message.get "value").get "value").get "collection" = .str collection ∧
    wholeNumber (((message.get "value").get "value").get "index") = some index ∧
    v = (((message.get "value").get "value").get "value",
      (((message.get "semantic_value").get "value").get "value").orElse (((message.get "value").get "value").get "value"))

/-- All elements of one collection in order, as they were delivered, and their number. -/
def Whole (id : String) (acts : List Act) (es : List LuaValue) : Prop :=
  ∃ (collection : String) (n : Nat) (countValue : LuaValue) (element : Nat → LuaValue × LuaValue),
    wholeNumber countValue = some n ∧ (∀ index < n, Reported acts collection index (element index)) ∧
    es = ((List.range n).map fun index => itemMessage "nefor.dynamic.Output" id (.str collection) (natural index) (element index)) ++
      [completeMessage "nefor.dynamic.Output" id (.str collection) countValue]

/-- What is kept was delivered. -/
def Holds (past : List Act) (s : Output) : Prop :=
  ∀ index v, s.values.lookup index = some v → ∃ collection w, s.collection = some collection ∧
    s.semanticValues.lookup index = some w ∧ Reported past collection index (v,w)

variable {s : Output} {id : String} {past acts : List Act}

theorem Reported.mono {collection : String} {index : Nat} {v : LuaValue × LuaValue} (h : Reported past collection index v)
    (hsub : ∀ a ∈ past, a ∈ acts) : Reported acts collection index v := by
  obtain ⟨message,hmem,htells⟩ := h
  exact ⟨message,hsub _ hmem,htells⟩

theorem Whole.mono {es : List LuaValue} (h : Whole id past es) (hsub : ∀ a ∈ past, a ∈ acts) : Whole id acts es := by
  obtain ⟨collection,n,countValue,element,hcount,hreported,hes⟩ := h
  exact ⟨collection,n,countValue,element,hcount,fun index hindex => (hreported index hindex).mono hsub,hes⟩

theorem Holds.mono (h : Holds past s) (hsub : ∀ a ∈ past, a ∈ acts) : Holds acts s := by
  intro index v hv
  obtain ⟨collection,w,hcollection,hw,hreported⟩ := h index v hv
  exact ⟨collection,w,hcollection,hw,hreported.mono hsub⟩

theorem holds_cleared (past : List Act) (s : Output) : Holds past s.cleared := by
  intro index v hv
  cases hv

theorem isElement_item (id : String) (collection index : LuaValue) (v : LuaValue × LuaValue) :
    isElement (itemMessage "nefor.dynamic.Output" id collection index v) = true := by
  simp [isElement,itemMessage,LuaValue.get_record_cons,LuaValue.isNil,LuaValue.rawEq]

theorem isElement_complete (id : String) (collection count : LuaValue) :
    isElement (completeMessage "nefor.dynamic.Output" id collection count) = true := by
  simp [isElement,completeMessage,LuaValue.get_record_cons,LuaValue.isNil,LuaValue.rawEq]

/-- What a call of a collector that is not finished may come to. -/
def Turned (id : String) (acts : List Act) (t : Turn Output) : Prop :=
  t.emitted.filter isElement = [] ∧ Holds acts t.state ∨
    t.state.finished = true ∧ Whole id acts (t.emitted.filter isElement)

theorem turned_failure (s : Output) (id kind : String) (acts : List Act) (value : LuaValue) : Turned id acts (s.failure id kind value) :=
  .inl ⟨rfl,holds_cleared acts s⟩

theorem turned_finishIfReady (h : Holds acts s) {collection : String} (hcollection : s.collection = some collection) :
    Turned id acts (s.finishIfReady id) := by
  have hquiet : Turned id acts ⟨s,[],none⟩ := .inl ⟨rfl,h⟩
  unfold finishIfReady
  split
  · next countValue count hcountValue hcount =>
    split
    · exact hquiet
    · next hready =>
      right
      refine ⟨rfl,collection,count,countValue,s.element,?_,?_,?_⟩
      · rw [Output.count,hcountValue,Option.bind_some] at hcount
        exact hcount
      · intro index hindex
        rw [Bool.or_eq_true,not_or,List.any_eq_true] at hready
        cases hv : s.values.lookup index with
        | none =>
          apply absurd _ hready.2
          exact ⟨index,List.mem_range.mpr hindex,by rw [hv]; rfl⟩
        | some v =>
          obtain ⟨collection',w,hcollection',hw,hreported⟩ := h index v hv
          cases hcollection.symm.trans hcollection'
          rw [element,hv,hw]
          exact hreported
      · have hvalue : s.collectionValue = .str collection := by
          rw [collectionValue,hcollection]
          rfl
        rw [hvalue,List.filter_eq_self]
        intro e he
        cases List.mem_append.mp he with
        | inl hitem =>
          obtain ⟨index,_,rfl⟩ := List.mem_map.mp hitem
          exact isElement_item id _ _ _
        | inr hcomplete =>
          rw [List.mem_singleton.mp hcomplete]
          exact isElement_complete id _ _
  · exact hquiet

theorem turned_deliver (h : Holds past s) (id : String) (message : LuaValue) :
    Turned id (past ++ [.deliver message]) (s.deliver id message) := by
  have hfailure := fun (s : Output) (kind : String) => turned_failure s id kind (past ++ [Act.deliver message])
  have hpast : Holds (past ++ [Act.deliver message]) s := h.mono fun a ha => List.mem_append_left _ ha
  unfold deliver
  dsimp only
  split
  · next collection _ hcollection =>
    have hvalue : ((message.get "value").get "value").orElse .nil = (message.get "value").get "value" := by
      unfold LuaValue.orElse at hcollection ⊢
      split
      · rfl
      · next hfalse =>
        rw [if_neg hfalse] at hcollection
        cases hcollection
    rw [hvalue] at hcollection ⊢
    split
    · exact hfailure _ _ _
    · next hsame =>
      rw [not_not] at hsame
      split
      · next hitem =>
        split
        · exact hfailure _ _ _
        · next index hindex =>
          split
          · exact hfailure _ _ _
          · apply turned_finishIfReady _ hsame
            intro other v hv
            dsimp only at hv ⊢
            rw [lookup_insert_ite] at hv ⊢
            split at hv
            · next heq =>
              cases hv
              rw [if_pos heq,heq]
              exact ⟨collection,_,hsame,rfl,message,List.mem_append_right _ List.mem_cons_self,hitem,hcollection,hindex,rfl⟩
            · next hne =>
              obtain ⟨collection',w,hcollection',hw,hreported⟩ := hpast other v hv
              rw [if_neg hne]
              refine ⟨collection',w,?_,hw,hreported⟩
              rw [hcollection']
              rfl
      · split
        · exact hfailure _ _ _
        · split
          · exact hfailure _ _ _
          · apply turned_finishIfReady _ hsame
            intro other v hv
            obtain ⟨collection',w,hcollection',hw,hreported⟩ := hpast other v hv
            refine ⟨collection',w,?_,hw,hreported⟩
            dsimp only
            rw [hcollection']
            rfl
  · exact hfailure _ _ _

theorem turned_act (h : Holds past s) (id : String) (a : Act) : Turned id (past ++ [a]) (s.act id a) := by
  cases a with
  | deliver message => exact turned_deliver h id message
  | kill => exact .inl ⟨rfl,holds_cleared _ s⟩
  | drain =>
    left
    refine ⟨?_,holds_cleared _ s⟩
    unfold act handleDrain
    dsimp only
    split
    · rfl
    · simp [isElement,LuaValue.get_record_cons,LuaValue.isNil,LuaValue.rawEq]

/-- A collector that is finished emits nothing more. -/
theorem emissions_finished (hs : s.finished = true) (id : String) (acts : List Act) : emissions id s acts = [] := by
  induction acts generalizing s with
  | nil => rfl
  | cons a rest ih =>
    have hact : (s.act id a).emitted = [] ∧ (s.act id a).state.finished = true := by
      cases a with
      | deliver message =>
        unfold act deliver
        simp only [hs,Bool.true_or]
        exact ⟨rfl,rfl⟩
      | kill => exact ⟨rfl,rfl⟩
      | drain =>
        unfold act handleDrain
        rw [if_pos hs]
        exact ⟨rfl,rfl⟩
    rw [emissions,hact.1,ih hact.2]
    rfl

theorem emissions_whole (h : Holds past s) (id : String) (acts : List Act) :
    (emissions id s acts).filter isElement = [] ∨ Whole id (past ++ acts) ((emissions id s acts).filter isElement) := by
  induction acts generalizing past s with
  | nil => exact .inl rfl
  | cons a rest ih =>
    rw [emissions,List.filter_append]
    cases turned_act h id a with
    | inl hquiet =>
      rw [hquiet.1,List.nil_append,List.append_cons]
      exact ih hquiet.2
    | inr hreleased =>
      rw [emissions_finished hreleased.1,List.filter_nil,List.append_nil]
      right
      apply hreleased.2.mono
      intro b hb
      rw [List.append_cons]
      exact List.mem_append_left _ hb

/-- Whatever is delivered to a collector, and whenever it is killed or drained, it puts nothing on its stream, or
once all elements of one collection in order, each of them as it was delivered, and then their number. -/
theorem collector_whole (id : String) (acts : List Act) : (emissions id start acts).filter isElement = [] ∨
    Whole id acts ((emissions id start acts).filter isElement) := by
  have hstart : Holds [] start := by
    intro index v hv
    cases hv
  have hwhole := emissions_whole hstart id acts
  rw [List.nil_append] at hwhole
  exact hwhole

end Output
end Nefor.Kernel.Dynamic
