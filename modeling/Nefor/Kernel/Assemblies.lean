import Std.Data.String.ToInt
import Nefor.Rows
import Nefor.Kernel.Topology

/-! Assembled products: the k-th product of an assembly has the k-th arrival of each slot. -/
namespace Nefor.Kernel.Topology
open Nefor.Lua Nefor.Action Rows

section Keys
variable {destination destination' : String} {path path' : List Int}

theorem isDigit_of_mem (n : Nat) : ∀ c ∈ (toString n).toList, c.isDigit = true := by
  intro c hc
  exact Nat.isDigit_of_mem_toDigits (b := 10) (n := n) (by decide) (by decide) (by simpa using hc)

theorem int_text (i : Int) : '.' ∉ (toString i).toList ∧ '#' ∉ (toString i).toList := by
  have hnat : ∀ n : Nat, '.' ∉ (toString n).toList ∧ '#' ∉ (toString n).toList :=
    fun n => ⟨fun h => absurd (isDigit_of_mem n _ h) (by decide),fun h => absurd (isDigit_of_mem n _ h) (by decide)⟩
  cases i with
  | ofNat n => exact hnat n
  | negSucc n =>
    have htext : (toString (Int.negSucc n)).toList = '-' :: (toString (n+1)).toList := by
      change ("-" ++ toString (n+1)).toList = _
      rw [String.toList_append]
      rfl
    rw [htext]
    have h := hnat (n+1)
    simp only [List.mem_cons,not_or]
    exact ⟨⟨by decide,h.1⟩,by decide,h.2⟩

theorem path_text (path : List Int) : (String.join (path.map fun value => toString value ++ ".")).toList =
    path.flatMap fun value => (toString value).toList ++ ['.'] := by
  rw [String.toList_join,List.flatMap_map]
  simp only [String.toList_append]
  rfl

/-- Texts in which a mark ends the first part. -/
theorem split_mark {c : Char} {u v x y : List Char} (hu : c ∉ u) (hv : c ∉ v) (h : u ++ c :: x = v ++ c :: y) :
    u = v ∧ x = y := by
  induction u generalizing v with
  | nil =>
    cases v with
    | nil => exact ⟨rfl,(List.cons.inj h).2⟩
    | cons d v => exact absurd (by rw [← (List.cons.inj h).1]; exact List.mem_cons_self) hv
  | cons d u ih =>
    cases v with
    | nil => exact absurd (by rw [(List.cons.inj h).1]; exact List.mem_cons_self) hu
    | cons e v =>
      obtain ⟨rfl,htail⟩ := List.cons.inj h
      obtain ⟨rfl,hxy⟩ := ih (fun hc => hu (List.mem_cons_of_mem _ hc)) (fun hc => hv (List.mem_cons_of_mem _ hc)) htail
      exact ⟨rfl,hxy⟩

theorem path_text_inj (h : (path.flatMap fun value => (toString value).toList ++ ['.']) =
    path'.flatMap fun value => (toString value).toList ++ ['.']) : path = path' := by
  induction path generalizing path' with
  | nil =>
    cases path' with
    | nil => rfl
    | cons value rest => simp at h
  | cons value rest ih =>
    cases path' with
    | nil => simp at h
    | cons value' rest' =>
      simp only [List.flatMap_cons,List.append_assoc,List.singleton_append] at h
      obtain ⟨hvalue,hrest⟩ := split_mark (int_text value).1 (int_text value').1 h
      rw [ih hrest,Int.repr_injective (String.toList_inj.mp hvalue)]

theorem mark_notMem (path : List Int) : '#' ∉ (path.flatMap fun value => (toString value).toList ++ ['.']) := by
  intro h
  obtain ⟨value,-,hvalue⟩ := List.mem_flatMap.mp h
  rw [List.mem_append,List.mem_singleton] at hvalue
  obtain hvalue | hvalue := hvalue
  · exact (int_text value).2 hvalue
  · exact absurd hvalue (by decide)

/-- The key of an assembly names its destination and its path: the last mark comes before the path. -/
theorem assemblyKey_inj (h : assemblyKey destination path = assemblyKey destination' path') :
    destination = destination' ∧ path = path' := by
  have htext := congrArg (fun s : String => s.toList.reverse) h
  simp only [assemblyKey,String.toList_append,path_text,List.reverse_append] at htext
  have hmark : ∀ (p : List Int) (d : String), (List.reverse (p.flatMap fun value => (toString value).toList ++ ['.']) ++
      ("#".toList.reverse ++ d.toList.reverse)) = (p.flatMap fun value => (toString value).toList ++ ['.']).reverse ++
        '#' :: d.toList.reverse := fun _ _ => rfl
  rw [hmark,hmark] at htext
  obtain ⟨hpath,hdestination⟩ := split_mark (by rw [List.mem_reverse]; exact mark_notMem path)
    (by rw [List.mem_reverse]; exact mark_notMem path') htext
  exact ⟨String.toList_inj.mp (List.reverse_inj.mp hdestination),path_text_inj (List.reverse_inj.mp hpath)⟩

end Keys

variable {D : Type} (host : Semantic D)

/-- The value of an entry is accepted at the slot that it waits in. -/
def Queued.fits (entry : Queued D) (input : D) : Bool :=
  validates host input (arrayValue host entry.arrival.semantic) (some entry.arrival)

/-- What goes on when a row of entries is taken: nothing if one of them or their product is refused. -/
def Cohort.accepted (cohort : Cohort D) (row : List (Queued D)) : Option (Arrival D × List (Transform D)) :=
  if (row.zip cohort.inputs).all fun e => e.1.fits host e.2 then ((cohort.product host row).toOption).join else none

/-- The condition on an arrival: its assembly has as many slots as the cohort that it joins, and if it is
the last one of a row, the first entries of all slots but the last are accepted. -/
def Assembling.Admitted (record : Assembling D) : Prop :=
  record.spec.inputs.length = record.cohort.inputs.length ∧
    (record.cohort.complete = true → ∀ slot < record.cohort.inputs.length - 1, ∀ input ∈ record.cohort.inputs[slot]?,
      ∀ entry ∈ (record.cohort.queues slot).head?, entry.fits host input = true)

instance : DecidablePred (Assembling.Admitted host) := fun _ => inferInstanceAs (Decidable (_ ∧ _))

def Assembling.At (destination : String) (path : List Int) (record : Assembling D) : Prop :=
  record.destination = destination ∧ record.spec.path = path

instance (destination : String) (path : List Int) : DecidablePred (Assembling.At (D := D) destination path) :=
  fun _ => inferInstanceAs (Decidable (_ ∧ _))

/-- What has arrived at a slot of an assembly. -/
def arrived (destination : String) (path : List Int) (history : List (Assembling D)) (slot : Nat) : List (Queued D) :=
  (history.filter fun record => record.At destination path ∧ record.spec.slot = slot).map (·.entry)

/-- The products that an assembly has delivered, with the transforms before them. -/
def delivered (destination : String) (path : List Int) (history : List (Assembling D)) :
    List (Arrival D × List (Transform D)) :=
  (history.filter fun record => record.At destination path).filterMap fun record => record.outcome.toOption.join

/-- Every assembly is a zip of its slots, at every moment: its products are those of the rows of what had
arrived by then, in order, and what is left of the arrivals waits in the slots. -/
def State.Zips (state : State D) : Prop :=
  ∀ destination path, (∃ record ∈ state.history, record.At destination path) →
    ∃ cohort, state.assemblies.lookup (assemblyKey destination path) = some cohort ∧
      (∀ history, history <+: state.history → delivered destination path history =
        (rows (arrived destination path history) cohort.inputs.length).filterMap (cohort.accepted host)) ∧
      ∀ slot, cohort.queues slot = (arrived destination path state.history slot).drop
        (rows (arrived destination path state.history) cohort.inputs.length).length

section Take
variable {slots : List (Nat × D)} {queues tail : Nat → List (Queued D)} {head : Nat → Queued D}

/-- Where the first entries of all slots but the last are accepted, one entry is taken of each slot,
whatever becomes of the last. -/
theorem takeEntries_popped (hnodup : (slots.map (·.1)).Nodup) (hqueues : ∀ slot ∈ slots, queues slot.1 = head slot.1 :: tail slot.1)
    (hfits : ∀ slot ∈ slots.dropLast, (head slot.1).fits host slot.2 = true) :
    ∃ ending, takeEntries host slots queues = (ending,fun j => if j ∈ slots.map (·.1) then tail j else queues j) ∧
      ((∀ slot ∈ slots, (head slot.1).fits host slot.2 = true) → ending = .ok (slots.map fun slot => head slot.1)) ∧
      ((∃ slot ∈ slots, (head slot.1).fits host slot.2 = false) → ∃ message, ending = .error message) := by
  induction slots generalizing queues with
  | nil => exact ⟨.ok [],rfl,fun _ => rfl,by simp⟩
  | cons slot rest ih =>
    obtain ⟨index,input⟩ := slot
    rw [List.map_cons,List.nodup_cons] at hnodup
    have hne : ∀ slot ∈ rest, slot.1 ≠ index := by
      intro slot hslot heq
      apply hnodup.1
      change index ∈ _
      rw [← heq]
      exact List.mem_map_of_mem hslot
    have hhead := hqueues (index,input) List.mem_cons_self
    simp only at hhead
    unfold takeEntries
    simp only [hhead,validateValue]
    cases hfit : (head index).fits host input with
    | false =>
      -- Only the last entry can be refused.
      have hnil : rest = [] := by
        cases rest with
        | nil => rfl
        | cons slot' rest' =>
          have hin := hfits (index,input) (by simp)
          rw [hfit] at hin
          cases hin
      subst hnil
      rw [Queued.fits] at hfit
      simp only [hfit,Bool.false_eq_true,if_false]
      refine ⟨_,Prod.ext rfl ?_,?_,fun _ => ⟨_,rfl⟩⟩
      · funext j
        simp only [List.map_cons,List.map_nil,List.mem_singleton]
        by_cases hj : j = index
        · subst hj
          rw [Function.update_self,if_pos rfl]
        · rw [Function.update_of_ne hj,if_neg hj]
      · intro hall
        have hin := hall (index,input) List.mem_cons_self
        rw [Queued.fits,hfit] at hin
        cases hin
    | true =>
      obtain ⟨ending,htake,hok,herror⟩ := @ih (Function.update queues index (tail index)) hnodup.2
        (fun slot hslot => by
          rw [Function.update_of_ne (hne slot hslot)]
          exact hqueues slot (List.mem_cons_of_mem _ hslot))
        (fun slot hslot => hfits slot (by
          cases rest with
          | nil => cases hslot
          | cons slot' rest' => exact List.mem_cons_of_mem _ hslot))
      have hpopped : (fun j => if j ∈ rest.map (·.1) then tail j else Function.update queues index (tail index) j) =
          fun j => if j ∈ ((index,input) :: rest).map (·.1) then tail j else queues j := by
        funext j
        simp only [List.map_cons,List.mem_cons]
        by_cases hj : j = index
        · subst hj
          simp only [Function.update_self,true_or,if_true,ite_self]
        · simp only [Function.update_of_ne hj,hj,false_or]
      rw [hpopped] at htake
      rw [Queued.fits] at hfit
      simp only [hfit,if_true,htake]
      cases ending with
      | error message =>
        refine ⟨.error message,rfl,fun hall => ?_,fun _ => ⟨_,rfl⟩⟩
        have hok := hok fun slot hslot => hall slot (List.mem_cons_of_mem _ hslot)
        cases hok
      | ok entries =>
        refine ⟨.ok (head index :: entries),rfl,fun hall => ?_,?_⟩
        · have hok := hok fun slot hslot => hall slot (List.mem_cons_of_mem _ hslot)
          rw [Except.ok.inj hok]
          rfl
        · intro hrefused
          obtain ⟨slot,hslot,hno⟩ := hrefused
          rw [List.mem_cons] at hslot
          obtain rfl | hslot := hslot
          · rw [Queued.fits,hfit] at hno
            cases hno
          · obtain ⟨message,hmessage⟩ := herror ⟨slot,hslot,hno⟩
            cases hmessage

end Take

section Step
variable {destination destination' : String} {path path' : List Int} {history : List (Assembling D)}
  {record : Assembling D} {cohort : Cohort D}

theorem arrived_concat : arrived destination path (history ++ [record]) =
    if record.At destination path then push (arrived destination path history) record.spec.slot record.entry
    else arrived destination path history := by
  funext slot
  unfold arrived
  rw [List.filter_append,List.map_append,List.filter_singleton]
  by_cases hat : record.At destination path
  · by_cases hslot : record.spec.slot = slot
    · subst hslot
      simp [hat,push]
    · simp [hat,hslot,push,Function.update_of_ne (Ne.symm hslot)]
  · simp [hat]

theorem delivered_concat : delivered destination path (history ++ [record]) =
    delivered destination path history ++
      if record.At destination path then record.outcome.toOption.join.toList else [] := by
  unfold delivered
  rw [List.filter_append,List.filterMap_append,List.filter_singleton]
  by_cases hat : record.At destination path
  · cases hjoin : record.outcome.toOption.join <;> simp [hat,hjoin]
  · simp [hat]

/-- A cohort has, for each slot, what arrived there and is in no row yet. -/
structure Aligned (destination : String) (path : List Int) (history : List (Assembling D)) (cohort : Cohort D) : Prop where
  drained : Drained cohort.inputs.length (arrived destination path history) cohort.queues
  beyond : ∀ slot, cohort.inputs.length ≤ slot → arrived destination path history slot = [] ∧ cohort.queues slot = []
  products : ∀ h, h <+: history → delivered destination path h =
    (rows (arrived destination path h) cohort.inputs.length).filterMap (cohort.accepted host)

/-- An arrival elsewhere. -/
theorem Aligned.other (h : Aligned host destination path history cohort) (hat : ¬ record.At destination path) :
    Aligned host destination path (history ++ [record]) cohort where
  drained := by
    rw [arrived_concat,if_neg hat]
    exact h.drained
  beyond := by
    rw [arrived_concat,if_neg hat]
    exact h.beyond
  products := by
    intro g hg
    rw [List.prefix_concat_iff] at hg
    obtain rfl | hg := hg
    · rw [delivered_concat,arrived_concat,if_neg hat,if_neg hat,List.append_nil]
      exact h.products history (List.prefix_refl _)
    · exact h.products g hg

/-- An arrival there, after which the queues are as the rows have it. -/
theorem Aligned.here {queues : Nat → List (Queued D)} {row : List (List (Queued D))}
    (h : Aligned host destination path history cohort) (hat : record.At destination path)
    (hlt : record.spec.slot < cohort.inputs.length)
    (hdrained : Drained cohort.inputs.length (push (arrived destination path history) record.spec.slot record.entry) queues)
    (hqueues : ∀ slot, cohort.inputs.length ≤ slot → queues slot = [])
    (hrows : rows (push (arrived destination path history) record.spec.slot record.entry) cohort.inputs.length =
      rows (arrived destination path history) cohort.inputs.length ++ row)
    (houtcome : record.outcome.toOption.join.toList = row.filterMap (cohort.accepted host)) :
    Aligned host destination path (history ++ [record]) { cohort with queues := queues } where
  drained := by
    rw [arrived_concat,if_pos hat]
    exact hdrained
  beyond := by
    intro slot hslot
    have hne : slot ≠ record.spec.slot := Nat.ne_of_gt (Nat.lt_of_lt_of_le hlt hslot)
    rw [arrived_concat,if_pos hat,push,Function.update_of_ne hne]
    exact ⟨(h.beyond slot hslot).1,hqueues slot hslot⟩
  products := by
    intro g hg
    rw [List.prefix_concat_iff] at hg
    obtain rfl | hg := hg
    · rw [delivered_concat,arrived_concat,if_pos hat,if_pos hat,hrows,List.filterMap_append,houtcome,
        h.products history (List.prefix_refl _)]
      rfl
    · exact h.products g hg

end Step

section Assemble
variable {state : State D} {destination destination' : String} {spec : Assembly D} {arrival : Arrival D}
  {remaining : List (Transform D)} {cohort : Cohort D} {path : List Int}

theorem complete_iff : cohort.complete = true ↔ ∀ slot < cohort.inputs.length, cohort.queues slot ≠ [] := by
  simp [Cohort.complete]

/-- Every assembly that anything arrived for has its cohort. -/
def State.Aligned (state : State D) : Prop :=
  ∀ destination path, match state.assemblies.lookup (assemblyKey destination path) with
    | none => ∀ record ∈ state.history, ¬ record.At destination path
    | some cohort => Topology.Aligned host destination path state.history cohort

theorem State.Aligned.zips (h : state.Aligned host) : state.Zips host := by
  intro destination path hat
  have hkey := h destination path
  cases hlookup : state.assemblies.lookup (assemblyKey destination path) with
  | none =>
    rw [hlookup] at hkey
    obtain ⟨record,hrecord,hat⟩ := hat
    exact absurd hat (hkey record hrecord)
  | some cohort =>
    rw [hlookup] at hkey
    refine ⟨cohort,rfl,hkey.products,fun slot => ?_⟩
    by_cases hslot : slot < cohort.inputs.length
    · exact hkey.drained.queue hslot
    · obtain ⟨harrived,hqueue⟩ := hkey.beyond slot (by omega)
      rw [harrived,hqueue,List.drop_nil]

theorem State.Aligned.new : (State.new : State D).Aligned host := by
  intro destination path
  rw [State.new,AList.lookup_empty]
  exact fun _ hrecord => absurd hrecord (List.not_mem_nil)

/-- A cohort that is new has nothing waiting, as nothing has arrived. -/
theorem State.Aligned.joined (h : state.Aligned host) :
    Topology.Aligned host destination spec.path state.history (state.cohort destination spec) := by
  have hkey := h destination spec.path
  unfold State.cohort
  cases hlookup : state.assemblies.lookup (assemblyKey destination spec.path) with
  | some cohort =>
    rw [hlookup] at hkey
    exact hkey
  | none =>
    rw [hlookup] at hkey
    have hfilter : ∀ history : List (Assembling D), history <+: state.history →
        (history.filter fun record => record.At destination spec.path) = [] ∧
          arrived destination spec.path history = fun _ => [] := by
      intro history hearlier
      have hnone : ∀ record ∈ history, ¬ record.At destination spec.path :=
        fun record hrecord => hkey record (hearlier.subset hrecord)
      refine ⟨List.filter_eq_nil_iff.mpr fun record hrecord => by simpa using hnone record hrecord,?_⟩
      funext slot
      unfold arrived
      rw [List.map_eq_nil_iff,List.filter_eq_nil_iff]
      intro record hrecord
      simp [hnone record hrecord]
    have hempty := (hfilter _ (List.prefix_refl _)).2
    constructor
    · rw [hempty]
      exact Drained.empty (Nat.ne_of_gt (Nat.zero_lt_of_lt spec.slot_lt))
    · rw [hempty]
      exact fun _ _ => ⟨rfl,rfl⟩
    · intro history hearlier
      obtain ⟨hnone,harrived⟩ := hfilter history hearlier
      rw [delivered,hnone,harrived,rows_nil (Nat.zero_lt_of_lt spec.slot_lt) rfl]
      rfl

theorem slots_fst (cohort : Cohort D) :
    ((List.range cohort.inputs.length).zip cohort.inputs).map (·.1) = List.range cohort.inputs.length :=
  List.map_fst_zip (by rw [List.length_range])

theorem slots_get {slot : Nat × D} (h : slot ∈ ((List.range cohort.inputs.length).zip cohort.inputs).dropLast) :
    cohort.inputs[slot.1]? = some slot.2 ∧ slot.1 + 1 < cohort.inputs.length := by
  obtain ⟨i,hi⟩ := List.getElem?_of_mem h
  rw [List.getElem?_dropLast] at hi
  split at hi
  · rename_i hlt
    rw [List.length_zip,List.length_range,Nat.min_self] at hlt
    rw [List.getElem?_zip_eq_some,List.getElem?_range (by omega)] at hi
    obtain ⟨hindex,hinput⟩ := hi
    rw [← Option.some.inj hindex]
    exact ⟨hinput,by omega⟩
  · cases hi

/-- What comes of a complete row. -/
theorem take_row {head : Nat → Queued D} {tail : Nat → List (Queued D)}
    (hqueues : ∀ slot < cohort.inputs.length, cohort.queues slot = head slot :: tail slot)
    (hfits : ∀ slot < cohort.inputs.length - 1, ∀ input ∈ cohort.inputs[slot]?,
      ∀ entry ∈ (cohort.queues slot).head?, entry.fits host input = true) :
    ∃ ending, takeEntries host ((List.range cohort.inputs.length).zip cohort.inputs) cohort.queues =
        (ending,fun slot => if slot < cohort.inputs.length then tail slot else cohort.queues slot) ∧
      (match ending with | .ok entries => cohort.product host entries | .error message => .error message).toOption.join =
        cohort.accepted host ((List.range cohort.inputs.length).map head) := by
  have hslot : ∀ slot ∈ (List.range cohort.inputs.length).zip cohort.inputs, slot.1 < cohort.inputs.length :=
    fun _ hslot => List.mem_range.mp (List.of_mem_zip hslot).1
  obtain ⟨ending,htake,hok,herror⟩ := @takeEntries_popped _ host ((List.range cohort.inputs.length).zip cohort.inputs) cohort.queues
    tail head (by rw [slots_fst]; exact List.nodup_range) (fun slot hs => hqueues slot.1 (hslot slot hs))
    fun slot hs => by
      obtain ⟨hinput,hlt⟩ := slots_get hs
      apply hfits slot.1 (by omega) slot.2 hinput
      rw [hqueues slot.1 (by omega)]
      rfl
  simp only [slots_fst,List.mem_range] at htake
  refine ⟨ending,htake,?_⟩
  have hrow : ((List.range cohort.inputs.length).map head).zip cohort.inputs =
      ((List.range cohort.inputs.length).zip cohort.inputs).map fun slot => (head slot.1,slot.2) := by
    rw [List.zip_map_left]
    rfl
  unfold Cohort.accepted
  rw [hrow,List.all_map]
  cases hall : ((List.range cohort.inputs.length).zip cohort.inputs).all
      ((fun e : Queued D × D => e.1.fits host e.2) ∘ fun slot => (head slot.1,slot.2)) with
  | true =>
    have hentries : (((List.range cohort.inputs.length).zip cohort.inputs).map fun slot => head slot.1) =
        (List.range cohort.inputs.length).map head := by
      calc (((List.range cohort.inputs.length).zip cohort.inputs).map fun slot => head slot.1)
          = (((List.range cohort.inputs.length).zip cohort.inputs).map (·.1)).map head := by rw [List.map_map]; rfl
        _ = _ := by rw [slots_fst]
    rw [hok (List.all_eq_true.mp hall),hentries]
    rfl
  | false =>
    obtain ⟨slot,hs,hno⟩ := List.all_eq_false.mp hall
    obtain ⟨message,rfl⟩ := herror ⟨slot,hs,Bool.not_eq_true _ ▸ hno⟩
    rfl

/-- What `assemble` does: it waits, or it takes a row. -/
theorem assemble_spec (head : Nat → Queued D) (tail : Nat → List (Queued D)) :
    ∃ outcome queues, assemble host destination spec arrival remaining state = (outcome,{ state with
        assemblies := state.assemblies.insert (assemblyKey destination spec.path)
          { state.cohort destination spec with queues := queues }
        history := state.history ++ [⟨destination,spec,⟨arrival,remaining⟩,
          (state.cohort destination spec).push spec.slot ⟨arrival,remaining⟩,outcome⟩] }) ∧
      (((state.cohort destination spec).push spec.slot ⟨arrival,remaining⟩).complete = false →
        outcome = .ok none ∧ queues = push (state.cohort destination spec).queues spec.slot ⟨arrival,remaining⟩) ∧
      (((state.cohort destination spec).push spec.slot ⟨arrival,remaining⟩).complete = true →
        (∀ slot < (state.cohort destination spec).inputs.length,
          push (state.cohort destination spec).queues spec.slot ⟨arrival,remaining⟩ slot = head slot :: tail slot) →
        (∀ slot < (state.cohort destination spec).inputs.length - 1, ∀ input ∈ (state.cohort destination spec).inputs[slot]?,
          ∀ entry ∈ (push (state.cohort destination spec).queues spec.slot ⟨arrival,remaining⟩ slot).head?,
            entry.fits host input = true) →
        outcome.toOption.join = (state.cohort destination spec).accepted host
          ((List.range (state.cohort destination spec).inputs.length).map head) ∧
        queues = fun slot => if slot < (state.cohort destination spec).inputs.length then tail slot
          else push (state.cohort destination spec).queues spec.slot ⟨arrival,remaining⟩ slot) := by
  refine ⟨_,_,rfl,?_,?_⟩
  · intro hcomplete
    simp only [hcomplete,Bool.false_eq_true,if_false]
    exact ⟨trivial,rfl⟩
  · intro hcomplete hheads hfits
    obtain ⟨ending,htake,haccepted⟩ := @take_row _ host
      ((state.cohort destination spec).push spec.slot ⟨arrival,remaining⟩) _ _ hheads hfits
    simp only [hcomplete,if_true,htake]
    cases ending with
    | error message => exact ⟨haccepted,rfl⟩
    | ok entries => exact ⟨haccepted,rfl⟩

/-- An arrival keeps every assembly aligned, if it is admitted. -/
theorem State.Aligned.assemble (h : state.Aligned host)
    (hadmitted : ∀ record ∈ (assemble host destination spec arrival remaining state).2.history, record.Admitted host) :
    (assemble host destination spec arrival remaining state).2.Aligned host := by
  have hjoined := @State.Aligned.joined _ host _ destination spec h
  obtain ⟨outcome,queues,heq,hwait,hrow⟩ := @assemble_spec _ host state destination spec arrival remaining
    (fun slot => (push (state.cohort destination spec).queues spec.slot ⟨arrival,remaining⟩ slot).headD ⟨arrival,remaining⟩)
    fun slot => (push (state.cohort destination spec).queues spec.slot ⟨arrival,remaining⟩ slot).tail
  rw [heq] at hadmitted ⊢
  obtain ⟨hlen,hfits⟩ := hadmitted _ (List.mem_append_right _ (List.mem_singleton_self _))
  change spec.inputs.length = (state.cohort destination spec).inputs.length at hlen
  have hslot : spec.slot < (state.cohort destination spec).inputs.length := hlen ▸ spec.slot_lt
  intro destination' path'
  by_cases hat : destination = destination' ∧ spec.path = path'
  · obtain ⟨rfl,rfl⟩ := hat
    simp only [AList.lookup_insert]
    cases hcomplete : ((state.cohort destination spec).push spec.slot ⟨arrival,remaining⟩).complete with
    | false =>
      have hempty : ∃ j < (state.cohort destination spec).inputs.length,
          push (state.cohort destination spec).queues spec.slot ⟨arrival,remaining⟩ j = [] := by
        by_contra hno
        have hfull := (@complete_iff _ ((state.cohort destination spec).push spec.slot ⟨arrival,remaining⟩)).mpr
          fun slot hlt hnil => hno ⟨slot,hlt,hnil⟩
        rw [hcomplete] at hfull
        cases hfull
      obtain ⟨rfl,rfl⟩ := hwait hcomplete
      obtain ⟨hdrained,hrows⟩ := hjoined.drained.push_wait hempty
      apply @Aligned.here _ host _ _ _ _ _ _ [] hjoined ⟨rfl,rfl⟩ hslot hdrained
      · intro slot hge
        rw [push,Function.update_of_ne (by omega)]
        exact (hjoined.beyond slot hge).2
      · rw [hrows,List.append_nil]
      · rfl
    | true =>
      have hheads : ∀ slot < (state.cohort destination spec).inputs.length,
          push (state.cohort destination spec).queues spec.slot ⟨arrival,remaining⟩ slot =
            (push (state.cohort destination spec).queues spec.slot ⟨arrival,remaining⟩ slot).headD ⟨arrival,remaining⟩ ::
              (push (state.cohort destination spec).queues spec.slot ⟨arrival,remaining⟩ slot).tail := by
        intro slot hlt
        obtain ⟨first,more,hcons⟩ := List.exists_cons_of_ne_nil (complete_iff.mp hcomplete slot hlt)
        change push _ _ _ slot = first :: more at hcons
        rw [hcons]
        rfl
      obtain ⟨haccepted,rfl⟩ := hrow hcomplete hheads (hfits hcomplete)
      obtain ⟨hdrained,hrows⟩ := hjoined.drained.push_row hheads
      apply hjoined.here host ⟨rfl,rfl⟩ hslot (hdrained.congr fun slot hlt => if_pos hlt)
      · intro slot hge
        rw [if_neg (by omega),push,Function.update_of_ne (by omega)]
        exact (hjoined.beyond slot hge).2
      · exact hrows
      · rw [haccepted,List.filterMap_cons,List.filterMap_nil]
        cases (state.cohort destination spec).accepted host _ with
        | none => rfl
        | some product => rfl
  · have hkey := h destination' path'
    have hne : assemblyKey destination' path' ≠ assemblyKey destination spec.path := by
      intro heq
      obtain ⟨hd,hp⟩ := assemblyKey_inj heq
      exact hat ⟨hd.symm,hp.symm⟩
    simp only [AList.lookup_insert_ne hne]
    cases hlookup : state.assemblies.lookup (assemblyKey destination' path') with
    | none =>
      rw [hlookup] at hkey
      intro record hrecord
      rw [List.mem_append,List.mem_singleton] at hrecord
      obtain hrecord | rfl := hrecord
      · exact hkey record hrecord
      · exact hat
    | some cohort =>
      rw [hlookup] at hkey
      exact hkey.other host hat

end Assemble

section Runs
variable {state state' state'' : State D} {α β : Type}

/-- The history grows, and where what it records is admitted the assemblies stay aligned. -/
def Keeps (state state' : State D) : Prop :=
  state.history <+: state'.history ∧
    (state.Aligned host → (∀ record ∈ state'.history, record.Admitted host) → state'.Aligned host)

theorem Keeps.refl (state : State D) : Keeps host state state := ⟨List.prefix_refl _,fun h _ => h⟩

theorem Keeps.trans (h : Keeps host state state') (h' : Keeps host state' state'') : Keeps host state state'' :=
  ⟨h.1.trans h'.1,fun haligned hadmitted =>
    h'.2 (h.2 haligned fun record hrecord => hadmitted record (h'.1.subset hrecord)) hadmitted⟩

theorem assemble_keeps (destination : String) (spec : Assembly D) (arrival : Arrival D) (remaining : List (Transform D))
    (state : State D) : Keeps host state (assemble host destination spec arrival remaining state).2 :=
  ⟨List.prefix_append _ _,fun h hadmitted => h.assemble host hadmitted⟩

theorem transform_keeps (destination : String) (arrival : Arrival D) (transforms : List (Transform D)) (state : State D) :
    Keeps host state (transform host destination arrival transforms state).2 := by
  fun_induction transform host destination arrival transforms state with
  | case1 => exact .refl host _
  | case2 arrival state spec rest message state' h =>
    have hkeeps := assemble_keeps host destination spec arrival rest state
    rwa [h] at hkeeps
  | case3 arrival state spec rest state' h =>
    have hkeeps := assemble_keeps host destination spec arrival rest state
    rwa [h] at hkeeps
  | case4 arrival state spec rest product remaining state' h ih =>
    have hkeeps := assemble_keeps host destination spec arrival rest state
    rw [h] at hkeeps
    exact hkeeps.trans host ih
  | case5 => exact .refl host _
  | case6 => exact .refl host _
  | case7 arrival state step rest _ next _ ih => exact ih

/-- What the topology can become: values arrive at destinations, in any order, and between them routes are
installed, a boundary is set and initial messages are counted. -/
inductive Reaches (first : State D) : State D → Prop
  | refl : Reaches first first
  | transform {last : State D} (destination : String) (arrival : Arrival D) (transforms : List (Transform D)) :
      Reaches first last → Reaches first (transform host destination arrival transforms last).2
  | install {last : State D} (routes : List (Route D)) : Reaches first last → Reaches first (install routes last)
  | setResult {last : State D} (boundary : Option (Boundary D)) : Reaches first last → Reaches first (setResult boundary last)
  | count {last : State D} : Reaches first last → Reaches first { last with initialSeq := last.initialSeq + 1 }

theorem Reaches.trans (h : Reaches host state state') (h' : Reaches host state' state'') : Reaches host state state'' := by
  induction h' with
  | refl => exact h
  | transform destination arrival transforms _ ih => exact ih.transform destination arrival transforms
  | install routes _ ih => exact ih.install routes
  | setResult boundary _ ih => exact ih.setResult boundary
  | count _ ih => exact ih.count

theorem Reaches.keeps (h : Reaches host state state') : Keeps host state state' := by
  induction h with
  | refl => exact .refl host _
  | transform destination arrival transforms _ ih => exact ih.trans host (transform_keeps host destination arrival transforms _)
  | install routes _ ih => exact ih
  | setResult boundary _ ih => exact ih
  | count _ ih => exact ih

/-- In every run whose arrivals are all admitted, every assembly is a zip of its slots. -/
theorem assembly_zips (h : Reaches host State.new state) (hadmitted : ∀ record ∈ state.history, record.Admitted host) :
    state.Zips host := (h.keeps.2 (State.Aligned.new host) hadmitted).zips

/-- Text and lists, as the host has them. -/
def sampleHost : Semantic String where
  id := some
  accepts := fun expected actual => expected == actual
  validateValue := fun descriptor value => if descriptor = "String" then value.typeName == "string" else value.isTable
  constructor := fun _ _ => .error "not a sum"
  unit := "Unit"
  list := fun _ => "List"
  null := .userdata 0

def sampleArrival (value : LuaValue) : Arrival String where
  arrivalId := "initial"
  sender := "mag.control"
  edgeId := none
  typeId := "String"
  type := "String"
  declaredTypeId := "String"
  declaredType := "String"
  constructorId := none
  protocolWire := "in"
  productPosition := -1
  payload := .record [("value",value)]
  controlMetadata := .nil

/-- A list of three texts. -/
def sampleSpec (slot : Fin 3) : Assembly String := ⟨["String","String","String"],"List",slot,[3],slot.isLt⟩

def sampleArrive (slot : Fin 3) (value : LuaValue) (state : State String) : State String :=
  (transform sampleHost "actor:4:dest:in" (sampleArrival value) [.assemble (sampleSpec slot)] state).2

def sampleJoin (slot : Fin 3) (value : LuaValue) (state : State String) : Except String (Option (Arrival String × List (Transform String))) × State String :=
  assemble sampleHost "actor:4:dest:in" (sampleSpec slot) (sampleArrival value) [] state

theorem sampleArrive_eq {slot : Fin 3} {value : LuaValue} {state : State String}
    (h : ((sampleJoin slot value state).1.toOption.join.all fun product => product.2.isEmpty) = true) :
    sampleArrive slot value state = (sampleJoin slot value state).2 := by
  unfold sampleArrive sampleJoin at *
  rw [transform]
  split
  · rename_i heq
    rw [heq]
  · rename_i heq
    rw [heq]
  · rename_i arrival remaining state' heq
    rw [heq] at h ⊢
    obtain rfl : remaining = [] := List.isEmpty_iff.mp h
    rw [transform]

def sampleRun (arrivals : List (Fin 3 × LuaValue)) : State String :=
  arrivals.foldl (fun state arrival => (sampleJoin arrival.1 arrival.2 state).2) State.new

/-- Where what follows an assembly is nothing, the arrivals are a run. -/
theorem sampleRun_reaches {arrivals : List (Fin 3 × LuaValue)}
    (h : ∀ n < arrivals.length, ∀ arrival ∈ arrivals[n]?,
      ((sampleJoin arrival.1 arrival.2 (sampleRun (arrivals.take n))).1.toOption.join.all
        fun product => product.2.isEmpty) = true) : Reaches sampleHost State.new (sampleRun arrivals) := by
  induction arrivals using List.reverseRecOn with
  | nil => exact .refl
  | append_singleton front arrival ih =>
    have hfront : Reaches sampleHost State.new (sampleRun front) := by
      apply ih
      intro n hn next hnext
      have hsame := h n (by rw [List.length_append]; omega) next
      rw [List.getElem?_append_left hn,List.take_append_of_le_length (Nat.le_of_lt hn)] at hsame
      exact hsame hnext
    have hlast := h front.length (by simp) arrival
    rw [List.getElem?_concat_length,List.take_left] at hlast
    have hstep : sampleRun (front ++ [arrival]) = sampleArrive arrival.1 arrival.2 (sampleRun front) := by
      rw [sampleArrive_eq (hlast rfl),sampleRun,List.foldl_append]
      rfl
    rw [hstep]
    exact hfront.transform _ _ _

/-- A list of three texts that arrive out of order. -/
theorem assembly_zips_list : (sampleRun [(2,.str "c"),(0,.str "a"),(1,.str "b")]).Zips sampleHost :=
  assembly_zips sampleHost (sampleRun_reaches (by decide)) (by decide)

/-- The second slot gets a number: the text of the first slot is lost with it, that of the third stays, and
is put into the list of the texts that come next. -/
theorem assembly_zips_fails :
    Reaches sampleHost State.new
      (sampleRun [(0,.str "a1"),(2,.str "c1"),(1,.num (.int 7)),(0,.str "a2"),(1,.str "b2")]) ∧
      ¬ (sampleRun [(0,.str "a1"),(2,.str "c1"),(1,.num (.int 7)),(0,.str "a2"),(1,.str "b2")]).Zips sampleHost := by
  refine ⟨sampleRun_reaches (by decide),fun h => ?_⟩
  obtain ⟨cohort,hlookup,-,hqueues⟩ := h "actor:4:dest:in" [3] (by decide)
  have hcohort : ((sampleRun [(0,.str "a1"),(2,.str "c1"),(1,.num (.int 7)),(0,.str "a2"),(1,.str "b2")]).assemblies.lookup
      (assemblyKey "actor:4:dest:in" [3])).map (fun cohort => (cohort.inputs.length,(cohort.queues 0).length)) = some (3,0) := by
    decide
  rw [hlookup] at hcohort
  obtain ⟨hinputs,hnone⟩ := Prod.mk.inj (Option.some.inj hcohort)
  -- The second text of the first slot is used, though there is only one row.
  have hlength := congrArg List.length (hqueues 0)
  rw [hinputs,hnone] at hlength
  exact absurd hlength (by decide)

/-! The operations of the source are such runs, whatever the deliveries that they make go on to do. -/

def Performs (m : Action (State D) String α) : Prop := ∀ state, Reaches host state (m state).2

theorem performs_pure (a : α) : Performs host (pure a : Action (State D) String α) := fun _ => .refl

theorem performs_bind {m : Action (State D) String α} {k : α → Action (State D) String β} (hm : Performs host m)
    (hk : ∀ a, Performs host (k a)) : Performs host (m >>= k) := by
  intro state
  rw [bind_apply]
  have h := hm state
  cases hstate : m state with
  | mk ending state' =>
    rw [hstate] at h
    cases ending with
    | error message => exact h
    | ok a => exact h.trans host (hk a state')

theorem performs_read : Performs host (read : Action (State D) String (State D)) := fun _ => .refl

theorem performs_transform (destination : String) (arrival : Arrival D) (transforms : List (Transform D)) :
    Performs host (transform host destination arrival transforms) := fun _ => Reaches.refl.transform _ _ _

/-- Deliveries and settlements use the topology by its operations. -/
structure Hooks.Perform (hooks : Hooks D) : Prop where
  dispatch : ∀ id port arrival, Performs host (hooks.dispatch id port arrival)
  settleResult : ∀ id observed, Performs host (hooks.settleResult id observed)

variable {host} {hooks : Hooks D}

theorem initial_performs (hhooks : hooks.Perform host) (message : Message D) : Performs host (initial host hooks message) := by
  apply performs_bind host (fun _ => Reaches.refl.count)
  intro _
  apply performs_bind host (performs_read host)
  intro state
  apply performs_bind host (performs_transform host _ _ _)
  intro transformed
  cases transformed with
  | none => exact performs_pure host ()
  | some transformed => exact hhooks.dispatch _ _ _

theorem routeEach_performs (hhooks : hooks.Perform host) (sender wire : String) (routes : List (Route D)) (arrival : Arrival D) :
    Performs host (routeEach host hooks sender wire routes arrival) := by
  induction routes generalizing arrival with
  | nil => exact performs_pure host ()
  | cons route rest ih =>
    unfold routeEach
    split
    · apply performs_bind host (performs_transform host _ _ _)
      intro transformed
      cases transformed with
      | none => exact ih arrival
      | some transformed => exact performs_bind host (hhooks.dispatch _ _ _) fun _ => ih _
    · exact ih arrival

theorem route_performs (hhooks : hooks.Perform host) (sender wire : String) (arrival : Arrival D) :
    Performs host (route host hooks sender wire arrival) :=
  performs_bind host (performs_read host) fun state => routeEach_performs hhooks sender wire state.routes arrival

theorem observeEach_performs (hhooks : hooks.Perform host) (sender wire : String) (arrival : Arrival D) (leaves : List (Leaf D))
    (terminal : Bool) : Performs host (observeEach host hooks sender wire arrival leaves terminal) := by
  induction leaves generalizing terminal with
  | nil => exact performs_pure host terminal
  | cons leaf rest ih =>
    unfold observeEach
    split
    · apply performs_bind host (performs_transform host _ _ _)
      intro transformed
      cases transformed with
      | none => exact ih terminal
      | some transformed =>
        simp only
        split
        · exact performs_bind host (hhooks.settleResult _ _) fun _ => ih true
        · exact ih terminal
    · exact ih terminal

theorem observeResult_performs (hhooks : hooks.Perform host) (sender wire : String) (arrival : Arrival D) :
    Performs host (observeResult host hooks sender wire arrival) := by
  apply performs_bind host (performs_read host)
  intro state
  cases state.result with
  | none => exact performs_pure host false
  | some boundary => exact observeEach_performs hhooks sender wire arrival boundary.leaves false

theorem bootstrapEach_performs (hhooks : hooks.Perform host) (unitId : String) (index : Nat) (flows : List (List (Transform D)))
    (settled : Bool) : Performs host (bootstrapEach host hooks unitId index flows settled) := by
  induction flows generalizing index settled with
  | nil => exact performs_pure host settled
  | cons steps rest ih =>
    unfold bootstrapEach
    apply performs_bind host (performs_transform host _ _ _)
    intro transformed
    cases transformed with
    | none => exact ih (index + 1) settled
    | some transformed => exact performs_bind host (hhooks.settleResult _ _) fun _ => ih (index + 1) true

theorem bootstrapResult_performs (hhooks : hooks.Perform host) : Performs host (bootstrapResult host hooks) := by
  apply performs_bind host (performs_read host)
  intro state
  cases state.result with
  | none => exact performs_pure host false
  | some boundary =>
    simp only
    split
    · split
      · exact performs_pure host false
      · exact fun _ => .refl
    · exact bootstrapEach_performs hhooks _ _ _ _

/-- A modification that is rejected leaves the topology as it was. -/
theorem restore_install (routes : List (Route D)) (state : State D) : restore (snapshot state) (install routes state) = state := rfl

end Runs

end Nefor.Kernel.Topology
