import Mathlib.Algebra.Order.Ring.Unbundled.Rat
import Nefor.Lists
import Nefor.NoticeLog
import Nefor.ConversationManager.Paths
import Nefor.ConversationManager.Projection

/-! The policy reads the log of notices back. Replayed over the entries of one scope, in their
order, `reduce` holds exactly the notice that is outstanding. -/
namespace Nefor.ConversationManager
open Nefor.Lua Nefor.NoticeLog

/-- The kind of event that an entry is logged by. -/
def stepKind : Step → String
  | .appended => "context_notice_appended"
  | .included _ => "context_notice_included"
  | .delivered _ => "context_notice_delivered"

/-- The fact is what the store logged for the entry. -/
structure Reads (fact : Fields) (e : Entry) : Prop where
  kind : fact.get "kind" = .str (stepKind e.step)
  noticeId : fact.get "notice_id" = .str e.id
  named : e.id ≠ ""
  requestId : ∀ r, e.step = .included r ∨ e.step = .delivered r → fact.get "request_id" = .str r
  epoch : fact.get "epoch_id" = .str e.scope.epoch
  provider : fact.get "provider" = .str e.scope.provider
  model : fact.get "model" = .str e.scope.model
  path : HistoryPath.Denotes (fact.get "history_id") e.path
  sequence : ∃ n, fact.get "sequence" = .num n ∧ n.toRat = some e.sequence

/-- The state is that of the scope after the entries. -/
structure Replayed (scope : Scope) (key : String) (s : CompactionPolicy.State)
    (log : List Entry) : Prop where
  epoch : s.epochId = .str scope.epoch
  notices : ∀ a ∈ log, ∀ id, a.Appends id → ∃ n, s.noticeMap.lookup id = some n ∧
    n.noticeId = .str id ∧ n.provider = .str scope.provider ∧ n.model = .str scope.model ∧ n.historyId = .str key ∧
    ∀ i ∈ log, ∀ r, i.Includes id r → n.requestIds.any (·.rawEq (.str r))
  outstanding : ∀ id, s.outstanding = some id ↔ Outstanding log id

section Reduce
variable {scope : Scope} {key : String} {s : CompactionPolicy.State} {log : List Entry}
  {fact : Fields} {e : Entry}

theorem stepKind_ne (step : Step) : stepKind step ≠ "conversation_created" ∧
    stepKind step ≠ "context_compaction_completed" := by
  cases step <;> simp [stepKind]

theorem scoped_get {name : String} (h : name ≠ "history_id") :
    (fact.set "history_id" (.str key)).get name = fact.get name := Fields.get_set_of_ne _ _ h

/-- A fact of another epoch changes nothing. -/
theorem reduce_other (hr : Reads fact e) {epoch : String} (hs : s.epochId = .str epoch)
    (he : e.scope.epoch ≠ epoch) :
    CompactionPolicy.reduce s (fact.set "history_id" (.str key)) = s := by
  have hk := stepKind_ne e.step
  simp [CompactionPolicy.reduce,scoped_get,hr.kind,hr.epoch,hs,LuaValue.str_rawEq,hk.1,hk.2,he]

/-- The notices that are known are found, and the fact fits them. -/
theorem Replayed.found (key : String) (h : Replayed scope key s log) (hr : Reads fact e) (hs : e.scope = scope)
    {a : Entry} (hal : a ∈ log) (happ : a.Appends e.id) :
    ∃ n, s.noticeMap.lookup e.id = some n ∧
      CompactionPolicy.compatible n (fact.set "history_id" (.str key)) ∧
      ∀ i ∈ log, ∀ r, i.Includes e.id r → n.requestIds.any (·.rawEq (.str r)) := by
  obtain ⟨n,hn,hni,hp,hm,hh,hi⟩ := h.notices a hal e.id happ
  refine ⟨n,hn,?_,hi⟩
  rw [CompactionPolicy.compatible,scoped_get (by decide),scoped_get (by decide),
    Fields.get_set_self,hp,hm,hh,hr.provider,hr.model,hs]
  simp [LuaValue.equal,LuaValue.rawEq]

theorem scoped_epoch (hr : Reads fact e) (hs : s.epochId = .str e.scope.epoch) :
    ((fact.set "history_id" (.str key)).get "epoch_id").rawEq s.epochId := by
  rw [scoped_get (by decide),hr.epoch,hs]
  simp [LuaValue.rawEq]

theorem scoped_str {name value : String} (h : fact.get name = .str value)
    (hn : name ≠ "history_id") : (fact.set "history_id" (.str key)).get name = .str value := by
  rw [scoped_get hn,h]

/-- A notice that is known was appended before an entry of another kind. -/
theorem appended_before (hstep : e.step ≠ .appended) {a : Entry} {id : String}
    (ha : a ∈ log ++ [e]) (happ : a.Appends id) : a ∈ log := by
  rcases List.mem_append.mp ha with ha | ha
  · exact ha
  · rw [List.mem_singleton.mp ha] at happ
    exact absurd happ.1 hstep

/-- An inclusion was logged before an entry of another kind. -/
theorem included_before (hstep : ∀ r, e.step ≠ .included r) {i : Entry} {id r : String}
    (hi : i ∈ log ++ [e]) (hinc : i.Includes id r) : i ∈ log := by
  rcases List.mem_append.mp hi with hi | hi
  · exact hi
  · rw [List.mem_singleton.mp hi] at hinc
    exact absurd hinc.1 (hstep r)

theorem Replayed.appended (h : Replayed scope key s log) (hr : Reads fact e) (hs : e.scope = scope)
    (hstep : e.step = .appended) (ha : Allowed log e) :
    Replayed scope key (CompactionPolicy.reduce s (fact.set "history_id" (.str key)))
      (log ++ [e]) := by
  have hfresh : ∀ x ∈ log, x.id ≠ e.id := by
    simp only [Allowed,hstep] at ha
    exact ha.1
  have hkind : fact.get "kind" = .str "context_notice_appended" := by rw [hr.kind,hstep]; rfl
  rw [CompactionPolicy.reduce_appended (scoped_str hkind (by decide))
    (scoped_epoch hr (hs ▸ h.epoch)) (scoped_str hr.noticeId (by decide))]
  have hinc_before : ∀ {i : Entry} {id r : String}, i ∈ log ++ [e] → i.Includes id r → i ∈ log :=
    included_before (by simp [hstep])
  refine ⟨h.epoch,?_,fun id => ?_⟩
  · intro a hal id happ
    change ∃ n, (assign s.noticeMap e.id _).lookup id = some n ∧ _
    rw [lookup_assign]
    rcases List.mem_append.mp hal with hal | hal
    · obtain ⟨n,hn,hni,hp,hm,hh,hi⟩ := h.notices a hal id happ
      rw [if_neg (happ.2 ▸ hfresh a hal)]
      exact ⟨n,hn,hni,hp,hm,hh,fun i hil r hinc => hi i (hinc_before hil hinc) r hinc⟩
    · have he := List.mem_singleton.mp hal
      subst he
      rw [if_pos happ.2.symm]
      refine ⟨_,rfl,?_,?_,?_,?_,fun i hil r hinc => ?_⟩
      · rw [← happ.2]
        exact scoped_str hr.noticeId (by decide)
      · rw [← hs]
        exact scoped_str hr.provider (by decide)
      · rw [← hs]
        exact scoped_str hr.model (by decide)
      · exact Fields.get_set_self _ _ _
      · exact absurd (hinc.2.trans happ.2.symm) (hfresh i (hinc_before hil hinc))
  · rw [outstanding_concat_appended hstep ha]
    simp [eq_comm]

theorem Replayed.included (h : Replayed scope key s log) (hr : Reads fact e) (hs : e.scope = scope)
    {r : String} (hstep : e.step = .included r) (ha : Allowed log e) :
    Replayed scope key (CompactionPolicy.reduce s (fact.set "history_id" (.str key)))
      (log ++ [e]) := by
  simp only [Allowed,hstep] at ha
  obtain ⟨a₀,ha₀,happ₀⟩ := ha
  obtain ⟨n₀,hn₀,hc₀,_⟩ := h.found key hr hs ha₀ happ₀
  have hkind : fact.get "kind" = .str "context_notice_included" := by rw [hr.kind,hstep]; rfl
  have hreq : (fact.set "history_id" (.str key)).get "request_id" = .str r :=
    scoped_str (hr.requestId r (.inl hstep)) (by decide)
  rw [CompactionPolicy.reduce_included (scoped_str hkind (by decide))
    (scoped_epoch hr (hs ▸ h.epoch)) (scoped_str hr.noticeId (by decide)) hn₀ hc₀]
  refine ⟨h.epoch,?_,fun id => ?_⟩
  · intro a hal id happ
    obtain ⟨n,hn,hni,hp,hm,hh,hi⟩ :=
      h.notices a (appended_before (by simp [hstep]) hal happ) id happ
    change ∃ n, (assign s.noticeMap e.id _).lookup id = some n ∧ _
    rw [lookup_assign]
    by_cases hid : id = e.id
    · subst hid
      rw [hn₀] at hn
      cases hn
      rw [if_pos rfl]
      refine ⟨_,rfl,hni,hp,hm,hh,fun i hil r' hinc => ?_⟩
      simp only [hreq]
      -- the request is listed already, or it is listed now
      rcases List.mem_append.mp hil with hil | hil
      · have hold := hi i hil r' hinc
        split
        · exact hold
        · rw [List.any_append,hold,Bool.true_or]
      · rw [List.mem_singleton.mp hil] at hinc
        have hrr : Step.included r = .included r' := hstep.symm.trans hinc.1
        cases hrr
        split
        · assumption
        · simp [LuaValue.str_rawEq]
    · rw [if_neg hid]
      refine ⟨n,hn,hni,hp,hm,hh,fun i hil r' hinc => ?_⟩
      rcases List.mem_append.mp hil with hil | hil
      · exact hi i hil r' hinc
      · rw [List.mem_singleton.mp hil] at hinc
        exact absurd hinc.2.symm hid
  · rw [outstanding_concat_included hstep]
    exact h.outstanding id

theorem Replayed.delivered (h : Replayed scope key s log) (hr : Reads fact e) (hs : e.scope = scope)
    {r : String} (hstep : e.step = .delivered r) (ha : Allowed log e) :
    Replayed scope key (CompactionPolicy.reduce s (fact.set "history_id" (.str key)))
      (log ++ [e]) := by
  simp only [Allowed,hstep] at ha
  obtain ⟨⟨a₀,ha₀,happ₀⟩,i₀,hi₀,hinc₀⟩ := ha
  obtain ⟨n₀,hn₀,hc₀,hreq₀⟩ := h.found key hr hs ha₀ happ₀
  have hkind : fact.get "kind" = .str "context_notice_delivered" := by rw [hr.kind,hstep]; rfl
  have hreq : (fact.set "history_id" (.str key)).get "request_id" = .str r :=
    scoped_str (hr.requestId r (.inr hstep)) (by decide)
  rw [CompactionPolicy.reduce_delivered (scoped_str hkind (by decide))
    (scoped_epoch hr (hs ▸ h.epoch)) (scoped_str hr.noticeId (by decide)) hn₀ hc₀,
    CompactionPolicy.deliverFact,hreq,if_pos (hreq₀ i₀ hi₀ r hinc₀)]
  refine ⟨h.epoch,?_,fun id => ?_⟩
  · intro a hal id happ
    obtain ⟨n,hn,hni,hp,hm,hh,hi⟩ :=
      h.notices a (appended_before (by simp [hstep]) hal happ) id happ
    exact ⟨n,hn,hni,hp,hm,hh,fun i hil r' hinc =>
      hi i (included_before (by simp [hstep]) hil hinc) r' hinc⟩
  · rw [outstanding_concat_delivered hstep,← h.outstanding id]
    simp only
    by_cases ho : s.outstanding = some e.id
    · rw [if_pos ho,ho]
      simp [eq_comm]
    · rw [if_neg ho]
      refine ⟨fun hs => ⟨hs,?_⟩,fun hs => hs.1⟩
      rintro rfl
      exact ho hs

/-- An entry of the scope is replayed in its turn. -/
theorem Replayed.reduce (h : Replayed scope key s log) (hr : Reads fact e) (hs : e.scope = scope)
    (ha : Allowed log e) :
    Replayed scope key (CompactionPolicy.reduce s (fact.set "history_id" (.str key)))
      (log ++ [e]) := by
  cases hstep : e.step with
  | appended => exact h.appended hr hs hstep ha
  | included r => exact h.included hr hs hstep ha
  | delivered r => exact h.delivered hr hs hstep ha

/-- The entries of the scope among those that are read are replayed, the others change nothing. -/
theorem Replayed.run (h : Replayed scope key s log) {facts : List Fields} {entries : List Entry}
    (hr : List.Forall₂ Reads facts entries)
    (hpair : ∀ e ∈ entries, e.scope.provider = scope.provider ∧ e.scope.model = scope.model)
    (hc : Chained Allowed (log ++ entries.filter fun e => decide (e.scope = scope))) :
    Replayed scope key
      (facts.foldl (fun s fact => CompactionPolicy.reduce s (fact.set "history_id" (.str key))) s)
      (log ++ entries.filter fun e => decide (e.scope = scope)) := by
  induction hr generalizing s log with
  | nil => simpa using h
  | @cons fact e facts entries hfe _ ih =>
    rw [List.foldl_cons]
    have hpair' := fun x hx => hpair x (List.mem_cons_of_mem _ hx)
    by_cases hs : e.scope = scope
    · rw [List.filter_cons_of_pos (by simpa using hs),List.append_cons] at hc ⊢
      have ha : Allowed log e := hc log e (entries.filter fun e => decide (e.scope = scope))
        (by rw [List.append_assoc]; rfl)
      exact ih (h.reduce hfe hs ha) hpair' hc
    · rw [List.filter_cons_of_neg (by simpa using hs)] at hc ⊢
      have hepoch : e.scope.epoch ≠ scope.epoch := by
        intro he
        obtain ⟨hp,hm⟩ := hpair e List.mem_cons_self
        refine hs ?_
        cases hes : e.scope
        cases scope
        simp_all
      rw [reduce_other hfe h.epoch hepoch]
      exact ih h hpair' hc

/-- A fact stands for one entry. -/
theorem Reads.unique {e' : Entry} (h : Reads fact e) (h' : Reads fact e') : e = e' := by
  have hkind : stepKind e.step = stepKind e'.step :=
    LuaValue.str.inj (h.kind.symm.trans h'.kind)
  have hid : e.id = e'.id := LuaValue.str.inj (h.noticeId.symm.trans h'.noticeId)
  have hepoch := LuaValue.str.inj (h.epoch.symm.trans h'.epoch)
  have hprovider := LuaValue.str.inj (h.provider.symm.trans h'.provider)
  have hmodel := LuaValue.str.inj (h.model.symm.trans h'.model)
  have hpath := h.path.unique h'.path
  have hseq : e.sequence = e'.sequence := by
    obtain ⟨n,hn,hq⟩ := h.sequence
    obtain ⟨n',hn',hq'⟩ := h'.sequence
    rw [hn] at hn'
    cases hn'
    rw [hq] at hq'
    exact Option.some.inj hq'
  have hstep : e.step = e'.step := by
    have hr := h.requestId
    have hr' := h'.requestId
    cases hs : e.step <;> cases hs' : e'.step <;> rw [hs,hs'] at hkind <;> simp [stepKind] at hkind
    · have he := (hr _ (.inl hs)).symm.trans (hr' _ (.inl hs'))
      rw [LuaValue.str.inj he]
    · have he := (hr _ (.inr hs)).symm.trans (hr' _ (.inr hs'))
      rw [LuaValue.str.inj he]
  obtain ⟨step,id,⟨epoch,provider,model⟩,path,sequence⟩ := e
  obtain ⟨step',id',⟨epoch',provider',model'⟩,path',sequence'⟩ := e'
  simp_all

end Reduce

section Sorted

/-- The number a sequence stands for. -/
def sequenceOf : LuaValue → ℚ
  | .num n => n.toRat.getD 0
  | _ => 0

def factSequence (fact : Fields) : ℚ := sequenceOf (fact.get "sequence")

def opCompleted (op : Compaction) : Bool := decide (op.status = .completed)

/-- The facts of the policy carry sequences of their own, in the order they were logged. -/
structure Dated (c : Conversation) (log : List Entry) : Prop where
  facts : List.Forall₂ Reads c.noticeFacts log
  increasing : log.Pairwise fun a b => a.sequence < b.sequence
  terminals : ∀ op ∈ c.compactions, op.status = .completed →
    ∃ n q, op.terminalSequence = .num n ∧ n.toRat = some q
  ordered : (c.compactions.filter opCompleted).Pairwise fun a b =>
    sequenceOf a.terminalSequence < sequenceOf b.terminalSequence
  apart : ∀ e ∈ log, ∀ op ∈ c.compactions, op.status = .completed →
    sequenceOf op.terminalSequence ≠ e.sequence
  paths : ∀ op ∈ c.compactions, op.historyId.Sound

variable {c : Conversation} {log : List Entry} {fact : Fields} {e : Entry}

theorem Reads.factSequence_eq (h : Reads fact e) : factSequence fact = e.sequence := by
  obtain ⟨n,hn,hq⟩ := h.sequence
  rw [factSequence,hn,sequenceOf,hq,Option.getD_some]

theorem compactionFact_get (op : Compaction) :
    (compactionFact op).get "kind" = .str "context_compaction_completed" ∧
    (compactionFact op).get "request_id" = .str op.requestId ∧
    (compactionFact op).get "history_id" = op.historyId.toLua ∧
    (compactionFact op).get "sequence" = op.terminalSequence := by
  have hg : ∀ name, (compactionFact op).get name = (LuaValue.record [
    ("kind",.str "context_compaction_completed"),("request_id",.str op.requestId),
    ("history_id",op.historyId.toLua),("sequence",op.terminalSequence)]).get name := fun _ => rfl
  refine ⟨rfl,rfl,rfl,?_⟩
  simp [hg,LuaValue.get_record_cons,LuaValue.get_record_nil,LuaValue.ite_isNil]

theorem factSequence_compactionFact (op : Compaction) :
    factSequence (compactionFact op) = sequenceOf op.terminalSequence := by
  rw [factSequence,(compactionFact_get op).2.2.2]

theorem mem_policyFacts : fact ∈ policyFacts c ↔ fact ∈ c.noticeFacts ∨
    ∃ op ∈ c.compactions, op.status = .completed ∧ compactionFact op = fact := by
  simp [policyFacts,and_assoc]

theorem Dated.sequences (h : Dated c log) : (policyFacts c).map factSequence =
    log.map (·.sequence) ++ (c.compactions.filter opCompleted).map
      fun op => sequenceOf op.terminalSequence := by
  rw [policyFacts,List.map_append,List.map_map]
  congr 1
  · have hf := h.facts
    generalize c.noticeFacts = facts at hf
    clear h
    induction hf with
    | nil => rfl
    | cons hr _ ih => rw [List.map_cons,List.map_cons,hr.factSequence_eq,ih]
  · exact List.map_congr_left fun op _ => factSequence_compactionFact op

theorem Dated.number (h : Dated c log) (hf : fact ∈ policyFacts c) :
    ∃ n q, fact.get "sequence" = .num n ∧ n.toRat = some q := by
  rcases mem_policyFacts.mp hf with hf | ⟨op,hop,hs,rfl⟩
  · obtain ⟨e,_,hr⟩ := forall₂_mem h.facts hf
    obtain ⟨n,hn,hq⟩ := hr.sequence
    exact ⟨n,_,hn,hq⟩
  · rw [(compactionFact_get op).2.2.2]
    exact h.terminals op hop hs

theorem numLt_iff {v w : LuaValue} {m n : LuaNum} {p q : ℚ} (hv : v = .num m) (hw : w = .num n)
    (hp : m.toRat = some p) (hq : n.toRat = some q) : numLt v w = decide (p < q) := by
  subst hv
  subst hw
  have hle : m.le n = decide (p ≤ q) := by
    cases m <;> cases n <;> simp_all [LuaNum.le,LuaNum.toRat]
  have heq : m.eq n = decide (p = q) := by
    cases m <;> cases n <;> simp_all [LuaNum.eq,LuaNum.toRat]
  rw [numLt,LuaNum.lt,hle,heq,Bool.eq_iff_iff]
  simpa using lt_iff_le_and_ne.symm

/-- Sorted, the facts are in strict order of their sequences. -/
theorem Dated.sorted (h : Dated c log) :
    (sortedFacts c).Pairwise fun a b => factSequence a < factSequence b := by
  refine pairwise_mergeSort_keys factSequence ?_ fun a ha b hb => ?_
  · rw [h.sequences]
    refine List.nodup_append.mpr ⟨?_,?_,?_⟩
    · exact List.pairwise_map.mpr (h.increasing.imp fun h => ne_of_lt h)
    · exact List.pairwise_map.mpr (h.ordered.imp fun h => ne_of_lt h)
    · intro p hp q hq he
      obtain ⟨e,hel,rfl⟩ := List.mem_map.mp hp
      obtain ⟨op,hop,rfl⟩ := List.mem_map.mp hq
      obtain ⟨hop,hs⟩ := List.mem_filter.mp hop
      exact h.apart e hel op hop (of_decide_eq_true hs) he.symm
  · obtain ⟨m,p,hm,hp⟩ := h.number ha
    obtain ⟨n,q,hn,hq⟩ := h.number hb
    rw [numLt_iff hn hm hq hp,factSequence,factSequence,hm,hn,sequenceOf,sequenceOf,hp,hq,
      ← decide_not]
    exact decide_eq_decide.mpr not_lt

end Sorted

section PolicyState
variable {c : Conversation} {log : List Entry} {provider model : String}

/-- The entries of the scope on the path to the head. -/
def branchLog (c : Conversation) (scope : Scope) (log : List Entry) : List Entry :=
  log.filter fun e => decide (e.path <+: c.head) && decide (e.scope = scope)

/-- The completed operations on the path to the head. -/
def headCompactions (c : Conversation) : List Compaction :=
  c.compactions.filter fun op => decide (op.status = .completed ∧ c.onHead op.historyId)

theorem currentEpoch_eq (c : Conversation) : currentEpoch c =
    ((headCompactions c).getLast?.map (·.requestId)).getD c.initialEpochId :=
  foldl_last (p := fun op : Compaction => op.status = .completed ∧ c.onHead op.historyId) _ _

theorem mem_headCompactions {op : Compaction} : op ∈ headCompactions c ↔
    op ∈ c.compactions ∧ op.status = .completed ∧ c.onHead op.historyId := by
  simp [headCompactions]

/-- Operations are completed in the order of the list. -/
theorem Dated.headOrdered (h : Dated c log) : (headCompactions c).Pairwise fun a b =>
    sequenceOf a.terminalSequence < sequenceOf b.terminalSequence := by
  refine h.ordered.sublist ?_
  have he : headCompactions c =
      (c.compactions.filter opCompleted).filter fun op => c.onHead op.historyId := by
    rw [List.filter_filter]
    refine List.filter_congr fun op _ => ?_
    simp [opCompleted,Bool.and_comm]
  rw [he]
  exact List.filter_sublist

/-- The facts that the policy of the pair looks at. -/
def pairFacts (c : Conversation) (provider model : String) : List Fields :=
  (sortedFacts c).filter (applicable c (.str provider) (.str model))

theorem mem_pairFacts {fact : Fields} : fact ∈ pairFacts c provider model ↔
    fact ∈ policyFacts c ∧ applicable c (.str provider) (.str model) fact := by
  rw [pairFacts,List.mem_filter,sortedFacts,List.mem_mergeSort]

theorem Reads.applicable_iff {fact : Fields} {e : Entry} (h : Reads fact e) (hh : c.head.Sound) :
    applicable c (.str provider) (.str model) fact ↔
      e.path <+: c.head ∧ e.scope.provider = provider ∧ e.scope.model = model := by
  have hk := (stepKind_ne e.step).2
  simp only [applicable,Bool.and_eq_true,h.kind,h.provider,h.model,h.path.isPrefix_iff hh,
    LuaValue.str_rawEq,LuaValue.isNil,hk,decide_false,Bool.false_or,decide_eq_true_eq]

theorem compactionFact_applicable {op : Compaction} :
    applicable c (.str provider) (.str model) (compactionFact op) = c.onHead op.historyId := by
  rw [applicable,(compactionFact_get op).1,(compactionFact_get op).2.2.1,LuaValue.str_rawEq]
  simp [Conversation.onHead]

/-- Facts that follow the last completed operation on the path are facts of notices. -/
theorem Dated.tail_reads (h : Dated c log) (hh : c.head.Sound) {facts : List Fields}
    (hsub : ∀ fact ∈ facts, fact ∈ pairFacts c provider model)
    (hafter : ∀ op ∈ headCompactions c, ∀ fact ∈ facts,
      sequenceOf op.terminalSequence < factSequence fact) :
    ∃ entries, List.Forall₂ Reads facts entries ∧ ∀ e ∈ entries,
      e ∈ log ∧ e.path <+: c.head ∧ e.scope.provider = provider ∧ e.scope.model = model := by
  have hread : ∀ fact ∈ facts, ∃ e, Reads fact e ∧ e ∈ log ∧ e.path <+: c.head ∧
      e.scope.provider = provider ∧ e.scope.model = model := by
    intro fact hf
    obtain ⟨hp,happ⟩ := mem_pairFacts.mp (hsub fact hf)
    rcases mem_policyFacts.mp hp with hn | ⟨op,hop,hs,rfl⟩
    · obtain ⟨e,hel,hr⟩ := forall₂_mem h.facts hn
      exact ⟨e,hr,hel,(hr.applicable_iff hh).mp happ⟩
    · rw [compactionFact_applicable] at happ
      have hlt := hafter op (mem_headCompactions.mpr ⟨hop,hs,happ⟩) _ hf
      rw [factSequence_compactionFact] at hlt
      exact absurd hlt (lt_irrefl _)
  clear hsub hafter
  induction facts with
  | nil => exact ⟨[],.nil,nofun⟩
  | cons fact rest ih =>
    obtain ⟨e,hr,he⟩ := hread fact List.mem_cons_self
    obtain ⟨entries,hrs,hes⟩ := ih fun f hf => hread f (List.mem_cons_of_mem _ hf)
    exact ⟨e :: entries,.cons hr hrs,List.forall_mem_cons.mpr ⟨he,hes⟩⟩

/-- The facts split where the current epoch begins: what is replayed up to there leaves an empty
state of the epoch. -/
theorem Dated.epoch_split (h : Dated c log) (provider model key : String) :
    ∃ before after, pairFacts c provider model = before ++ after ∧
      (∀ scope : Scope, scope.epoch = currentEpoch c → Replayed scope key (before.foldl
        (fun s fact => CompactionPolicy.reduce s (fact.set "history_id" (.str key)))
        { epochId := .str c.initialEpochId }) []) ∧
      (∀ fact ∈ pairFacts c provider model,
        fact ∈ after ↔ ∀ op ∈ headCompactions c,
          sequenceOf op.terminalSequence < factSequence fact) := by
  rw [currentEpoch_eq]
  rcases List.eq_nil_or_concat (headCompactions c) with hk | ⟨init,op,hk⟩
  · refine ⟨[],pairFacts c provider model,rfl,?_,?_⟩
    · intro scope hs
      refine ⟨?_,nofun,fun id => by simp [Outstanding]⟩
      rw [hs,hk]
      rfl
    · simp [hk]
  · rw [List.concat_eq_append] at hk
    have hop : op ∈ headCompactions c := by rw [hk]; simp
    obtain ⟨hmem,hs,hon⟩ := mem_headCompactions.mp hop
    have hfact : compactionFact op ∈ pairFacts c provider model := by
      refine mem_pairFacts.mpr ⟨mem_policyFacts.mpr (.inr ⟨op,hmem,hs,rfl⟩),?_⟩
      rw [compactionFact_applicable]
      exact hon
    obtain ⟨front,back,hsplit⟩ := List.append_of_mem hfact
    have hsorted : (pairFacts c provider model).Pairwise
        fun a b => factSequence a < factSequence b := h.sorted.filter _
    refine ⟨front ++ [compactionFact op],back,by rw [hsplit]; simp,?_,?_⟩
    · intro scope hscope
      rw [List.foldl_append,List.foldl_cons,List.foldl_nil]
      have hr : ∀ s, CompactionPolicy.reduce s ((compactionFact op).set "history_id" (.str key)) =
          { epochId := .str op.requestId, notices := some [] } := by
        intro s
        simp [CompactionPolicy.reduce,scoped_get,(compactionFact_get op).1,
          (compactionFact_get op).2.1,LuaValue.str_rawEq]
      rw [hr]
      refine ⟨?_,nofun,fun id => by simp [Outstanding]⟩
      rw [hscope,hk]
      simp
    · -- the operations before the last one were completed before it
      have hlast : ∀ op' ∈ headCompactions c,
          sequenceOf op'.terminalSequence ≤ sequenceOf op.terminalSequence := by
        have hord := h.headOrdered
        rw [hk] at hord
        intro op' hop'
        rw [hk] at hop'
        rcases List.mem_append.mp hop' with hop' | hop'
        · exact ((List.pairwise_append.mp hord).2.2 op' hop' op (by simp)).le
        · rw [List.mem_singleton.mp hop']
      rw [hsplit] at hsorted ⊢
      obtain ⟨_,hback,hfront⟩ := List.pairwise_append.mp hsorted
      intro fact hf
      constructor
      · intro hb op' hop'
        have hlt := (List.pairwise_cons.mp hback).1 fact hb
        rw [factSequence_compactionFact] at hlt
        exact lt_of_le_of_lt (hlast op' hop') hlt
      · intro hafter
        have hlt := hafter op hop
        rw [← factSequence_compactionFact] at hlt
        rcases List.mem_append.mp hf with hf | hf
        · exact absurd (hfront fact hf _ List.mem_cons_self) (lt_asymm hlt)
        · rcases List.mem_cons.mp hf with rfl | hf
          · exact absurd hlt (lt_irrefl _)
          · exact hf

/-- The policy of a pair is replayed from the entries of the current epoch on the path. -/
theorem Dated.replayed (h : Dated c log) (provider model : String) (hh : c.head.Sound)
    (key : String) {scope : Scope}
    (hscope : scope = ⟨currentEpoch c,provider,model⟩)
    (hlater : ∀ e ∈ log, e.path <+: c.head → e.scope.epoch = currentEpoch c →
      ∀ op ∈ headCompactions c, sequenceOf op.terminalSequence < e.sequence)
    (hallowed : Chained Allowed (branchLog c scope log)) :
    Replayed scope key ((pairFacts c provider model).foldl
      (fun s fact => CompactionPolicy.reduce s (fact.set "history_id" (.str key)))
      { epochId := .str c.initialEpochId }) (branchLog c scope log) := by
  obtain ⟨before,after,hsplit,hbefore,hafter⟩ := h.epoch_split provider model key
  have hsub : ∀ fact ∈ after, fact ∈ pairFacts c provider model := by
    intro fact hf
    rw [hsplit]
    exact List.mem_append_right _ hf
  obtain ⟨entries,hreads,hentries⟩ := h.tail_reads hh hsub fun op hop fact hf =>
    (hafter fact (hsub fact hf)).mp hf op hop
  have hsorted : entries.Pairwise fun a b => a.sequence < b.sequence := by
    have hs : after.Pairwise fun a b => factSequence a < factSequence b := by
      have hp : (pairFacts c provider model).Pairwise
        fun a b => factSequence a < factSequence b := h.sorted.filter _
      rw [hsplit] at hp
      exact (List.pairwise_append.mp hp).2.1
    refine forall₂_pairwise hreads hs fun f e f' e' hr hr' hlt => ?_
    rwa [← hr.factSequence_eq,← hr'.factSequence_eq]
  have heq : entries.filter (fun e => decide (e.scope = scope)) = branchLog c scope log := by
    refine eq_of_keys (·.sequence) (hsorted.filter _) (h.increasing.filter _) fun e => ?_
    simp only [branchLog,List.mem_filter,Bool.and_eq_true,decide_eq_true_eq]
    constructor
    · rintro ⟨he,hs⟩
      exact ⟨(hentries e he).1,(hentries e he).2.1,hs⟩
    · rintro ⟨hel,hp,hs⟩
      refine ⟨?_,hs⟩
      obtain ⟨fact,hf,hr⟩ := forall₂_mem h.facts.flip hel
      have hpair : fact ∈ pairFacts c provider model := by
        refine mem_pairFacts.mpr ⟨mem_policyFacts.mpr (.inl hf),(hr.applicable_iff hh).mpr ?_⟩
        rw [hs,hscope]
        exact ⟨hp,rfl,rfl⟩
      have hin := (hafter fact hpair).mpr fun op hop => by
        rw [hr.factSequence_eq]
        exact hlater e hel hp (by rw [hs,hscope]) op hop
      obtain ⟨e',he',hr'⟩ := forall₂_mem hreads hin
      rwa [hr.unique hr']
  rw [hsplit,List.foldl_append,← heq]
  have hrun := (hbefore scope (by rw [hscope])).run hreads
    (fun e he => by rw [hscope]; exact (hentries e he).2.2) (by rw [List.nil_append,heq]; exact hallowed)
  rwa [List.nil_append] at hrun

end PolicyState
end Nefor.ConversationManager
