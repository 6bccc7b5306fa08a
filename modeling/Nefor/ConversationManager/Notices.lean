import Mathlib.Data.List.Pairwise
import Nefor.ConversationManager.PolicyReplay
import Nefor.ConversationManager.Branches
import Nefor.ConversationManager.Replay

/-! The ledger of notices and the compaction policy. Delivery is kept twice, as a mark on the
notice and as a fact on the branch where it was acknowledged; as long as no rewind parts the two,
the policy holds a notice outstanding exactly when the ledger does. -/
namespace Nefor.ConversationManager
open Nefor.Lua Nefor.Action Nefor.NoticeLog

section Ledger

/-- How an entry follows the earlier ones, on whatever branches they stand. -/
def Follows (t : PathTree) (earlier : List Entry) (e : Entry) : Prop :=
  match e.step with
  | .appended => (∀ x ∈ earlier, x.id ≠ e.id) ∧ ∀ a ∈ earlier, a.step = .appended →
      a.scope = e.scope → (∃ d ∈ earlier, d.Delivers a.id) ∨ t.Abandoned a.path
  | .included _ => ∃ a ∈ earlier, a.Appends e.id ∧ a.scope = e.scope ∧ a.path <+: e.path
  | .delivered r => (∃ a ∈ earlier, a.Appends e.id ∧ a.scope = e.scope ∧ a.path <+: e.path) ∧
      ∃ i ∈ earlier, i.Includes e.id r ∧ i.scope = e.scope ∧ i.path = e.path

/-- The inclusions that a notice keeps are those that are logged. -/
def KeepsInclusions (log : List Entry) (id : String) (inclusions : LuaValue) : Prop :=
  ∃ marked es, inclusions.orElse (.table false []) = .table marked es ∧ ∀ r,
    (Fields.get es r = .nil ∧ ∀ i ∈ log, ¬i.Includes id r) ∨
    ∃ event, Fields.get es r = .table false event ∧ ∃ i ∈ log, i.Includes id r ∧
      HistoryPath.Denotes (Fields.get event "history_id") i.path

/-- A notice as the ledger stores it. -/
structure Stored (log : List Entry) (id : String) (notice : Fields) (a : Entry) : Prop where
  logged : a ∈ log
  appends : a.Appends id
  reads : Reads notice a
  delivered : (notice.get "delivered").truthy ↔ ∃ d ∈ log, d.Delivers id
  inclusions : KeepsInclusions log id (notice.get "inclusions")

/-- The path is a place of the tree. -/
def Known (t : PathTree) (p : List Nat) : Prop := p = [] ∨ p ∈ t.paths

/-- The log of a conversation, up to the sequence `last`. -/
structure Ledger (c : Conversation) (log : List Entry) (last : ℚ) : Prop where
  dated : Dated c log
  entries : ∀ e ∈ log, e.sequence ≤ last
  terminals : ∀ op ∈ c.compactions, op.status = .completed → sequenceOf op.terminalSequence ≤ last
  epochs : ∀ e ∈ log, e.scope.epoch = c.initialEpochId ∨ ∃ op ∈ c.compactions,
    op.status = .completed ∧ op.requestId = e.scope.epoch ∧
      sequenceOf op.terminalSequence < e.sequence
  own : ∀ op ∈ c.compactions, op.status = .completed → op.requestId ≠ c.initialEpochId
  knownEntries : ∀ e ∈ log, Known c.tree e.path
  knownHeads : ∀ op ∈ c.compactions, Known c.tree op.historyId
  lastPending : ∀ (i : Nat) op, c.compactions[i]? = some op → op.status = .pending →
    i+1 = c.compactions.length
  follows : Chained (Follows c.tree) log
  stored : ∀ id notice, c.noticeById.lookup id = some notice → ∃ a, Stored log id notice a
  listed : ∀ a ∈ log, a.step = .appended → (c.noticeById.lookup a.id).isSome
  kept : ∀ a ∈ log, a.step = .appended → a.scope.epoch = currentEpoch c → a.path <+: c.head →
    ∀ d ∈ log, d.Delivers a.id → d.path <+: c.head

variable {c c' : Conversation} {log : List Entry} {last : ℚ} {t t' : PathTree} {event : Fields}

theorem Follows.step (hs : PathTree.Step t t') {earlier : List Entry} {e : Entry}
    (h : Follows t earlier e) : Follows t' earlier e := by
  unfold Follows at h ⊢
  cases hstep : e.step with
  | appended =>
    rw [hstep] at h
    exact ⟨h.1,fun a ha happ hscope => (h.2 a ha happ hscope).imp_right fun ha => ha.step hs⟩
  | included r => rw [hstep] at h; exact h
  | delivered r => rw [hstep] at h; exact h

theorem Known.step (hs : PathTree.Step t t') {p : List Nat} (h : Known t p) : Known t' p := by
  refine h.imp_right fun hp => ?_
  cases hs with
  | grow => exact List.mem_append_left _ hp
  | _ => exact hp

/-- A notice is appended once. -/
theorem Ledger.appended_unique (h : Ledger c log last) {id : String} {a b : Entry} (ha : a ∈ log)
    (hb : b ∈ log) (haid : a.Appends id) (hbid : b.Appends id) : a = b := by
  let apart : Entry → Entry → Prop := fun x e => x.step = .appended → e.step = .appended → x.id ≠ e.id
  have hp : log.Pairwise apart := by
    refine h.follows.pairwise fun earlier e hf x hx _ hstep => ?_
    simp only [Follows,hstep] at hf
    exact hf.1 x hx
  have hsymm : Std.Symm apart := ⟨fun x y hxy hy hx he => hxy hx hy he.symm⟩
  by_contra hne
  exact hp.forall ha hb hne haid.1 hbid.1 (haid.2.trans hbid.2.symm)

/-- What follows a notice is in its scope. -/
theorem Ledger.scope_eq (h : Ledger c log last) {id : String} {a e : Entry} (ha : a ∈ log)
    (haid : a.Appends id) (he : e ∈ log) (heid : e.id = id) : e.scope = a.scope := by
  obtain ⟨earlier,hsub,hf⟩ := h.follows.at_mem he
  cases hstep : e.step with
  | appended => rw [h.appended_unique ha he haid ⟨hstep,heid⟩]
  | included r =>
    simp only [Follows,hstep] at hf
    obtain ⟨b,hb,hbid,hscope,_⟩ := hf
    rw [← hscope,h.appended_unique ha (hsub b hb) haid (heid ▸ hbid)]
  | delivered r =>
    simp only [Follows,hstep] at hf
    obtain ⟨⟨b,hb,hbid,hscope,_⟩,_⟩ := hf
    rw [← hscope,h.appended_unique ha (hsub b hb) haid (heid ▸ hbid)]

/-- An appended notice is stored under its id. -/
theorem Ledger.stored_of (h : Ledger c log last) {a : Entry} (ha : a ∈ log)
    (hs : a.step = .appended) :
    ∃ notice, c.noticeById.lookup a.id = some notice ∧ Stored log a.id notice a := by
  obtain ⟨notice,hn⟩ := Option.isSome_iff_exists.mp (h.listed a ha hs)
  obtain ⟨b,hb⟩ := h.stored a.id notice hn
  have hab := h.appended_unique ha hb.logged ⟨hs,rfl⟩ hb.appends
  subst hab
  exact ⟨notice,hn,hb⟩

/-- Growing the tree leaves the known places on or off the path to the head. -/
theorem prefix_known (hg : t.Grown) {p : List Nat} (hp : Known t p) {head : List Nat}
    (hh : head = t.head ∨ head = t.next) : p <+: head ↔ p <+: t.head := by
  rcases hh with rfl | rfl
  · exact Iff.rfl
  · rw [PathTree.next,List.prefix_concat_iff]
    refine or_iff_right fun he => ?_
    rcases hp with rfl | hp
    · simp at he
    · rw [he] at hp
      exact hg.next_not_mem hp

theorem currentEpoch_congr (hc : c'.compactions = c.compactions)
    (hi : c'.initialEpochId = c.initialEpochId)
    (ho : ∀ op ∈ c.compactions, c'.onHead op.historyId = c.onHead op.historyId) :
    currentEpoch c' = currentEpoch c := by
  have hh : headCompactions c' = headCompactions c := by
    rw [headCompactions,headCompactions,hc]
    refine List.filter_congr fun op hop => ?_
    rw [ho op hop]
  rw [currentEpoch_eq,currentEpoch_eq,hh,hi]

/-- What leaves the notices and the operations alone keeps the ledger, whatever it does to the
head as long as the deliveries stay on the branch. -/
theorem Ledger.frame (h : Ledger c log last) {last' : ℚ} (hlast : last ≤ last')
    (hf : c'.noticeFacts = c.noticeFacts) (hn : c'.noticeById = c.noticeById)
    (hc : c'.compactions = c.compactions) (hi : c'.initialEpochId = c.initialEpochId)
    (ht : PathTree.Step c.tree c'.tree)
    (hkept : ∀ a ∈ log, a.step = .appended → a.scope.epoch = currentEpoch c' →
      a.path <+: c'.head → ∀ d ∈ log, d.Delivers a.id → d.path <+: c'.head) :
    Ledger c' log last' where
  dated := ⟨hf ▸ h.dated.facts,h.dated.increasing,hc ▸ h.dated.terminals,hc ▸ h.dated.ordered,
    hc ▸ h.dated.apart,hc ▸ h.dated.paths⟩
  entries := fun e he => le_trans (h.entries e he) hlast
  terminals := fun op hop hs => le_trans (h.terminals op (hc ▸ hop) hs) hlast
  epochs := hc ▸ hi ▸ h.epochs
  own := hc ▸ hi ▸ h.own
  knownEntries := fun e he => (h.knownEntries e he).step ht
  knownHeads := fun op hop => (h.knownHeads op (hc ▸ hop)).step ht
  lastPending := hc ▸ h.lastPending
  follows := h.follows.mono fun _ _ => Follows.step ht
  stored := hn ▸ h.stored
  listed := hn ▸ h.listed
  kept := hkept

/-- The head stays, or a new message is its next child. -/
theorem Ledger.advance (h : Ledger c log last) (hg : c.tree.Grown) (hsound : SoundPaths c)
    (hsound' : SoundPaths c') {last' : ℚ} (hlast : last ≤ last')
    (hf : c'.noticeFacts = c.noticeFacts) (hn : c'.noticeById = c.noticeById)
    (hc : c'.compactions = c.compactions) (hi : c'.initialEpochId = c.initialEpochId)
    (ht : PathTree.Step c.tree c'.tree) (hh : c'.head = c.head ∨ c'.head = c.tree.next) :
    Ledger c' log last' ∧ currentEpoch c' = currentEpoch c := by
  have hepoch : currentEpoch c' = currentEpoch c := by
    refine currentEpoch_congr hc hi fun op hop => ?_
    have hop' := h.dated.paths op hop
    rw [Bool.eq_iff_iff,onHead_iff hop' hsound'.head,onHead_iff hop' hsound.head]
    exact prefix_known hg (h.knownHeads op hop) hh
  refine ⟨h.frame hlast hf hn hc hi ht ?_,hepoch⟩
  intro a ha hs he hp d hd hdel
  rw [hepoch] at he
  have hp := (prefix_known hg (h.knownEntries a ha) hh).mp hp
  exact (prefix_known hg (h.knownEntries d hd) hh).mpr (h.kept a ha hs he hp d hd hdel)

/-- Every entry is about a notice that was appended. -/
theorem Ledger.appends_of (h : Ledger c log last) {e : Entry} (he : e ∈ log) :
    ∃ a ∈ log, a.Appends e.id := by
  obtain ⟨earlier,hsub,hf⟩ := h.follows.at_mem he
  cases hstep : e.step with
  | appended => exact ⟨e,he,hstep,rfl⟩
  | included r =>
    simp only [Follows,hstep] at hf
    obtain ⟨a,ha,happ,_⟩ := hf
    exact ⟨a,hsub a ha,happ⟩
  | delivered r =>
    simp only [Follows,hstep] at hf
    obtain ⟨⟨a,ha,happ,_⟩,_⟩ := hf
    exact ⟨a,hsub a ha,happ⟩

/-- An entry about another notice leaves a stored notice alone. -/
theorem Stored.other {id : String} {notice : Fields} {a e : Entry} (h : Stored log id notice a)
    (hid : e.id ≠ id) : Stored (log ++ [e]) id notice a := by
  obtain ⟨marked,es,hes,hr⟩ := h.inclusions
  refine ⟨List.mem_append_left _ h.logged,h.appends,h.reads,?_,marked,es,hes,fun r => ?_⟩
  · rw [h.delivered]
    simp [or_and_right,exists_or,Entry.Delivers,hid]
  · rcases hr r with ⟨hnil,hnone⟩ | ⟨event,hev,i,hi,hinc⟩
    · refine .inl ⟨hnil,fun i hi hinc => ?_⟩
      rcases List.mem_append.mp hi with hi | hi
      · exact hnone i hi hinc
      · rw [List.mem_singleton.mp hi] at hinc
        exact hid hinc.2
    · exact .inr ⟨event,hev,i,List.mem_append_left _ hi,hinc⟩

/-- The current epoch began before everything that is logged now. -/
theorem currentEpoch_begun (c : Conversation) : currentEpoch c = c.initialEpochId ∨
    ∃ op ∈ c.compactions, op.status = .completed ∧ op.requestId = currentEpoch c := by
  rw [currentEpoch_eq]
  cases hk : (headCompactions c).getLast? with
  | none => exact .inl rfl
  | some op =>
    obtain ⟨hop,hs,_⟩ := mem_headCompactions.mp (List.mem_of_getLast? hk)
    exact .inr ⟨op,hop,hs,rfl⟩

/-- One entry is logged, and the notice it is about is stored anew. -/
theorem Ledger.push (h : Ledger c log last) {id : String} {e a : Entry} {fact notice : Fields}
    (hid : e.id = id) (hreads : Reads fact e) (hseq : last < e.sequence)
    (hepoch : e.scope.epoch = currentEpoch c) (hk : Known c.tree e.path)
    (hf : Follows c.tree log e) (hs : Stored (log ++ [e]) id notice a)
    (hkept : ∀ b ∈ log ++ [e], b.step = .appended → b.scope.epoch = currentEpoch c →
      b.path <+: c.head → ∀ d ∈ log ++ [e], d.Delivers b.id → d.path <+: c.head) :
    Ledger { c with
      noticeById := assign c.noticeById id notice
      noticeFacts := c.noticeFacts ++ [fact] } (log ++ [e]) e.sequence where
  dated := by
    refine ⟨List.rel_append h.dated.facts (.cons hreads .nil),?_,h.dated.terminals,h.dated.ordered,
      ?_,h.dated.paths⟩
    · refine List.pairwise_append.mpr ⟨h.dated.increasing,List.pairwise_singleton _ _,?_⟩
      intro x hx y hy
      rw [List.mem_singleton.mp hy]
      exact lt_of_le_of_lt (h.entries x hx) hseq
    · intro x hx op hop hst
      rcases List.mem_append.mp hx with hx | hx
      · exact h.dated.apart x hx op hop hst
      · rw [List.mem_singleton.mp hx]
        exact (lt_of_le_of_lt (h.terminals op hop hst) hseq).ne
  entries := by
    intro x hx
    rcases List.mem_append.mp hx with hx | hx
    · exact (lt_of_le_of_lt (h.entries x hx) hseq).le
    · rw [List.mem_singleton.mp hx]
  terminals := fun op hop hst => (lt_of_le_of_lt (h.terminals op hop hst) hseq).le
  epochs := by
    intro x hx
    rcases List.mem_append.mp hx with hx | hx
    · exact h.epochs x hx
    · rw [List.mem_singleton.mp hx,hepoch]
      refine (currentEpoch_begun c).imp_right ?_
      rintro ⟨op,hop,hst,hr⟩
      exact ⟨op,hop,hst,hr,lt_of_le_of_lt (h.terminals op hop hst) hseq⟩
  own := h.own
  knownEntries := by
    intro x hx
    rcases List.mem_append.mp hx with hx | hx
    · exact h.knownEntries x hx
    · rw [List.mem_singleton.mp hx]
      exact hk
  knownHeads := h.knownHeads
  lastPending := h.lastPending
  follows := chained_concat.mpr ⟨h.follows,hf⟩
  stored := by
    intro other n hn
    change (assign c.noticeById id notice).lookup other = some n at hn
    rw [lookup_assign] at hn
    by_cases ho : other = id
    · rw [if_pos ho] at hn
      cases hn
      exact ⟨a,ho ▸ hs⟩
    · rw [if_neg ho] at hn
      obtain ⟨b,hb⟩ := h.stored other n hn
      exact ⟨b,hb.other fun he => ho (he.symm.trans hid)⟩
  listed := by
    intro b hb hst
    change ((assign c.noticeById id notice).lookup b.id).isSome
    rw [lookup_assign]
    split
    · rfl
    · rename_i hne
      rcases List.mem_append.mp hb with hb | hb
      · exact h.listed b hb hst
      · exact absurd ((List.mem_singleton.mp hb) ▸ hid) hne
  kept := hkept

/-- Deliveries that were on the branch stay there when an entry is logged that is on it too. -/
theorem Ledger.kept_push (h : Ledger c log last) {e : Entry}
    (hstep : e.step = .appended → ∀ x ∈ log, x.id ≠ e.id)
    (hhead : (∃ r, e.step = .delivered r) → e.path <+: c.head) :
    ∀ b ∈ log ++ [e], b.step = .appended → b.scope.epoch = currentEpoch c → b.path <+: c.head →
      ∀ d ∈ log ++ [e], d.Delivers b.id → d.path <+: c.head := by
  intro b hb hst he hp d hd hdel
  rcases List.mem_append.mp hd with hd | hd
  · rcases List.mem_append.mp hb with hb | hb
    · exact h.kept b hb hst he hp d hd hdel
    · rw [List.mem_singleton.mp hb] at hst hdel
      exact absurd hdel.2 (hstep hst d hd)
  · rw [List.mem_singleton.mp hd] at hdel ⊢
    exact hhead hdel.1

end Ledger

section Steps
variable {c c₁ : Conversation} {log : List Entry} {last next : ℚ} {event notice notice' : Fields}
  {id requestId : String}

/-- The event appends a notice without a mark and without inclusions of its own. -/
def PlainNotice (event : Fields) : Prop := event.get "kind" = .str "context_notice_appended" →
  (event.get "delivered").truthy = false ∧ (event.get "inclusions").truthy = false

/-- The event carries the sequence. -/
def Sequenced (event : Fields) (next : ℚ) : Prop :=
  ∃ n, event.get "sequence" = .num n ∧ n.toRat = some next

/-- An accepted notice is logged. The message it is bound to may be new. -/
theorem Ledger.noticed (h : Ledger c₁ log last) (h₀ : Ledger c log last) (hg : c.tree.Grown)
    (hs : SoundPaths c) {messageId : String} {path : HistoryPath}
    (hn : Noticeable event c id messageId)
    (hk : event.get "kind" = .str "context_notice_appended") (hplain : PlainNotice event)
    (hseq : Sequenced event next) (hlt : last < next)
    (hsame : c₁.noticeById = c.noticeById) (hepoch : currentEpoch c₁ = currentEpoch c)
    (ht : PathTree.Step c.tree c₁.tree) (hpath : Known c₁.tree path) :
    ∃ log', Ledger (recordNotice event id path c₁) log' next := by
  obtain ⟨provider,hp⟩ := hn.provider
  obtain ⟨model,hm⟩ := hn.model
  let e : Entry := ⟨.appended,id,⟨currentEpoch c,provider,model⟩,path,next⟩
  have hrec : ∀ {name : String}, name ∉ ["text","history_id","request_ids"] →
      Fields.get (((event.unset "text").set "history_id" path.toLua).set "request_ids"
        (.array [])) name = event.get name := recorded_get path
  have hreads : Reads (((event.unset "text").set "history_id" path.toLua).set "request_ids"
      (.array [])) e := by
    refine ⟨?_,?_,(asId_eq_some hn.noticeId).2,fun r hr => ?_,?_,?_,?_,?_,?_⟩
    · rw [hrec (by decide),hk]; rfl
    · rw [hrec (by decide),(asId_eq_some hn.noticeId).1]
    · rcases hr with hr | hr <;> cases hr
    · rw [hrec (by decide),hn.epoch]
    · rw [hrec (by decide),(asId_eq_some hp).1]
    · rw [hrec (by decide),(asId_eq_some hm).1]
    · rw [Fields.get_set_of_ne _ _ (by decide),Fields.get_set_self]
      exact .toLua path
    · rw [hrec (by decide)]
      exact hseq
  have hfresh : ∀ x ∈ log, x.id ≠ id := by
    intro x hx he
    obtain ⟨a,ha,happ⟩ := h.appends_of hx
    have hl := h.listed a ha happ.1
    rw [happ.2,he,hsame,hn.fresh] at hl
    cases hl
  -- a notice of the same scope was delivered, or left behind on another branch
  have hfollows : Follows c₁.tree log e := by
    refine ⟨hfresh,fun a ha happ hscope => ?_⟩
    obtain ⟨n,hl,hst⟩ := h₀.stored_of ha happ
    have hnp := hn.nonePending _ (mem_of_lookup hl)
    simp only [noticePending,Bool.and_eq_false_iff,Bool.not_eq_false'] at hnp
    rcases hnp with (hd | hb) | ho
    · exact .inl (hst.delivered.mp hd)
    · refine absurd hb ?_
      simp [hst.reads.epoch,hst.reads.provider,hst.reads.model,hn.epoch,(asId_eq_some hp).1,
        (asId_eq_some hm).1,hscope,e,LuaValue.rawEq]
    · rw [← Bool.not_eq_true,hst.reads.path.isPrefix_iff hs.head] at ho
      refine .inr (PathTree.Abandoned.step ⟨ho,?_⟩ ht)
      rcases h₀.knownEntries a ha with hnil | hmem
      · exact absurd (hnil ▸ List.nil_prefix) ho
      · obtain ⟨i,hi⟩ := List.mem_iff_getElem?.mp hmem
        obtain ⟨q,k,he,hle,_⟩ := hg.below i _ hi
        exact ⟨q,k,he,hle⟩
  obtain ⟨hd,hi⟩ := hplain hk
  refine ⟨log ++ [e],h.push (a := e) rfl hreads hlt hepoch.symm hpath hfollows
    ⟨by simp,⟨rfl,rfl⟩,hreads,?_,?_⟩ (h.kept_push (fun _ => hfresh) (by rintro ⟨r,hr⟩; cases hr))⟩
  · rw [hrec (by decide),hd]
    simp only [Bool.false_eq_true,false_iff,not_exists,not_and]
    intro d hdl hdel
    rcases List.mem_append.mp hdl with hdl | hdl
    · exact hfresh d hdl hdel.2
    · rw [List.mem_singleton.mp hdl] at hdel
      obtain ⟨r,hr⟩ := hdel.1
      cases hr
  · rw [hrec (by decide)]
    refine ⟨false,[],by rw [LuaValue.orElse,hi]; rfl,fun r => .inl ⟨rfl,fun i hil hinc => ?_⟩⟩
    rcases List.mem_append.mp hil with hil | hil
    · exact hfresh i hil hinc.2
    · rw [List.mem_singleton.mp hil] at hinc
      cases hinc.1

/-- What an accepted inclusion leaves of the notice. -/
theorem included_eq {lastSequence : LuaNum}
    (h : updateNotice false notice requestId event lastSequence = .ok notice') :
    ∃ marked es, (notice.get "inclusions").orElse (.table false []) = .table marked es ∧
      (Fields.get es requestId).truthy = false ∧
      notice'.get "inclusions" = .table marked (Fields.set es requestId (.table false event)) ∧
      notice'.get "delivered" = notice.get "delivered" := by
  simp only [updateNotice,Bool.false_eq_true,if_false] at h
  obtain ⟨inclusion,hf,h⟩ := bind_eq_ok.mp h
  cases ht : inclusion.truthy with
  | true => simp [includeNotice,ht] at h
  | false =>
    cases hw : (event.get "context_watermark").rawEq (.num lastSequence) with
    | false => simp [includeNotice,ht,hw] at h
    | true =>
      simp only [includeNotice,ht,hw,Bool.false_eq_true,if_false,Bool.not_true] at h
      cases hi : (notice.get "inclusions").orElse (.table false []) with
      | table marked es =>
        rw [hi] at h
        cases h
        simp only [findInclusion,hi,indexValue] at hf
        cases hf
        refine ⟨marked,es,rfl,ht,?_,?_⟩
        · rw [Fields.get_set_of_ne _ _ (by decide),Fields.get_set_self]
        · rw [Fields.get_set_of_ne _ _ (by decide),Fields.get_set_of_ne _ _ (by decide)]
      | _ =>
        rw [hi] at h
        cases h

/-- What an accepted delivery found and what it leaves. -/
theorem delivered_eq {lastSequence : LuaNum}
    (h : updateNotice true notice requestId event lastSequence = .ok notice') :
    ∃ inclusion path, findInclusion notice requestId = .ok inclusion ∧ inclusion.truthy ∧
      indexValue inclusion "history_id" = .ok path ∧ path.equal (event.get "history_id") ∧
      notice' = notice.set "delivered" (.bool true) := by
  simp only [updateNotice,if_true] at h
  obtain ⟨inclusion,hf,h⟩ := bind_eq_ok.mp h
  simp only [deliverNotice,bind,Except.bind] at h
  repeat' split at h
  all_goals cases h
  rename_i ht _ _ hw hp _ _ hpath he hd
  refine ⟨inclusion,_,hf,by simpa using ht,hpath,by simpa using he,rfl⟩

theorem Evident.scope {delivered : Bool} {a : Entry}
    (h : Evident delivered event c id notice requestId) (hr : Reads notice a) :
    a.scope.epoch = currentEpoch c ∧ event.get "epoch_id" = .str a.scope.epoch ∧
      event.get "provider" = .str a.scope.provider ∧ event.get "model" = .str a.scope.model := by
  have hb : ∀ key ∈ ["epoch_id","provider","model"], ∀ value, notice.get key = .str value →
      event.get key = .str value := by
    intro key hkey value hv
    have he := h.binding key hkey
    rw [hv] at he
    cases hg : event.get key with
    | str s =>
      rw [hg,LuaValue.str_rawEq] at he
      rw [of_decide_eq_true he]
    | _ => rw [hg] at he; cases he
  have hepoch := hb "epoch_id" (by simp) _ hr.epoch
  refine ⟨?_,hepoch,hb "provider" (by simp) _ hr.provider,hb "model" (by simp) _ hr.model⟩
  exact LuaValue.str.inj (hepoch.symm.trans h.epoch)

/-- The inclusions and deliveries that are accepted are logged. -/
theorem Ledger.evidence (h : Ledger c log last) (hs : SoundPaths c) (hg : c.tree.Grown)
    {delivered : Bool}
    (hk : event.get "kind" = .str (if delivered then "context_notice_delivered"
      else "context_notice_included"))
    (hev : Evident delivered event c id notice requestId)
    (hu : updateNotice delivered notice requestId event c.lastSequence = .ok notice')
    (hseq : Sequenced event next) (hlt : last < next) :
    ∃ log', Ledger { c with
      noticeById := assign c.noticeById id notice'
      noticeFacts := c.noticeFacts ++ [evidenceFact event notice'] } log' next := by
  obtain ⟨a,ha⟩ := h.stored id notice hev.found
  obtain ⟨hepoch,he,hp,hm⟩ := hev.scope ha.reads
  have hahead := (ha.reads.path.isPrefix_iff hs.head).mp hev.onHead
  obtain ⟨path,hpath,hbranch⟩ := (HistoryPath.isPrefix_iff hs.head).mp hev.branch
  have hknown : Known c.tree path := by
    by_cases hnil : path = []
    · exact .inl hnil
    · exact .inr (hg.mem_of_prefix_head hnil hbranch)
  let step : Step := if delivered then .delivered requestId else .included requestId
  let e : Entry := ⟨step,id,a.scope,path,next⟩
  have hne : e.step ≠ .appended := by cases delivered <;> simp [e,step]
  have hreads : Reads (evidenceFact event notice') e := by
    refine ⟨?_,?_,(asId_eq_some hev.noticeId).2,fun r hr => ?_,?_,?_,?_,?_,?_⟩ <;>
      rw [evidenceFact_get (by decide)]
    · rw [hk]
      cases delivered <;> rfl
    · exact (asId_eq_some hev.noticeId).1
    · rw [(asId_eq_some hev.requestId).1]
      cases delivered <;> rcases hr with hr | hr <;> simp_all [e,step]
    · exact he
    · exact hp
    · exact hm
    · exact hpath
    · exact hseq
  have hreads' : Reads notice' a := by
    have hget : ∀ {name : String}, name ∉ ["delivered","inclusions","request_ids"] →
        notice'.get name = notice.get name := updateNotice_get hu
    refine ⟨?_,?_,ha.reads.named,fun r hr => ?_,?_,?_,?_,?_,?_⟩
    · rw [hget (by decide)]; exact ha.reads.kind
    · rw [hget (by decide)]; exact ha.reads.noticeId
    · rcases hr with hr | hr <;> rw [ha.appends.1] at hr <;> cases hr
    · rw [hget (by decide)]; exact ha.reads.epoch
    · rw [hget (by decide)]; exact ha.reads.provider
    · rw [hget (by decide)]; exact ha.reads.model
    · rw [hget (by decide)]; exact ha.reads.path
    · rw [hget (by decide)]; exact ha.reads.sequence
  obtain ⟨marked,es,hes,hinc⟩ := ha.inclusions
  cases delivered with
  | false =>
    -- an inclusion is bound to the head itself
    have hhead : path = c.head := (hpath.of_equal (hev.atHead rfl)).unique (.toLua _)
    obtain ⟨marked',es',hes',hfree,hnew,hflag⟩ := included_eq hu
    rw [hes] at hes'
    cases hes'
    have hf : Follows c.tree log e := ⟨a,ha.logged,ha.appends,rfl,by simpa [e,hhead] using hahead⟩
    refine ⟨log ++ [e],h.push (a := a) rfl hreads hlt hepoch hknown hf
      ⟨List.mem_append_left _ ha.logged,ha.appends,hreads',?_,?_⟩
      (h.kept_push (fun hst => absurd hst hne) (by rintro ⟨r,hr⟩; cases hr))⟩
    · rw [hflag,ha.delivered]
      simp [or_and_right,exists_or,Entry.Delivers,e,step]
    · refine ⟨marked,Fields.set es requestId (.table false event),by rw [hnew]; rfl,fun r => ?_⟩
      by_cases hr : r = requestId
      · subst hr
        exact .inr ⟨event,Fields.get_set_self _ _ _,e,by simp,⟨rfl,rfl⟩,hpath⟩
      · rw [Fields.get_set_of_ne _ _ hr]
        rcases hinc r with ⟨hnil,hnone⟩ | ⟨ev,hval,i,hi,hinc⟩
        · refine .inl ⟨hnil,fun i hi hinc => ?_⟩
          rcases List.mem_append.mp hi with hi | hi
          · exact hnone i hi hinc
          · rw [List.mem_singleton.mp hi] at hinc
            have hreq : Step.included requestId = .included r := hinc.1
            cases hreq
            exact hr rfl
        · exact .inr ⟨ev,hval,i,List.mem_append_left _ hi,hinc⟩
  | true =>
    obtain ⟨inclusion,ipath,hfind,htruthy,hindex,hequal,hnew⟩ := delivered_eq hu
    -- the inclusion that is acknowledged is logged with the same path
    have hlogged : ∃ i ∈ log, i.Includes id requestId ∧ i.path = path := by
      rw [findInclusion,hes] at hfind
      cases hfind
      rcases hinc requestId with ⟨hnil,_⟩ | ⟨ev,hval,i,hi,hinc,hden⟩
      · rw [hnil] at htruthy
        cases htruthy
      · rw [hval] at hindex
        cases hindex
        exact ⟨i,hi,hinc,(hden.of_equal hequal).unique hpath⟩
    obtain ⟨i,hi,hinc',hipath⟩ := hlogged
    have hiscope := h.scope_eq ha.logged ha.appends hi hinc'.2
    have hap : a.path <+: path := by
      obtain ⟨earlier,hsub,hfi⟩ := h.follows.at_mem hi
      simp only [Follows,hinc'.1] at hfi
      obtain ⟨b,hb,hbid,_,hbp⟩ := hfi
      rw [hinc'.2] at hbid
      rwa [← h.appended_unique (hsub b hb) ha.logged hbid ha.appends,← hipath]
    have hf : Follows c.tree log e :=
      ⟨⟨a,ha.logged,ha.appends,rfl,hap⟩,i,hi,hinc',hiscope,hipath⟩
    refine ⟨log ++ [e],h.push (a := a) rfl hreads hlt hepoch hknown hf
      ⟨List.mem_append_left _ ha.logged,ha.appends,hreads',?_,?_⟩
      (h.kept_push (fun hst => absurd hst hne) fun _ => hbranch)⟩
    · rw [hnew,Fields.get_set_self]
      simp only [LuaValue.truthy,true_iff]
      exact ⟨e,by simp,⟨requestId,rfl⟩,rfl⟩
    · rw [hnew,Fields.get_set_of_ne _ _ (by decide)]
      refine ⟨marked,es,hes,fun r => ?_⟩
      rcases hinc r with ⟨hnil,hnone⟩ | ⟨ev,hval,j,hj,hincj⟩
      · refine .inl ⟨hnil,fun j hj hincj => ?_⟩
        rcases List.mem_append.mp hj with hj | hj
        · exact hnone j hj hincj
        · rw [List.mem_singleton.mp hj] at hincj
          cases hincj.1
      · exact .inr ⟨ev,hval,j,List.mem_append_left _ hj,hincj⟩

theorem known_head (hg : c.tree.Grown) : Known c.tree c.head := hg.head

/-- An operation that is requested waits at the end of the list. -/
theorem Ledger.requested (h : Ledger c log last) (hg : c.tree.Grown) (hs : SoundPaths c)
    {op : Compaction} {cutoff : Nat} (hr : Requestable event c op cutoff) (hle : last ≤ next) :
    Ledger { c with
      compactions := c.compactions ++ [op]
      compactionById := assign c.compactionById op.requestId c.compactions.length } log next := by
  have hpending : op.status ≠ .completed := by simp [hr.status]
  have hmem : ∀ x ∈ c.compactions ++ [op], x.status = .completed → x ∈ c.compactions := by
    intro x hx hst
    rcases List.mem_append.mp hx with hx | hx
    · exact hx
    · rw [List.mem_singleton.mp hx] at hst
      exact absurd hst hpending
  have hepoch : currentEpoch { c with
      compactions := c.compactions ++ [op]
      compactionById := assign c.compactionById op.requestId c.compactions.length } =
      currentEpoch c := by
    simp only [currentEpoch,List.foldl_append,List.foldl_cons,List.foldl_nil,hpending,false_and,
      if_false]
    rfl
  refine ⟨⟨h.dated.facts,h.dated.increasing,?_,?_,?_,?_⟩,?_,?_,?_,?_,h.knownEntries,?_,?_,h.follows,
    h.stored,h.listed,?_⟩
  · exact fun x hx hst => h.dated.terminals x (hmem x hx hst) hst
  · rw [List.filter_append,List.filter_cons_of_neg (by simp [opCompleted,hpending]),List.filter_nil,
      List.append_nil]
    exact h.dated.ordered
  · exact fun e he x hx hst => h.dated.apart e he x (hmem x hx hst) hst
  · intro x hx
    rcases List.mem_append.mp hx with hx | hx
    · exact h.dated.paths x hx
    · rw [List.mem_singleton.mp hx,hr.historyId]
      exact hs.head
  · exact fun e he => le_trans (h.entries e he) hle
  · exact fun x hx hst => le_trans (h.terminals x (hmem x hx hst) hst) hle
  · refine fun e he => (h.epochs e he).imp_right ?_
    rintro ⟨x,hx,hst⟩
    exact ⟨x,List.mem_append_left _ hx,hst⟩
  · exact fun x hx hst => h.own x (hmem x hx hst) hst
  · intro x hx
    rcases List.mem_append.mp hx with hx | hx
    · exact h.knownHeads x hx
    · rw [List.mem_singleton.mp hx,hr.historyId]
      exact known_head hg
  · intro i x hx hst
    rcases Nat.lt_or_ge i c.compactions.length with hi | hi
    · rw [List.getElem?_append_left hi] at hx
      exact absurd hst (hr.noPending x (List.mem_of_getElem? hx))
    · have hlen := (List.getElem?_eq_some_iff.mp hx).1
      rw [List.length_append,List.length_singleton] at hlen ⊢
      omega
  · rw [hepoch]
    exact h.kept

/-- An operation gets its outcome while it is the last one. -/
theorem Ledger.concluded (h : Ledger c log last) (hfiled : Filed c) {i : Nat}
    {op op' : Compaction} {status : CompactionStatus} (hi : c.compactions[i]? = some op)
    (hp : op.status = .pending) (hon : c.onHead op.historyId) (hst : status ≠ .pending)
    (hs : Settled op op' status (event.get "sequence")) (hseq : Sequenced event next)
    (hlt : last < next) (hown : status = .completed → op.requestId ≠ c.initialEpochId) :
    Ledger (c.modifyCompaction i fun _ => op') log next := by
  obtain ⟨hlt_i,hget⟩ := List.getElem?_eq_some_iff.mp hi
  have hdrop : c.compactions.drop (i+1) = [] :=
    List.drop_eq_nil_of_le (h.lastPending i op hi hp).ge
  obtain ⟨front,hfront,hnew⟩ : ∃ front, c.compactions = front ++ [op] ∧
      (c.modifyCompaction i fun _ => op').compactions = front ++ [op'] := by
    refine ⟨c.compactions.take i,?_,?_⟩
    · conv_lhs => rw [← List.take_append_drop i c.compactions,List.drop_eq_getElem_cons hlt_i,hget,
        hdrop]
    · change c.compactions.modify i (fun _ => op') = _
      rw [List.modify_eq_take_cons_drop hlt_i,hdrop]
  have hsub : ∀ x ∈ front, x ∈ c.compactions := by
    intro x hx
    rw [hfront]
    exact List.mem_append_left _ hx
  have hold : ∀ x ∈ c.compactions, x.status = .completed → x ∈ front := by
    intro x hx hxs
    rw [hfront] at hx
    rcases List.mem_append.mp hx with hx | hx
    · exact hx
    · rw [List.mem_singleton.mp hx,hp] at hxs
      cases hxs
  obtain ⟨n,hn,hnq⟩ := hseq
  have hterm : sequenceOf op'.terminalSequence = next := by
    rw [hs.terminalSequence,hn,sequenceOf,hnq,Option.getD_some]
  -- no other operation and no epoch that is logged has the id of this one
  have hunique : ∀ x ∈ front, x.requestId ≠ op.requestId := by
    intro x hx he
    have hnodup := hfiled.compactions.nodup
    rw [hfront,List.map_append,List.nodup_append] at hnodup
    exact hnodup.2.2 _ (List.mem_map_of_mem hx) _ (by simp) he
  refine ⟨⟨h.dated.facts,h.dated.increasing,?_,?_,?_,?_⟩,?_,?_,?_,?_,h.knownEntries,?_,?_,h.follows,
    h.stored,h.listed,?_⟩ <;> try rw [hnew]
  · intro x hx hxs
    rcases List.mem_append.mp hx with hx | hx
    · exact h.dated.terminals x (hsub x hx) hxs
    · rw [List.mem_singleton.mp hx,hs.terminalSequence]
      exact ⟨n,next,hn,hnq⟩
  · have hord := h.dated.ordered
    rw [hfront,List.filter_append] at hord
    rw [List.filter_append]
    refine List.pairwise_append.mpr ⟨(List.pairwise_append.mp hord).1,?_,fun x hx y hy => ?_⟩
    · by_cases hc : opCompleted op' <;> simp [hc]
    · have hx' := List.mem_filter.mp hx
      have hy' := List.mem_singleton.mp (List.mem_filter.mp hy).1
      rw [hy',hterm]
      exact lt_of_le_of_lt (h.terminals x (hsub x hx'.1) (of_decide_eq_true hx'.2)) hlt
  · intro e he x hx hxs
    rcases List.mem_append.mp hx with hx | hx
    · exact h.dated.apart e he x (hsub x hx) hxs
    · rw [List.mem_singleton.mp hx,hterm]
      exact (lt_of_le_of_lt (h.entries e he) hlt).ne'
  · intro x hx
    rcases List.mem_append.mp hx with hx | hx
    · exact h.dated.paths x (hsub x hx)
    · rw [List.mem_singleton.mp hx,hs.historyId]
      exact h.dated.paths op (List.mem_of_getElem? hi)
  · exact fun e he => le_trans (h.entries e he) hlt.le
  · intro x hx hxs
    rcases List.mem_append.mp hx with hx | hx
    · exact le_trans (h.terminals x (hsub x hx) hxs) hlt.le
    · rw [List.mem_singleton.mp hx,hterm]
  · refine fun e he => (h.epochs e he).imp_right ?_
    rintro ⟨x,hx,hxs,hrest⟩
    exact ⟨x,List.mem_append_left _ (hold x hx hxs),hxs,hrest⟩
  · intro x hx hxs
    rcases List.mem_append.mp hx with hx | hx
    · exact h.own x (hsub x hx) hxs
    · rw [List.mem_singleton.mp hx] at hxs ⊢
      rw [hs.requestId]
      exact hown (hs.status.symm.trans hxs)
  · intro x hx
    rcases List.mem_append.mp hx with hx | hx
    · exact h.knownHeads x (hsub x hx)
    · rw [List.mem_singleton.mp hx,hs.historyId]
      exact h.knownHeads op (List.mem_of_getElem? hi)
  · intro j x hx hxs
    rcases Nat.lt_or_ge j front.length with hj | hj
    · rw [List.getElem?_append_left hj] at hx
      have hlen := h.lastPending j x (by rw [hfront,List.getElem?_append_left hj,hx]) hxs
      rw [hfront] at hlen
      simp only [List.length_append,List.length_singleton] at hlen
      omega
    · have hx' := List.mem_of_getElem? hx
      rw [List.getElem?_append_right hj] at hx
      rw [List.mem_singleton.mp (List.mem_of_getElem? hx),hs.status] at hxs
      exact absurd hxs hst
  · have hold_epoch : currentEpoch c = front.foldl (fun epoch op =>
        if op.status = .completed ∧ c.onHead op.historyId then op.requestId else epoch)
        c.initialEpochId := by
      rw [currentEpoch,hfront,List.foldl_append,List.foldl_cons,List.foldl_nil,hp]
      simp
    have hnew_epoch : currentEpoch (c.modifyCompaction i fun _ => op') =
        if status = .completed then op.requestId else currentEpoch c := by
      rw [currentEpoch,hnew,List.foldl_append,List.foldl_cons,List.foldl_nil,hs.status,hs.historyId,
        hs.requestId,hold_epoch]
      by_cases hc : status = .completed
      · rw [if_pos hc,if_pos ⟨hc,hon⟩]
      · rw [if_neg hc,if_neg fun h => hc h.1]
        rfl
    rw [hnew_epoch]
    by_cases hc : status = .completed
    · -- nothing is logged in the epoch that begins
      rw [if_pos hc]
      intro a ha _ he _
      rcases h.epochs a ha with hinit | ⟨x,hx,hxs,hxr,_⟩
      · exact absurd (he.symm.trans hinit) (hown hc)
      · exact absurd (hxr.trans he) (hunique x (hold x hx hxs))
    · rw [if_neg hc]
      exact h.kept

/-- A completed compaction opens an epoch that is not the first one. -/
def FreshEpoch (c : Conversation) (event : Fields) : Prop :=
  event.get "kind" = .str "context_compaction_completed" →
    event.get "request_id" ≠ .str c.initialEpochId

/-- A rewind does not part a notice from its delivery: the deliveries of the notices that are on
the path afterwards, and in the epoch that is current there, are on it as well. -/
def KeepsDeliveries (c : Conversation) (event : Fields) : Prop :=
  event.get "kind" = .str "rewind_committed" → ∀ i m,
    c.findHistory (event.get "target_history_id") = some (i,m) → ∀ id notice,
    c.noticeById.lookup id = some notice →
    notice.get "epoch_id" = .str (currentEpoch { c with head := m.historyId.parent }) →
    HistoryPath.isPrefix (notice.get "history_id") m.historyId.parent.toLua →
    ∀ fact ∈ c.noticeFacts, fact.get "kind" = .str "context_notice_delivered" →
      fact.get "notice_id" = .str id →
      HistoryPath.isPrefix (fact.get "history_id") m.historyId.parent.toLua

/-- The event leaves ledger and policy in step. -/
structure Steady (c : Conversation) (event : Fields) : Prop where
  plain : PlainNotice event
  fresh : FreshEpoch c event
  keeps : KeepsDeliveries c event

/-- The notices and operations are those of the other conversation. -/
structure SameNotices (c c' : Conversation) : Prop where
  facts : c'.noticeFacts = c.noticeFacts
  notices : c'.noticeById = c.noticeById
  compactions : c'.compactions = c.compactions
  initial : c'.initialEpochId = c.initialEpochId

theorem SameNotices.trans {c₂ : Conversation} (h : SameNotices c c₁) (h' : SameNotices c₁ c₂) :
    SameNotices c c₂ :=
  ⟨h'.facts.trans h.facts,h'.notices.trans h.notices,h'.compactions.trans h.compactions,
    h'.initial.trans h.initial⟩

theorem sameNotices_closeMessage (h : SameNotices c c₁) (m : Message) :
    SameNotices c (closeMessage m c₁) := by
  refine h.trans ?_
  unfold closeMessage
  simp only
  split
  · split <;> exact ⟨rfl,rfl,rfl,rfl⟩
  · exact ⟨rfl,rfl,rfl,rfl⟩

theorem sameNotices_startMessage (h : SameNotices c c₁) (s : Start) :
    SameNotices c (startMessage event s c₁) := by
  refine h.trans ?_
  unfold startMessage
  simp only
  split <;> split <;> exact ⟨rfl,rfl,rfl,rfl⟩

theorem sameNotices_stamp : SameNotices c (stamp event c) := by
  unfold stamp
  split <;> exact ⟨rfl,rfl,rfl,rfl⟩

/-- A rewind that keeps the deliveries keeps the ledger. -/
theorem Ledger.rewound (h : Ledger c log last) (hs : SoundPaths c) {i : Nat} {m : Message}
    {prompt : String} (hr : Rewindable event c i m prompt)
    (hk : event.get "kind" = .str "rewind_committed") (hkeep : KeepsDeliveries c event)
    (ht : PathTree.Step c.tree { c.tree with head := m.historyId.parent }) (hle : last ≤ next) :
    Ledger { c with head := m.historyId.parent, pendingEdit := some ⟨m.historyId,prompt⟩ }
      log next := by
  have hsound : m.historyId.parent.Sound :=
    (hs.messages m (List.mem_of_getElem? (Conversation.findHistory_eq_some hr.found))).of_initial
      (List.dropLast_prefix _)
  refine h.frame hle rfl rfl rfl rfl ht ?_
  intro a ha hst he hp d hd hdel
  obtain ⟨notice,hn,hstored⟩ := h.stored_of ha hst
  obtain ⟨fact,hf,hreads⟩ := forall₂_mem h.dated.facts.flip hd
  obtain ⟨r,hr'⟩ := hdel.1
  refine (hreads.path.isPrefix_iff hsound).mp (hkeep hk i m hr.found a.id notice hn ?_ ?_ fact hf ?_ ?_)
  · rw [hstored.reads.epoch,he]
    rfl
  · exact (hstored.reads.path.isPrefix_iff hsound).mpr hp
  · rw [hreads.kind,hr']
    rfl
  · rw [hreads.noticeId,hdel.2]

/-- Every accepted event that is steady keeps the ledger. -/
theorem Ledger.effect (h : Ledger c log last) (hr : c.Reachable) {d : Dispatch}
    (hd : eventChecks event = .ok d) (hst : Steady c event) (hseq : Sequenced event next)
    (hlt : last < next) (he : Effect event c d c₁) : ∃ log', Ledger c₁ log' next := by
  obtain ⟨hg,hs⟩ := hr.tree
  obtain ⟨htree,hs₁⟩ := he.tree hs
  have hmove : SameNotices c c₁ → c₁.head = c.head ∨ c₁.head = c.tree.next →
      ∃ log', Ledger c₁ log' next := fun hsame hh =>
    ⟨log,(h.advance hg hs hs₁ hlt.le hsame.facts hsame.notices hsame.compactions hsame.initial htree
      hh).1⟩
  have hstay : SameNotices c c₁ → c₁.head = c.head → ∃ log', Ledger c₁ log' next :=
    fun hsame hh => hmove hsame (.inl hh)
  cases he with
  | messageStarted hstart =>
    rename_i s
    refine hmove (sameNotices_startMessage (by constructor <;> rfl) s) (.inr ?_)
    have htree : (startMessage event s (takeChild s.allocated c)).tree = _ := tree_startMessage s
    rw [tree_push hstart.allocated (m := newMessage event s) rfl] at htree
    exact congrArg PathTree.head htree
  | noticeRecorded hn hf hrole hstatus hon =>
    have hm := List.mem_of_getElem? (show c.messages[_]? = some _ from by
      obtain ⟨_,_,_,hi⟩ := Conversation.findMessage_eq_some hf
      exact hi)
    exact h.noticed h hg hs hn (eventChecks_kind hd) hst.plain hseq hlt rfl rfl (.stay _)
      (.inr (List.mem_map_of_mem hm))
  | noticeAppended hn hf ha =>
    rename_i id messageId allocated
    have htree₁ := tree_push (c := c) ha (m := noticeMessage event messageId allocated) rfl
    have hstep : PathTree.Step c.tree
        ((takeChild allocated c).pushMessage (noticeMessage event messageId allocated)).tree := by
      rw [htree₁]
      exact .grow _
    have hhead := congrArg PathTree.head htree₁
    have hs' : SoundPaths ((takeChild allocated c).pushMessage
      (noticeMessage event messageId allocated)) := hs.push ha rfl
    obtain ⟨h₁,hepoch⟩ := h.advance hg hs hs' le_rfl rfl rfl rfl rfl hstep (.inr hhead)
    refine h₁.noticed h hg hs hn (eventChecks_kind hd) hst.plain hseq hlt rfl hepoch hstep (.inr ?_)
    rw [htree₁,allocate_next ha]
    simp
  | noticeEvidence hkind hev hu =>
    rename_i delivered _ _ _ _
    refine h.evidence hs hg ?_ hev hu hseq hlt
    have hk := eventChecks_kind hd
    rw [hk,hkind]
    cases delivered <;> rfl
  | compactionRequested hreq => exact ⟨log,h.requested hg hs hreq hlt.le⟩
  | compactionSettled hkind hf hp hepoch hon hset =>
    rename_i completed i op op'
    obtain ⟨id,hid,hlook,hi⟩ := Conversation.findCompaction_eq_some hf
    refine ⟨log,h.concluded hr.filed hi hp hon (by cases completed <;> decide) hset hseq hlt ?_⟩
    intro hcompleted
    have hopid : op.requestId = id := by
      have hat := (hr.filed.compactions id i).mp hlook
      rw [List.getElem?_map,hi] at hat
      exact Option.some.inj hat
    have hk := eventChecks_kind hd
    rw [hkind] at hk
    cases completed with
    | false => cases hcompleted
    | true =>
      have hne := hst.fresh hk
      rw [hid] at hne
      rintro he
      exact hne (by rw [← he,hopid])
  | rewindCommitted hrw =>
    exact ⟨log,h.rewound hs hrw (eventChecks_kind hd) hst.keeps htree hlt.le⟩
  | messageCompleted ho hv hm =>
    exact hstay (sameNotices_closeMessage (by constructor <;> rfl) _) (head_closeMessage _)
  | messageInterrupted ho hv hm =>
    exact hstay (sameNotices_closeMessage (by constructor <;> rfl) _) (head_closeMessage _)
  | @retryStarted retry message hl hf hm =>
    cases message <;> exact hstay ⟨rfl,rfl,rfl,rfl⟩ rfl
  | _ => exact hstay ⟨rfl,rfl,rfl,rfl⟩ rfl

end Steps

section Runs
variable {c c' : Conversation} {event : Fields}

/-- The log of a conversation whose sequence is known. -/
def Logged (c : Conversation) : Prop :=
  ∃ (log : List Entry) (k : Nat), c.lastSequence.toRat = some (k : ℚ) ∧ Ledger c log k

theorem toRat_of_eq {m n : LuaNum} {q : ℚ} (h : m.eq n) (hn : n.toRat = some q) :
    m.toRat = some q := by
  cases m <;> cases n <;> simp_all [LuaNum.eq,LuaNum.toRat]

theorem toRat_succ {n : LuaNum} {q : ℚ} (h : n.toRat = some q) : n.succ.toRat = some (q+1) := by
  cases n <;> simp_all [LuaNum.succ,LuaNum.toRat]

/-- Before anything is recorded, nothing is logged. -/
theorem Ledger.empty {last : ℚ} (hfacts : c.noticeFacts = []) (hops : c.compactions = [])
    (hnotices : ∀ id, c.noticeById.lookup id = none) : Ledger c [] last where
  dated := by
    refine ⟨by rw [hfacts]; exact .nil,.nil,?_,?_,List.forall_mem_nil _,?_⟩ <;> rw [hops]
    · exact List.forall_mem_nil _
    · exact .nil
    · exact List.forall_mem_nil _
  entries := List.forall_mem_nil _
  terminals := by rw [hops]; exact List.forall_mem_nil _
  epochs := List.forall_mem_nil _
  own := by rw [hops]; exact List.forall_mem_nil _
  knownEntries := List.forall_mem_nil _
  knownHeads := by rw [hops]; exact List.forall_mem_nil _
  lastPending i op hop := by
    rw [hops] at hop
    cases hop
  follows := chained_nil
  stored id notice hn := by
    rw [hnotices] at hn
    cases hn
  listed := List.forall_mem_nil _
  kept := List.forall_mem_nil _

theorem Logged.created (h : Creates event c) : Logged c := by
  obtain ⟨n,_,hn,_,rfl⟩ := h.eq
  exact ⟨[],1,by simpa [LuaNum.toRat] using toRat_of_eq hn rfl,.empty rfl rfl fun _ => rfl⟩

/-- The next sequence follows the last one. -/
theorem sequenced_next {k : Nat} (hk : c.lastSequence.toRat = some (k : ℚ))
    (hc : continuationChecks c event = .ok ()) :
    ∃ n, event.get "sequence" = .num n ∧ n.toRat = some ((k+1 : Nat) : ℚ) := by
  have hs := continuationChecks_sequence event hc
  cases hg : event.get "sequence" with
  | num n =>
    rw [hg] at hs
    refine ⟨n,rfl,toRat_of_eq hs ?_⟩
    rw [toRat_succ hk]
    norm_cast
  | _ => rw [hg] at hs; cases hs

theorem Ledger.same {log : List Entry} {last : ℚ} (h : Ledger c log last) (hs : SameNotices c c')
    (ht : PathTree.Step c.tree c'.tree) (hh : c'.head = c.head) : Ledger c' log last := by
  refine h.frame le_rfl hs.facts hs.notices hs.compactions hs.initial ht ?_
  have he : currentEpoch c' = currentEpoch c := by
    refine currentEpoch_congr hs.compactions hs.initial fun op _ => ?_
    rw [Conversation.onHead,Conversation.onHead,hh]
  rw [he,hh]
  exact h.kept

/-- A refused event leaves the log as it was. -/
theorem Logged.refused (h : Logged c) (hr : c.Reachable) (hm : Refused event c c') : Logged c' := by
  obtain ⟨log,k,hk,hl⟩ := h
  obtain ⟨ht,_⟩ := (Moves.refused hm).tree hr.tree.2
  rcases hm with rfl | hm
  · exact ⟨log,k,hk,hl⟩
  · have hlast : ∀ (m : Message) (c : Conversation),
        (closeMessage m c).lastSequence = c.lastSequence := by
      intro m c
      unfold closeMessage
      simp only
      split
      · split <;> rfl
      · rfl
    cases hm with
    | started hs => exact ⟨log,k,hk,hl.same ⟨rfl,rfl,rfl,rfl⟩ ht rfl⟩
    | narrowed ho hv => exact ⟨log,k,hk,hl.same ⟨rfl,rfl,rfl,rfl⟩ ht rfl⟩
    | closed ho hv hm =>
      exact ⟨log,k,by rw [hlast]; exact hk,
        hl.same (sameNotices_closeMessage (by constructor <;> rfl) _) ht (head_closeMessage _)⟩

theorem Logged.accepted (h : Logged c) (hr : c.Reachable) (ha : Accepts c event c')
    (hst : Steady c event) : Logged c' := by
  obtain ⟨log,k,hk,hl⟩ := h
  obtain ⟨d,c₀,hd,hc,he,rfl⟩ := ha.effect
  obtain ⟨n,hn,hnk⟩ := sequenced_next hk hc
  obtain ⟨log',hl'⟩ := hl.effect hr hd hst ⟨n,hn,hnk⟩ (by norm_cast; omega) he
  refine ⟨log',k+1,?_,hl'.same sameNotices_stamp (tree_stamp ▸ .stay _)
    (congrArg PathTree.head tree_stamp)⟩
  rw [stamp,hn]
  exact hnk

/-- Every call of the fold whose event is accepted meets the condition. -/
def SteadyCalls (c : Conversation) (event : Fields) (c' : Conversation) : Prop :=
  Calls c event c' ∧ (Accepts c event c' → Steady c event)

theorem Logged.run {events : List Fields} (h : Logged c) (hr : c.Reachable)
    (hrun : Trace SteadyCalls c events c') : c'.Reachable ∧ Logged c' := by
  refine hrun.preserves (P := fun c => c.Reachable ∧ Logged c) ?_ ⟨hr,h⟩
  rintro c event c' ⟨hr,hl⟩ ⟨hcall,hst⟩
  refine ⟨hr.run (.single hcall),?_⟩
  rcases hcall.accepts_or_refused with ha | hm
  · exact hl.accepted hr ha (hst ha)
  · exact hl.refused hr hm

end Runs

section Agreement
variable {c c' : Conversation} {event ack : Fields} {provider model : String}

/-- A notice of the current epoch and the pair, on the path to the head and without the mark. -/
def Owed (c : Conversation) (provider model : String) : Prop :=
  ∃ id notice, c.noticeById.lookup id = some notice ∧
    notice.get "epoch_id" = .str (currentEpoch c) ∧ notice.get "provider" = .str provider ∧
    notice.get "model" = .str model ∧ HistoryPath.isPrefix (notice.get "history_id") c.head.toLua ∧
    (notice.get "delivered").truthy = false

/-- The event includes the outstanding notice in a request of its own. -/
structure Resends (c : Conversation) (provider model : String) (notice : CompactionPolicy.Notice)
    (event : Fields) : Prop where
  checks : eventChecks event = .ok (.other .contextNoticeIncluded)
  continues : continuationChecks c event = .ok ()
  noticeId : event.get "notice_id" = notice.noticeId
  epoch : event.get "epoch_id" = (policyState c (.str provider) (.str model)).epochId
  provider : event.get "provider" = .str provider
  model : event.get "model" = .str model
  historyId : event.get "history_id" = c.head.toLua
  watermark : event.get "context_watermark" = .num c.lastSequence
  requestId : ∃ r, asId (event.get "request_id") = some r ∧
    ∀ fact ∈ c.noticeFacts, fact.get "request_id" ≠ .str r

/-- The event acknowledges the inclusion. -/
structure Acknowledges (c : Conversation) (inclusion event : Fields) : Prop where
  checks : eventChecks event = .ok (.other .contextNoticeDelivered)
  continues : continuationChecks c event = .ok ()
  same : ∀ name ∈ ["notice_id","request_id","epoch_id","provider","model","history_id",
    "context_watermark"], event.get name = inclusion.get name

/-- Ledger and policy agree, and the policy can have its outstanding notice delivered. -/
structure Agrees (c : Conversation) : Prop where
  epoch : ∀ provider model : String,
    (policyState c (.str provider) (.str model)).epochId = .str (currentEpoch c)
  outstanding : ∀ provider model : String,
    (policyState c (.str provider) (.str model)).outstandingNotice.isSome ↔ Owed c provider model
  delivered : ∀ provider model notice,
    (policyState c (.str provider) (.str model)).outstandingNotice = some notice →
    pairMatches c (.str provider) (.str model) → ∀ inclusion, Resends c provider model notice inclusion →
    ∃ c', Accepts c inclusion c' ∧ ∀ ack, Acknowledges c' inclusion ack → ∃ c'', Accepts c' ack c''

/-- On the path and in the current scope the log goes by the rules of a single branch. -/
theorem Ledger.allowed {log : List Entry} {last : ℚ} (h : Ledger c log last) {scope : Scope}
    (hs : scope.epoch = currentEpoch c) : Chained Allowed (branchLog c scope log) := by
  refine h.follows.filter fun earlier e hsub hel hkeep hf => ?_
  simp only [Bool.and_eq_true,decide_eq_true_eq] at hkeep
  obtain ⟨hpath,hscope⟩ := hkeep
  have hin : ∀ x ∈ earlier, x.path <+: c.head → x.scope = e.scope →
      x ∈ earlier.filter fun e => decide (e.path <+: c.head) && decide (e.scope = scope) := by
    intro x hx hp hxs
    refine List.mem_filter.mpr ⟨hx,?_⟩
    simp [hp,hxs,hscope]
  cases hstep : e.step with
  | appended =>
    simp only [Follows,hstep] at hf
    simp only [Allowed,hstep]
    refine ⟨fun x hx => hf.1 x (List.mem_filter.mp hx).1,?_⟩
    rintro id ⟨⟨a,ha,happ⟩,hnone⟩
    obtain ⟨ha,hka⟩ := List.mem_filter.mp ha
    simp only [Bool.and_eq_true,decide_eq_true_eq] at hka
    rcases hf.2 a ha happ.1 (hka.2.trans hscope.symm) with ⟨d,hd,hdel⟩ | hab
    · have hdp := h.kept a (hsub a ha) happ.1 (by rw [hka.2,hs]) hka.1 d (hsub d hd) hdel
      have hds := h.scope_eq (hsub a ha) ⟨happ.1,rfl⟩ (hsub d hd) hdel.2
      refine hnone d (hin d hd hdp (hds.trans (hka.2.trans hscope.symm))) ⟨hdel.1,?_⟩
      rw [hdel.2,happ.2]
    · exact hab.off hka.1
  | included r =>
    simp only [Follows,hstep] at hf
    simp only [Allowed,hstep]
    obtain ⟨a,ha,happ,has,hap⟩ := hf
    exact ⟨a,hin a ha (hap.trans hpath) has,happ⟩
  | delivered r =>
    simp only [Follows,hstep] at hf
    simp only [Allowed,hstep]
    obtain ⟨⟨a,ha,happ,has,hap⟩,i,hi,hinc,his,hip⟩ := hf
    exact ⟨⟨a,hin a ha (hap.trans hpath) has,happ⟩,i,hin i hi (hip ▸ hpath) his,hinc⟩

/-- What is logged in the current epoch was logged after it began. -/
theorem Ledger.later {log : List Entry} {last : ℚ} (h : Ledger c log last) (hfiled : Filed c) :
    ∀ e ∈ log, e.path <+: c.head → e.scope.epoch = currentEpoch c →
      ∀ op ∈ headCompactions c, sequenceOf op.terminalSequence < e.sequence := by
  intro e he _ hepoch op hop
  rw [currentEpoch_eq] at hepoch
  cases hl : (headCompactions c).getLast? with
  | none =>
    rw [List.getLast?_eq_none_iff.mp hl] at hop
    cases hop
  | some lastOp =>
    rw [hl] at hepoch
    obtain ⟨hmem,hst,_⟩ := mem_headCompactions.mp (List.mem_of_getLast? hl)
    have hlt : sequenceOf lastOp.terminalSequence < e.sequence := by
      rcases h.epochs e he with hinit | ⟨x,hx,hxs,hxr,hxt⟩
      · exact absurd (hepoch.symm.trans hinit) (h.own lastOp hmem hst)
      · have hxl : x = lastOp := by
          have hid : x.requestId = lastOp.requestId := hxr.trans hepoch
          exact List.inj_on_of_nodup_map hfiled.compactions.nodup hx hmem hid
        rwa [← hxl]
    refine lt_of_le_of_lt ?_ hlt
    have hord : (headCompactions c).Pairwise fun a b =>
        sequenceOf a.terminalSequence < sequenceOf b.terminalSequence :=
      h.dated.headOrdered
    obtain ⟨init,hinit⟩ := List.getLast?_eq_some_iff.mp hl
    rw [hinit] at hop hord
    rcases List.mem_append.mp hop with hop | hop
    · exact ((List.pairwise_append.mp hord).2.2 op hop lastOp (by simp)).le
    · rw [List.mem_singleton.mp hop]

/-- The policy of a pair after the replay, with the entries it stands for. -/
theorem Ledger.policy {log : List Entry} {last : ℚ} (h : Ledger c log last) (hr : c.Reachable)
    (provider model : String) :
    (policyState c (.str provider) (.str model)).epochId = .str (currentEpoch c) ∧
      (∀ id, Outstanding (branchLog c ⟨currentEpoch c,provider,model⟩ log) id →
        (policyState c (.str provider) (.str model)).outstandingNotice.isSome) ∧
      ∀ notice, (policyState c (.str provider) (.str model)).outstandingNotice = some notice →
        ∃ id, notice.noticeId = .str id ∧
          Outstanding (branchLog c ⟨currentEpoch c,provider,model⟩ log) id := by
  have hrep := h.dated.replayed provider model hr.tree.2.head (HistoryPath.keyOf c.head) rfl
    (h.later hr.filed) (h.allowed rfl)
  have hstate : policyState c (.str provider) (.str model) =
      let s := (pairFacts c provider model).foldl (fun s fact => CompactionPolicy.reduce s
        (fact.set "history_id" (.str (HistoryPath.keyOf c.head)))) { epochId := .str c.initialEpochId }
      { s with notices := s.notices.map fun notices =>
          notices.map fun n => (n.1,{ n.2 with historyId := c.head.toLua }) } := rfl
  revert hstate
  generalize (pairFacts c provider model).foldl (fun s fact => CompactionPolicy.reduce s
    (fact.set "history_id" (.str (HistoryPath.keyOf c.head)))) { epochId := .str c.initialEpochId } =
    s at hrep
  intro hstate
  have hlook : ∀ id, (policyState c (.str provider) (.str model)).noticeMap.lookup id =
      (s.noticeMap.lookup id).map fun n => { n with historyId := c.head.toLua } := by
    intro id
    rw [hstate]
    simp only [CompactionPolicy.State.noticeMap]
    cases s.notices with
    | none => rfl
    | some notices =>
      simp only [Option.map_some,Option.getD_some]
      induction notices with
      | nil => rfl
      | cons n rest ih =>
        rw [List.map_cons,List.lookup_cons,List.lookup_cons,ih]
        cases id == n.1 <;> rfl
  have hout : ∀ id, Outstanding (branchLog c ⟨currentEpoch c,provider,model⟩ log) id →
      ∃ n, (policyState c (.str provider) (.str model)).noticeMap.lookup id = some n ∧
        n.noticeId = .str id := by
    rintro id ⟨⟨a,ha,happ⟩,_⟩
    obtain ⟨n,hn,hnid,_⟩ := hrep.notices a ha id happ
    exact ⟨{ n with historyId := c.head.toLua },by rw [hlook,hn]; rfl,hnid⟩
  have hsame : (policyState c (.str provider) (.str model)).outstanding = s.outstanding := by
    rw [hstate]
  refine ⟨by rw [hstate]; exact hrep.epoch,fun id hid => ?_,fun notice hn => ?_⟩
  · obtain ⟨n,hn,_⟩ := hout id hid
    rw [CompactionPolicy.State.outstandingNotice,hsame,(hrep.outstanding id).mpr hid,
      Option.bind_some,hn]
    rfl
  · rw [CompactionPolicy.State.outstandingNotice,hsame,Option.bind_eq_some_iff] at hn
    obtain ⟨id,hid,hn⟩ := hn
    have ho := (hrep.outstanding id).mp hid
    obtain ⟨n',hn',hnid⟩ := hout id ho
    rw [hn] at hn'
    cases hn'
    exact ⟨id,hnid,ho⟩

/-- An outstanding notice is owed by the ledger, and the other way round. -/
theorem Ledger.owed_iff {log : List Entry} {last : ℚ} (h : Ledger c log last) (hr : c.Reachable) :
    Owed c provider model ↔
      ∃ id, Outstanding (branchLog c ⟨currentEpoch c,provider,model⟩ log) id := by
  have hs := hr.tree.2
  have hbranch : ∀ e, e ∈ branchLog c ⟨currentEpoch c,provider,model⟩ log ↔
      e ∈ log ∧ e.path <+: c.head ∧ e.scope = ⟨currentEpoch c,provider,model⟩ := by
    intro e
    simp [branchLog]
  constructor
  · rintro ⟨id,notice,hn,he,hp,hm,hh,hd⟩
    obtain ⟨a,ha⟩ := h.stored id notice hn
    refine ⟨id,⟨a,(hbranch a).mpr ⟨ha.logged,(ha.reads.path.isPrefix_iff hs.head).mp hh,?_⟩,
      ha.appends⟩,fun d hdl hdel => ?_⟩
    · have hae := LuaValue.str.inj (ha.reads.epoch.symm.trans he)
      have hap := LuaValue.str.inj (ha.reads.provider.symm.trans hp)
      have ham := LuaValue.str.inj (ha.reads.model.symm.trans hm)
      cases hsc : a.scope
      simp_all
    · rw [← Bool.not_eq_true,ha.delivered] at hd
      exact hd ⟨d,((hbranch d).mp hdl).1,hdel⟩
  · rintro ⟨id,⟨a,ha,happ⟩,hnone⟩
    obtain ⟨hal,hap,has⟩ := (hbranch a).mp ha
    obtain ⟨notice,hn,hst⟩ := h.stored_of hal happ.1
    rw [happ.2] at hn hst
    refine ⟨id,notice,hn,?_,?_,?_,(hst.reads.path.isPrefix_iff hs.head).mpr hap,?_⟩
    · rw [hst.reads.epoch,has]
    · rw [hst.reads.provider,has]
    · rw [hst.reads.model,has]
    · rw [← Bool.not_eq_true,hst.delivered]
      rintro ⟨d,hd,hdel⟩
      have hdp := h.kept a hal happ.1 (by rw [has]) hap d hd (happ.2 ▸ hdel)
      have hds := h.scope_eq hal happ hd hdel.2
      exact hnone d ((hbranch d).mpr ⟨hd,hdp,hds.trans has⟩) hdel

/-- Evidence that passes its checks is accepted. -/
theorem accepts_evidence (delivered : Bool) {id requestId : String} {notice notice' : Fields}
    (hd : eventChecks event =
      .ok (.other (if delivered then .contextNoticeDelivered else .contextNoticeIncluded)))
    (hc : continuationChecks c event = .ok ()) (hev : Evident delivered event c id notice requestId)
    (hu : updateNotice delivered notice requestId event c.lastSequence = .ok notice') :
    Accepts c event (stamp event { c with
      noticeById := assign c.noticeById id notice'
      noticeFacts := c.noticeFacts ++ [evidenceFact event notice'] }) := by
  have hn : noticeEvidence delivered event c = (.ok (),{ c with
      noticeById := assign c.noticeById id notice'
      noticeFacts := c.noticeFacts ++ [evidenceFact event notice'] }) := by
    simp only [noticeEvidence]
    rw [bind_ok ((evidenceChecks_ok event).mpr hev)]
    simp only [bind_apply,read_apply,hu]
    rfl
  refine ⟨event,?_⟩
  have hh : (if delivered then Kind.contextNoticeDelivered
      else Kind.contextNoticeIncluded).handler event = noticeEvidence delivered event := by
    cases delivered <;> rfl
  simp only [fold,hd,foldInto,bind_apply,read_apply,hc,hh,hn]
  rfl

theorem numLt_self {v : LuaValue} {n : LuaNum} {q : ℚ} (hv : v = .num n) (hq : n.toRat = some q) :
    numLt v v = false := by
  rw [numLt_iff hv hv hq hq]
  simp

theorem num_rawEq_self {n : LuaNum} {q : ℚ} (hq : n.toRat = some q) :
    (LuaValue.num n).rawEq (.num n) := by
  cases n <;> simp_all [LuaValue.rawEq,LuaNum.eq,LuaNum.toRat]

theorem whole_of_nat {n : LuaNum} {k : Nat} (hq : n.toRat = some (k : ℚ)) :
    finite (.num n) ∧ integral (.num n) := by
  cases n with
  | int i => exact ⟨rfl,rfl⟩
  | float q =>
    have hqk : q = (k : ℚ) := Option.some.inj hq
    subst hqk
    refine ⟨rfl,?_⟩
    simp [integral,LuaNum.integral]
  | _ => cases hq

theorem path_equal_self (p : HistoryPath) : (HistoryPath.toLua p).equal (HistoryPath.toLua p) := by
  rw [HistoryPath.toLua_eq]
  refine LuaValue.equal_array_self fun v hv => ?_
  obtain ⟨n,_,rfl⟩ := List.mem_map.mp hv
  exact ⟨(HistoryPath.component_rawEq n n).mpr rfl,rfl⟩

/-- The outstanding notice can be sent again and acknowledged. -/
theorem Ledger.resent {log : List Entry} {k : Nat} (h : Ledger c log k) (hr : c.Reachable)
    (hk : c.lastSequence.toRat = some (k : ℚ)) {notice : CompactionPolicy.Notice}
    (ho : (policyState c (.str provider) (.str model)).outstandingNotice = some notice)
    (hpair : pairMatches c (.str provider) (.str model))
    (hinc : Resends c provider model notice event) :
    ∃ c', Accepts c event c' ∧ ∀ ack, Acknowledges c' event ack → ∃ c'', Accepts c' ack c'' := by
  obtain ⟨hepoch,_,hnotice⟩ := h.policy hr provider model
  obtain ⟨id,hid,⟨a,ha,happ⟩,hnone⟩ := hnotice notice ho
  simp only [branchLog,List.mem_filter,Bool.and_eq_true,decide_eq_true_eq] at ha
  obtain ⟨hal,hap,has⟩ := ha
  obtain ⟨stored,hn,hst⟩ := h.stored_of hal happ.1
  rw [happ.2] at hn hst
  obtain ⟨r,hreq,hfresh⟩ := hinc.requestId
  have hsound := hr.tree.2.head
  have hhead : HistoryPath.isPrefix c.head.toLua c.head.toLua :=
    (HistoryPath.isPrefix_toLua hsound hsound).mpr (List.prefix_refl _)
  have hbind : ∀ key ∈ ["epoch_id","provider","model"], (stored.get key).rawEq (event.get key) := by
    intro key hkey
    simp only [List.mem_cons,List.not_mem_nil,or_false] at hkey
    rcases hkey with rfl | rfl | rfl
    · rw [hst.reads.epoch,has,hinc.epoch,hepoch,LuaValue.str_rawEq]
      simp
    · rw [hst.reads.provider,has,hinc.provider,LuaValue.str_rawEq]
      simp
    · rw [hst.reads.model,has,hinc.model,LuaValue.str_rawEq]
      simp
  have hid' : asId (.str id) = some id := by
    have hne := hst.reads.named
    rw [happ.2] at hne
    simp [asId,hne]
  obtain ⟨sn,hsn,hsq⟩ := hst.reads.sequence
  have hafter : ∀ v, v = .num c.lastSequence → numLt v (stored.get "sequence") = false := by
    rintro v rfl
    rw [numLt_iff rfl hsn hk hsq]
    simpa using h.entries a hal
  have hev : Evident false event c id stored r := by
    refine ⟨by rw [hinc.noticeId,hid]; exact hid',hn,hreq,by rw [hinc.epoch,hepoch],hbind,
      by rw [hinc.provider,hinc.model]; exact hpair,
      (hst.reads.path.isPrefix_iff hsound).mpr hap,by rw [hinc.historyId]; exact hhead,
      fun _ => by rw [hinc.historyId]; exact path_equal_self _,
      by rw [hinc.watermark]; exact whole_of_nat hk,hafter _ hinc.watermark,?_⟩
    rw [hinc.watermark]
    exact numLt_self rfl hk
  -- the request is new to the notice
  obtain ⟨marked,es,hes,hstored⟩ := hst.inclusions
  have hnil : Fields.get es r = .nil := by
    rcases hstored r with ⟨hnil,_⟩ | ⟨_,_,i,hi,hinc',_⟩
    · exact hnil
    · obtain ⟨fact,hf,hreads⟩ := forall₂_mem h.dated.facts.flip hi
      exact absurd (hreads.requestId r (.inl hinc'.1)) (hfresh fact hf)
  have hu : ∃ stored', updateNotice false stored r event c.lastSequence = .ok stored' := by
    have hraw := num_rawEq_self hk
    simp only [updateNotice,findInclusion,hes,indexValue,hnil,ok_bind,Bool.false_eq_true,if_false,
      includeNotice,LuaValue.truthy,hinc.watermark,hraw,Bool.not_true]
    exact ⟨_,rfl⟩
  obtain ⟨stored',hu⟩ := hu
  have hacc := accepts_evidence false hinc.checks hinc.continues hev hu
  refine ⟨_,hacc,fun ack hack => ?_⟩
  obtain ⟨marked',es',hes',_,hnew,hflag⟩ := included_eq hu
  obtain ⟨n,hn',hnk⟩ := sequenced_next hk hinc.continues
  have hsame : ∀ {name : String}, name ∈ ["notice_id","request_id","epoch_id","provider","model",
      "history_id","context_watermark"] → ack.get name = event.get name := hack.same _
  have hget : ∀ {name : String}, name ∉ ["delivered","inclusions","request_ids"] →
      stored'.get name = stored.get name := updateNotice_get hu
  have hstamp : stamp event { c with
      noticeById := assign c.noticeById id stored'
      noticeFacts := c.noticeFacts ++ [evidenceFact event stored'] } = { c with
      noticeById := assign c.noticeById id stored'
      noticeFacts := c.noticeFacts ++ [evidenceFact event stored']
      lastSequence := n } := by
    rw [stamp,hn']
  rw [hstamp] at hack ⊢
  have hev' : Evident true ack { c with
      noticeById := assign c.noticeById id stored'
      noticeFacts := c.noticeFacts ++ [evidenceFact event stored']
      lastSequence := n } id stored' r := by
    refine ⟨by rw [hsame (by decide)]; exact hev.noticeId,?_,
      by rw [hsame (by decide)]; exact hreq,by rw [hsame (by decide)]; exact hev.epoch,?_,?_,?_,
      by rw [hsame (by decide)]; exact hev.branch,fun h => absurd h (by decide),by rw [hsame (by decide)]; exact hev.whole,
      ?_,?_⟩
    · change (assign c.noticeById id stored').lookup id = some stored'
      rw [lookup_assign,if_pos rfl]
    · intro key hkey
      have hk' : stored'.get key = stored.get key ∧ ack.get key = event.get key := by
        simp only [List.mem_cons,List.not_mem_nil,or_false] at hkey
        rcases hkey with rfl | rfl | rfl <;> exact ⟨hget (by decide),hsame (by decide)⟩
      rw [hk'.1,hk'.2]
      exact hbind key hkey
    · rw [hsame (by decide),hsame (by decide)]
      exact hev.pair
    · rw [hget (by decide)]
      exact hev.onHead
    · rw [hsame (by decide),hget (by decide)]
      exact hev.after
    · rw [hsame (by decide),hinc.watermark,numLt_iff rfl rfl hnk hk]
      simp
  have hdelivered : (stored'.get "delivered").truthy = false := by
    rw [hflag,← Bool.not_eq_true,hst.delivered]
    rintro ⟨d,hd,hdel⟩
    have hdp := h.kept a hal happ.1 (by rw [has]) hap d hd (happ.2 ▸ hdel)
    have hds := h.scope_eq hal happ hd hdel.2
    refine hnone d ?_ hdel
    simp [branchLog,hd,hdp,hds.trans has]
  have hu' : ∃ stored'', updateNotice true stored' r ack n = .ok stored'' := by
    have hraw := num_rawEq_self hk
    have hpath := path_equal_self c.head
    have hfind : findInclusion stored' r = .ok (.table false event) := by
      rw [findInclusion,hnew]
      simp [LuaValue.orElse,LuaValue.truthy,indexValue]
    have htable : (LuaValue.table false event).truthy = true := rfl
    simp only [updateNotice,hfind,ok_bind,if_true,deliverNotice,htable,indexValue,
      hsame (show "context_watermark" ∈ _ by decide),hsame (show "history_id" ∈ _ by decide),
      hinc.watermark,hinc.historyId,hraw,hpath,hdelivered,Bool.not_true,Bool.false_eq_true,if_false]
    exact ⟨_,rfl⟩
  obtain ⟨stored'',hu'⟩ := hu'
  exact ⟨_,accepts_evidence true hack.checks hack.continues hev' hu'⟩

/-- In every run whose accepted events are steady the policy and the ledger agree. -/
theorem policy_agrees {events : List Fields} (hc : Creates event c)
    (hrun : Trace SteadyCalls c events c') : Agrees c' := by
  obtain ⟨hr,log,k,hk,h⟩ := (Logged.created hc).run hc.reachable hrun
  refine ⟨fun provider model => (h.policy hr provider model).1,fun provider model => ?_,
    fun provider model notice ho hpair inclusion hinc => h.resent hr hk ho hpair hinc⟩
  obtain ⟨_,hout,hnotice⟩ := h.policy hr provider model
  rw [h.owed_iff hr]
  constructor
  · intro hs
    obtain ⟨notice,hn⟩ := Option.isSome_iff_exists.mp hs
    obtain ⟨id,_,ho⟩ := hnotice notice hn
    exact ⟨id,ho⟩
  · rintro ⟨id,ho⟩
    exact hout id ho

end Agreement

theorem noticeEvent_kind {kind : String} (h : noticeEvent.get "kind" = .str kind) :
    kind = "context_notice_appended" := (LuaValue.str.inj h).symm

theorem policy_agrees_noticed : Agrees (createdConversation.next noticeEvent) :=
  policy_agrees creates_createdConversation (.single ⟨calls_next _ _,fun _ =>
    ⟨fun _ => ⟨rfl,rfl⟩,fun h => absurd (noticeEvent_kind h) (by decide),
      fun h => absurd (noticeEvent_kind h) (by decide)⟩⟩)

def branchEvent (id kind : String) (sequence : Int) (fields : List (String × LuaValue)) : Fields :=
  (LuaValue.record ([("event_id",.str id),("conversation_id",.str "c"),("kind",.str kind),
    ("sequence",.num (.int sequence))] ++ fields)).fields

def requestFields : List (String × LuaValue) := [("notice_id",.str "n"),("epoch_id",.str "e1"),
  ("provider",.str "p"),("model",.str "q"),("history_id",HistoryPath.toLua [1,1]),
  ("request_id",.str "r"),("context_watermark",.num (.int 4))]

/-- A notice is delivered below the message that a rewind goes back before. -/
def partedConversation : Conversation :=
  (((((createdConversation.next noticeEvent).next
    (branchEvent "e3" "message_started" 3 [("message_id",.str "u"),("role",.str "user"),
      ("authored_prompt",.str "prompt")])).next
    (branchEvent "e4" "message_completed" 4 [("message_id",.str "u")])).next
    (branchEvent "e5" "context_notice_included" 5 requestFields)).next
    (branchEvent "e6" "context_notice_delivered" 6 requestFields)).next
    (branchEvent "e7" "rewind_committed" 7 [("target_history_id",HistoryPath.toLua [1,1]),
      ("expected_head",HistoryPath.toLua [1,1])])

/-- The policy takes the notice for outstanding, and the ledger has it marked as delivered. -/
theorem policy_agrees_fails : ¬∀ c : Conversation, c.Reachable → Agrees c := by
  intro h
  have hr : partedConversation.Reachable :=
    ((((((creates_createdConversation.reachable.next _).next _).next _).next _).next _).next _)
  have hsorted : sortedFacts partedConversation = policyFacts partedConversation :=
    List.mergeSort_of_pairwise (by decide)
  have ho := ((h partedConversation hr).outstanding "p" "q").mp (by
    rw [policyState,hsorted]
    decide)
  obtain ⟨id,notice,hn,_,_,_,_,hd⟩ := ho
  have hall : ∀ n ∈ partedConversation.noticeById, (n.2.get "delivered").truthy = true := by decide
  have hmarked := hall _ (mem_of_lookup hn)
  rw [hd] at hmarked
  cases hmarked

end Nefor.ConversationManager
