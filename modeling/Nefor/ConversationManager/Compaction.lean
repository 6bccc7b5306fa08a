import Nefor.ConversationManager.Branches

/-! Compaction. A checkpoint is tied to the messages by their number alone, so what it covers is
what it was made from only while no message joins the context before the end of that number. -/
namespace Nefor.ConversationManager
open Nefor.Lua Nefor.Action

/-- The ids of the messages that a view leaves to be sent along with the checkpoint. -/
def tailIds (view : LuaValue) : List LuaValue :=
  (view.get "tail_messages").sequence.map (·.get "id")

section Rows

/-- What decides where a message stands in the context: its id, its path, and whether it counts. -/
structure Row where
  id : String
  path : HistoryPath
  counts : Bool

def Message.row (m : Message) : Row := ⟨m.id,m.historyId,settledMessage m⟩

/-- The row belongs to the context of the branch. -/
def Row.on (path : HistoryPath) (r : Row) : Bool := decide (r.path <+: path) && r.counts

/-- The ids of the messages that the context of a branch holds, in order. -/
def branchIds (path : HistoryPath) (rows : List Row) : List String :=
  (rows.filter (Row.on path)).map (·.id)

/-- The event closes the message it names. -/
def Closing (event : Fields) : Prop :=
  event.get "kind" = .str "message_completed" ∨ event.get "kind" = .str "message_interrupted"

/-- The event does not bring a message into the first `cutoff` messages of the branch. -/
def KeepsBranch (path : HistoryPath) (cutoff : Nat) (c : Conversation) (event : Fields) : Prop :=
  Closing event → ∀ i m visibility, OpenMessage event c i m → Settles m event visibility →
    visibility ≠ .discarded → m.historyId <+: path →
    cutoff ≤ ((c.messages.take i).filter fun n => Row.on path n.row).length

/-- How an accepted event changes the rows. -/
inductive RowStep (event : Fields) (c c' : Conversation) : Prop
  | same : ¬Closing event → c'.messages.map Message.row = c.messages.map Message.row →
      RowStep event c c'
  | push {r : Row} : ¬Closing event → r.path = c.tree.next →
      c'.messages.map Message.row = c.messages.map Message.row ++ [r] → RowStep event c c'
  | close {i : Nat} {m m' : Message} {visibility : Visibility} : Closing event →
      OpenMessage event c i m → Settles m event visibility →
      m'.row = ⟨m.id,m.historyId,decide (visibility ≠ .discarded)⟩ →
      c'.messages = c.messages.modify i (fun _ => m') → RowStep event c c'

variable {event : Fields} {c c' : Conversation}

theorem messages_stamp : (stamp event c).messages = c.messages := by
  unfold stamp
  split <;> rfl

theorem Closing.dispatch {d : Dispatch} (h : Closing event)
    (hd : dispatch (event.get "kind") = some d) :
    d = .other .messageCompleted ∨ d = .other .messageInterrupted := by
  rcases h with hk | hk
  · rw [hk] at hd
    cases hd
    exact .inl rfl
  · rw [hk] at hd
    cases hd
    exact .inr rfl

theorem row_open {m : Message} (h : m.status = .opened) : m.row = ⟨m.id,m.historyId,false⟩ := by
  simp [Message.row,settledMessage,h]

theorem map_row_modify {i : Nat} {m : Message} {f : Message → Message} (ho : OpenMessage event c i m)
    (hf : (f m).id = m.id ∧ (f m).historyId = m.historyId ∧ (f m).status = m.status) :
    (c.messages.modify i f).map Message.row = c.messages.map Message.row := by
  refine map_modify_same fun x hx => ?_
  rw [ho.at_index] at hx
  cases hx
  rw [row_open ho.2.2,row_open (hf.2.2.trans ho.2.2),hf.1,hf.2.1]

theorem Closed.row {m m' : Message} {visibility : Visibility} (h : Closed m m' visibility) :
    m'.row = ⟨m.id,m.historyId,decide (visibility ≠ .discarded)⟩ := by
  rw [Message.row,h.id,h.historyId,settledMessage,h.visibility]
  simp [h.status]

theorem Accepts.rows (h : Accepts c event c') : RowStep event c c' := by
  obtain ⟨d,c₀,hd,_,he,rfl⟩ := h.effect
  have hdisp := eventChecks_dispatch hd
  have hsame : d ≠ .other .messageCompleted ∧ d ≠ .other .messageInterrupted →
      c₀.messages.map Message.row = c.messages.map Message.row →
      RowStep event c (stamp event c₀) := by
    rintro ⟨h1,h2⟩ hm
    exact .same (fun hc => (hc.dispatch hdisp).elim h1 h2) (by rw [messages_stamp,hm])
  cases he with
  | messageStarted hs =>
    rename_i s
    refine .push (r := (newMessage event s).row) (fun hc => ?_) (allocate_next hs.allocated) ?_
    · rcases hc.dispatch hdisp with hd | hd <;> cases hd
    · rw [messages_stamp,messages_startMessage,List.map_append]
      rfl
  | noticeAppended hn hf ha =>
    rename_i id messageId allocated
    refine .push (r := (noticeMessage event messageId allocated).row) (fun hc => ?_)
      (allocate_next ha) ?_
    · rcases hc.dispatch hdisp with hd | hd <;> cases hd
    · rw [messages_stamp,← List.map_singleton,← List.map_append]
      rfl
  | messageCompleted ho hv hm =>
    refine .close ?_ ho hv hm.row (by rw [messages_stamp,messages_closeMessage]; rfl)
    exact .inl (dispatch_other hdisp)
  | messageInterrupted ho hv hm =>
    refine .close ?_ ho hv hm.row (by rw [messages_stamp,messages_closeMessage]; rfl)
    exact .inr (dispatch_other hdisp)
  | contentChunkAppended ho =>
    exact hsame (by simp) (map_row_modify ho ⟨rfl,rfl,rfl⟩)
  | toolExchangeStarted ho =>
    exact hsame (by simp) (map_row_modify ho ⟨rfl,rfl,rfl⟩)
  | @retryStarted retry message hl hr hm =>
    cases message with
    | none => exact hsame (by simp) rfl
    | some i =>
      obtain ⟨m,ho⟩ := hm i rfl
      exact hsame (by simp) (map_row_modify ho ⟨rfl,rfl,rfl⟩)
  | exchangeFinished _ hk => exact hsame (by rcases hk with rfl | rfl <;> simp) rfl
  | turnFinished _ hk => exact hsame (by rcases hk with rfl | rfl | rfl <;> simp) rfl
  | terminated _ hk => exact hsame (by rcases hk with rfl | rfl | rfl <;> simp) rfl
  | @noticeEvidence _ delivered _ _ _ _ hk =>
    exact hsame (by cases delivered <;> simp [hk]) rfl
  | @compactionSettled _ completed _ _ _ hk =>
    exact hsame (by cases completed <;> simp [hk]) rfl
  | _ => exact hsame (by simp) rfl

end Rows

section Tracking
variable {event : Fields} {c c' : Conversation} {path : HistoryPath} {cutoff : Nat}
  {handed : List String}

def Conversation.rows (c : Conversation) : List Row := c.messages.map Message.row

/-- The first `cutoff` ids of the branch are compared with those that were handed over, which
are ids of closed messages. -/
structure Tracked (path : HistoryPath) (cutoff : Nat) (handed : List String) (c : Conversation) :
    Prop where
  reachable : c.Reachable
  known : path = [] ∨ path ∈ c.tree.paths
  long : cutoff ≤ (branchIds path c.rows).length
  closed : ∀ id ∈ handed, ∃ m ∈ c.messages, m.id = id ∧ m.status ≠ .opened

theorem paths_mono (h : Accepts c event c') {p : List Nat} (hp : p ∈ c.tree.paths) :
    p ∈ c'.tree.paths := by
  obtain ⟨m,hm,rfl⟩ := List.mem_map.mp hp
  obtain ⟨i,hi⟩ := List.mem_iff_getElem?.mp hm
  obtain ⟨n,hn,_,hpath⟩ := (Extends.moves h.calls.moves).at_index hi
  exact List.mem_map.mpr ⟨n,List.mem_of_getElem? hn,hpath⟩

theorem closed_mono (h : Accepts c event c') {m : Message} (hm : m ∈ c.messages)
    (hs : m.status ≠ .opened) : m ∈ c'.messages := by
  obtain ⟨i,hi⟩ := List.mem_iff_getElem?.mp hm
  exact List.mem_of_getElem? ((Extends.moves h.calls.moves).closed i m hi hs)

/-- A new message never stands on a branch that ends at an older one. -/
theorem next_off_branch (hg : c.tree.Grown) (hk : path = [] ∨ path ∈ c.tree.paths) :
    ¬c.tree.next <+: path := by
  intro hp
  rcases hk with rfl | hk
  · have hl := hp.length_le
    simp [PathTree.next] at hl
  · obtain ⟨i,hi⟩ := List.mem_iff_getElem?.mp hk
    obtain ⟨j,_,hj⟩ := hg.mem_of_prefix hi (by simp [PathTree.next]) hp
    exact hg.next_not_mem (List.mem_of_getElem? hj)

/-- An accepted event leaves the first ids of the branch as they are, or it is a completion that
disturbs them for good. -/
theorem Tracked.step (h : Tracked path cutoff handed c) (ha : Accepts c event c') :
    Tracked path cutoff handed c' ∧
      ((branchIds path c'.rows).take cutoff = handed ↔
        (branchIds path c.rows).take cutoff = handed ∧ KeepsBranch path cutoff c event) := by
  have hkeep : cutoff ≤ (branchIds path c'.rows).length → Tracked path cutoff handed c' := by
    intro hl
    refine ⟨h.reachable.accepts ha,h.known.imp_right (paths_mono ha),hl,fun id hid => ?_⟩
    obtain ⟨m,hm,he,hs⟩ := h.closed id hid
    exact ⟨m,closed_mono ha hm hs,he,hs⟩
  have hsame : (branchIds path c'.rows) = branchIds path c.rows →
      KeepsBranch path cutoff c event → Tracked path cutoff handed c' ∧
      ((branchIds path c'.rows).take cutoff = handed ↔
        (branchIds path c.rows).take cutoff = handed ∧ KeepsBranch path cutoff c event) := by
    intro hb hu
    refine ⟨hkeep (hb ▸ h.long),?_⟩
    rw [hb]
    exact ⟨fun he => ⟨he,hu⟩,fun he => he.1⟩
  cases ha.rows with
  | same hc hr => exact hsame (by rw [Conversation.rows,hr]; rfl) fun hcl => absurd hcl hc
  | @push r hc hn hr =>
    refine hsame ?_ fun hcl => absurd hcl hc
    have hoff : Row.on path r = false := by
      rw [Row.on,hn,decide_eq_false (next_off_branch h.reachable.tree.1 h.known)]
      rfl
    rw [Conversation.rows,hr,branchIds,List.filter_append,List.filter_cons_of_neg (by simp [hoff])]
    simp [branchIds,Conversation.rows]
  | @close i m m' visibility hc ho hv hrow hr =>
    have hm := ho.at_index
    have hoff : Row.on path m.row = false := by simp [Row.on,row_open ho.2.2]
    have hrows : c'.rows = c.rows.modify i fun _ => m'.row := by
      rw [Conversation.rows,hr,Conversation.rows]
      apply List.ext_getElem?
      intro j
      by_cases hij : i = j
      · subst hij; simp [hm]
      · simp [hij]
    have hrow_at : c.rows[i]? = some m.row := by rw [Conversation.rows,List.getElem?_map,hm]; rfl
    by_cases hon : m.historyId <+: path ∧ visibility ≠ .discarded
    · -- the message joins the branch where it stands in the list
      have hin : Row.on path m'.row := by simp [Row.on,hrow,hon.1,hon.2]
      obtain ⟨hold,hnew⟩ := filter_replace hrow_at hoff hin
      have hfresh : m.id ∉ handed := by
        intro hid
        obtain ⟨n,hn,hne,hns⟩ := h.closed _ hid
        obtain ⟨j,hj⟩ := List.mem_iff_getElem?.mp hn
        cases h.reachable.filed.message_inj hj hm hne
        rw [hm] at hj
        cases hj
        exact hns ho.2.2
      have hlen : ((c.rows.take i).filter (Row.on path)).length =
          ((c.messages.take i).filter fun n => Row.on path n.row).length := by
        rw [Conversation.rows,← List.map_take,List.filter_map,List.length_map]
        rfl
      have hund : KeepsBranch path cutoff c event ↔
          cutoff ≤ (((c.rows.take i).filter (Row.on path)).map (·.id)).length := by
        rw [List.length_map,hlen]
        constructor
        · exact fun hu => hu hc i m visibility ho hv hon.2 hon.1
        · intro hle _ j n v ho' _ _ _
          obtain ⟨rfl,rfl⟩ := ho.unique event ho'
          exact hle
      have hid : m'.row.id = m.id := by rw [hrow]
      have hold' : branchIds path c.rows = ((c.rows.take i).filter (Row.on path)).map (·.id) ++
          ((c.rows.drop (i+1)).filter (Row.on path)).map (·.id) := by
        rw [branchIds,hold,List.map_append]
      have hnew' : branchIds path c'.rows = ((c.rows.take i).filter (Row.on path)).map (·.id) ++
          m.id :: ((c.rows.drop (i+1)).filter (Row.on path)).map (·.id) := by
        rw [branchIds,hrows,hnew,List.map_append,List.map_cons,hid]
      have hlong := h.long
      rw [hold'] at hlong
      refine ⟨hkeep ?_,?_⟩
      · rw [hnew']
        simp only [List.length_append,List.length_cons] at hlong ⊢
        omega
      · rw [hund,hold',hnew',take_insert_iff hfresh hlong]
    · refine hsame ?_ fun _ j n v ho' hv' hd hp => ?_
      · have hout : Row.on path m'.row = false := by
          simp only [Row.on,hrow,Bool.and_eq_false_iff,decide_eq_false_iff_not]
          tauto
        have hcol : (c.rows.modify i fun _ => m'.row).map (fun r => (r.id,Row.on path r)) =
            c.rows.map fun r => (r.id,Row.on path r) :=
          map_replace_same hrow_at (by rw [hout,hoff,hrow]; rfl)
        have hids : ∀ rows : List Row, branchIds path rows =
            ((rows.map fun r => (r.id,Row.on path r)).filter (·.2)).map (·.1) := by
          intro rows
          rw [branchIds,List.filter_map,List.map_map]
          rfl
        rw [hrows,hids,hcol,← hids]
      · obtain ⟨rfl,rfl⟩ := ho.unique event ho'
        exact absurd ⟨hp,hv'.unique event hv ▸ hd⟩ hon

theorem Accepts.unique {c'' : Conversation} (h : Accepts c event c') (h' : Accepts c event c'') :
    c' = c'' := by
  obtain ⟨e,h⟩ := h
  obtain ⟨e',h'⟩ := h'
  rw [h] at h'
  cases h'
  rfl

/-- Over a run the first ids of the branch stay exactly when no step disturbs them. -/
theorem Tracked.run {events : List Fields} (h : Tracked path cutoff handed c)
    (hr : Trace Accepts c events c') :
    Tracked path cutoff handed c' ∧ ((branchIds path c'.rows).take cutoff = handed ↔
      (branchIds path c.rows).take cutoff = handed ∧
        Trace (fun c event c' => Accepts c event c' ∧ KeepsBranch path cutoff c event)
          c events c') := by
  induction hr with
  | nil c => exact ⟨h,fun he => ⟨he,.nil c⟩,fun he => he.1⟩
  | @cons c c₁ c' event events ha _ ih =>
    obtain ⟨h₁,hstep⟩ := h.step ha
    obtain ⟨h',hrun⟩ := ih h₁
    refine ⟨h',?_⟩
    rw [hrun,hstep]
    constructor
    · rintro ⟨⟨he,hu⟩,hr⟩
      exact ⟨he,.cons ⟨ha,hu⟩ hr⟩
    · rintro ⟨he,hr⟩
      cases hr with
      | cons hs hr =>
        cases ha.unique hs.1
        exact ⟨⟨he,hs.2⟩,hr⟩

end Tracking

section Request
variable {encode : LuaValue → Option String} {event : Fields} {c c' : Conversation}

theorem cutoffCount_eq {v : LuaValue} {limit n : Nat} (h : cutoffCount v limit = some n) :
    loopLimit v = n ∧ n ≤ limit ∧ v.isNil = false := by
  cases v with
  | num k =>
    simp only [cutoffCount,Option.bind_eq_bind,Option.bind_eq_some_iff] at h
    obtain ⟨q,hq,h⟩ := h
    split at h
    · rename_i hi
      cases h
      simp only [Bool.and_eq_true,decide_eq_true_eq] at hi
      obtain ⟨hint,h0,hl⟩ := hi
      have hden : q.den = 1 := by
        cases k with
        | int i => cases hq; rfl
        | float r => cases hq; simpa [LuaNum.integral] using hint
        | _ => cases hq
      have hnum : (q.num : ℚ) = q := Rat.den_eq_one_iff q |>.mp hden
      have hle : q.num ≤ limit := by
        have : (q.num : ℚ) ≤ (limit : Int) := by rw [hnum]; exact_mod_cast hl
        exact_mod_cast this
      refine ⟨?_,by omega,rfl⟩
      rw [loopLimit,hq]
      change q.floor.toNat = _
      rw [← hnum,Rat.floor_intCast,hnum]
    · cases h
  | _ => cases h

/-- An accepted request lists its operation and changes nothing else. -/
theorem Accepts.request (h : Accepts c event c')
    (hk : event.get "kind" = .str "context_compaction_requested") :
    ∃ op cutoff, Requestable event c op cutoff ∧ c'.compactions = c.compactions ++ [op] ∧
      c'.messages = c.messages ∧ c'.head = c.head := by
  obtain ⟨d,c₀,hd,_,he,rfl⟩ := h.effect
  have hdisp := eventChecks_dispatch hd
  rw [hk] at hdisp
  cases hdisp
  cases he with
  | @compactionRequested op cutoff hr =>
    refine ⟨op,cutoff,hr,?_,messages_stamp,congrArg PathTree.head tree_stamp⟩
    unfold stamp
    split <;> rfl
  | exchangeFinished _ hk => rcases hk with hk | hk <;> cases hk
  | turnFinished _ hk => rcases hk with hk | hk | hk <;> cases hk
  | terminated _ hk => rcases hk with hk | hk | hk <;> cases hk
  | @noticeEvidence _ delivered _ _ _ _ hk => cases delivered <;> cases hk
  | @compactionSettled _ completed _ _ _ hk => cases completed <;> cases hk

/-- What an operation is bound to stays as it was requested. -/
def Compaction.binding (op : Compaction) : String × HistoryPath × LuaValue :=
  (op.requestId,op.historyId,op.historyCutoff)

theorem Moves.bindings (h : Moves event c c') :
    c.compactions.map Compaction.binding <+: c'.compactions.map Compaction.binding := by
  have hsame : ∀ {c' : Conversation}, c'.compactions = c.compactions →
      c.compactions.map Compaction.binding <+: c'.compactions.map Compaction.binding := by
    intro c' hc
    rw [hc]
  have hclose : ∀ (c : Conversation) (m : Message), (closeMessage m c).compactions = c.compactions := by
    intro c m
    unfold closeMessage
    simp only
    split
    · split <;> rfl
    · rfl
  cases h with
  | refused hr =>
    rcases hr with rfl | ht
    · exact hsame rfl
    · cases ht with
      | started hs => exact hsame rfl
      | narrowed ho hv => exact hsame rfl
      | closed ho hv hm => exact hsame (hclose _ _)
  | @accepted d c₀ hd hc he =>
    have hstamp : (stamp event c₀).compactions = c₀.compactions := by
      unfold stamp
      split <;> rfl
    rw [hstamp]
    cases he with
    | compactionRequested hr =>
      rw [List.map_append]
      exact List.prefix_append _ _
    | compactionSettled _ hf _ _ _ hs =>
      obtain ⟨_,_,_,hi⟩ := Conversation.findCompaction_eq_some hf
      change _ <+: (c.compactions.modify _ _).map _
      rw [map_replace_same hi (by simp [Compaction.binding,hs.requestId,hs.historyId,hs.historyCutoff])]
    | messageCompleted _ _ _ => exact hsame (hclose _ _)
    | messageInterrupted _ _ _ => exact hsame (hclose _ _)
    | messageStarted _ =>
      refine hsame ?_
      unfold startMessage
      simp only
      split <;> split <;> rfl
    | @retryStarted _ message _ _ _ =>
      cases message <;> exact hsame rfl
    | _ => exact hsame rfl

/-- The operation that a later context selects by the id of the request is the one requested. -/
theorem selected_binding {events : List Fields} {options : ContextOptions} {op op' : Compaction}
    (hc : c'.Reachable) (hrun : Trace Accepts c events c') (hop : op ∈ c.compactions)
    (hs : selectedCompaction c' options = some op') (hid : op'.requestId = op.requestId) :
    op'.historyId = op.historyId ∧ op'.historyCutoff = op.historyCutoff ∧ c'.onHead op'.historyId := by
  have hb : c.compactions.map Compaction.binding <+: c'.compactions.map Compaction.binding :=
    hrun.relates (R := fun c c' => c.compactions.map Compaction.binding <+:
      c'.compactions.map Compaction.binding) (fun _ => List.prefix_refl _)
      (fun _ _ _ => List.IsPrefix.trans) fun _ _ _ h => h.calls.moves.bindings
  have hmem : op' ∈ c'.compactions := by
    have := List.mem_of_find?_eq_some hs
    simpa using this
  have hp := List.find?_some hs
  simp only [Bool.and_eq_true] at hp
  obtain ⟨i,hi⟩ := List.mem_iff_getElem?.mp hop
  obtain ⟨j,hj⟩ := List.mem_iff_getElem?.mp hmem
  have hbi : (c'.compactions.map Compaction.binding)[i]? = some op.binding :=
    getElem?_prefix_mono hb (by rw [List.getElem?_map,hi]; rfl)
  rw [List.getElem?_map,Option.map_eq_some_iff] at hbi
  obtain ⟨x,hx,hxb⟩ := hbi
  have hij : i = j := by
    refine hc.filed.compactions.inj (k := op'.requestId) ?_ ?_
    · rw [List.getElem?_map,hx,Option.map_some]
      exact congrArg some ((congrArg Prod.fst hxb).trans hid.symm)
    · rw [List.getElem?_map,hj,Option.map_some]
  subst hij
  rw [hj] at hx
  cases hx
  exact ⟨congrArg (·.2.1) hxb,congrArg (·.2.2) hxb,hp.1.1.2⟩

theorem prefixMessages_ids (hs : SoundPaths c) :
    (prefixMessages c).map (·.id) = branchIds c.head c.rows := by
  rw [prefixMessages_eq hs,branchIds,Conversation.rows,List.filter_map,List.map_map]
  rfl

/-- On the way to the head the messages of a shorter branch come first. -/
theorem branchIds_prefix (hr : c.Reachable) {path : HistoryPath} (hp : path <+: c.head) :
    branchIds path c.rows <+: branchIds c.head c.rows := by
  refine List.IsPrefix.map _ (filter_prefix_filter ?_ ?_)
  · intro r _ hon
    simp only [Row.on,Bool.and_eq_true,decide_eq_true_eq] at hon ⊢
    exact ⟨hon.1.trans hp,hon.2⟩
  · rw [List.pairwise_iff_getElem]
    intro i j hi hj hij hqi hpj
    simp only [Row.on,Bool.and_eq_true,decide_eq_true_eq] at hqi hpj ⊢
    refine ⟨?_,hqi.2⟩
    rcases List.prefix_or_prefix_of_prefix hqi.1 hp with h | h
    · exact h
    · have hat : ∀ k (hk : k < c.rows.length), c.tree.paths[k]? = some c.rows[k].path := by
        intro k hk
        simp only [Conversation.rows,List.length_map] at hk
        simp [Conversation.tree,Conversation.rows,hk,Message.row]
      obtain ⟨q,n,he,_⟩ := hr.tree.1.below j _ (hat j hj)
      by_cases hsame : c.rows[j].path = c.rows[i].path
      · rw [← hsame]
        exact hpj.1
      · have hlt := hr.tree.1.ordered (hat j hj) (hat i hi) (by simp [he]) (hpj.1.trans h) hsame
        omega

end Request

/-- The messages that were handed over are the first of the context, up to the cutoff of the
operation that it selects, and with those that are left they are the whole context. -/
structure Covers (handed view : LuaValue) : Prop where
  same : (viewIds view).take (loopLimit ((view.get "compaction").get "history_cutoff")) =
    viewIds handed
  whole : viewIds handed ++ tailIds view = viewIds view
  once : (viewIds view).Nodup

section Covers
variable {encode : LuaValue → Option String} {c : Conversation} {view : LuaValue}
  {options : ContextOptions}

theorem contextView_compaction (h : contextView encode c options = .ok view) :
    view.get "compaction" = optionLua (publicCompaction true) (selectedCompaction c options) := by
  simp only [contextView] at h
  obtain ⟨usage,_,h⟩ := bind_eq_ok.mp h
  cases h
  simp [LuaValue.get_record_cons,LuaValue.get_record_nil,LuaValue.ite_isNil]

theorem contextView_tail (h : contextView encode c options = .ok view) :
    tailIds view = (viewIds view).drop (contextCutoff c options) := by
  rw [contextView_ids h]
  simp only [contextView] at h
  obtain ⟨usage,_,h⟩ := bind_eq_ok.mp h
  cases h
  rw [tailIds,LuaValue.get_record_cons,if_neg (by simp),LuaValue.get_record_cons,if_pos ⟨rfl,rfl⟩,
    ← List.map_drop,sequence_array,List.map_map,← List.map_drop]
  · exact List.map_congr_left fun m _ => projectedMessage_id m true
  · intro v hv
    obtain ⟨m,_,rfl⟩ := List.mem_map.mp hv
    rfl

theorem publicCompaction_get (includeCheckpoint : Bool) (op : Compaction) :
    (publicCompaction includeCheckpoint op).get "request_id" = .str op.requestId ∧
      (publicCompaction includeCheckpoint op).get "history_cutoff" = op.historyCutoff := by
  constructor
  · simp [publicCompaction,LuaValue.get_record_cons,LuaValue.isNil]
  · simp [publicCompaction,LuaValue.get_record_cons,LuaValue.get_record_nil,LuaValue.ite_isNil]

/-- A context selects the operation of a request when it shows the id of the request. -/
theorem selected_of_request_id {id : String} (h : contextView encode c options = .ok view)
    (hid : (view.get "compaction").get "request_id" = .str id) :
    ∃ op, selectedCompaction c options = some op ∧ op.requestId = id ∧
      (view.get "compaction").get "history_cutoff" = op.historyCutoff ∧
      contextCutoff c options = loopLimit op.historyCutoff := by
  rw [contextView_compaction h] at hid ⊢
  rw [contextCutoff]
  cases hs : selectedCompaction c options with
  | none =>
    rw [hs] at hid
    cases hid
  | some op =>
    rw [hs] at hid
    simp only [optionLua] at hid ⊢
    rw [(publicCompaction_get true op).1] at hid
    exact ⟨op,rfl,LuaValue.str.inj hid,(publicCompaction_get true op).2,rfl⟩

/-- The context that the change of a request carries. -/
theorem requestChange_ids {event : Fields} {ch : LuaValue} {op : Compaction}
    (hk : event.get "kind" = .str "context_compaction_requested")
    (hf : ∃ i, c.findCompaction (event.get "request_id") = some (i,op))
    (h : change encode c event = .ok ch) :
    viewIds (ch.get "context") = (contextAll c (requestOptions op)).map fun m => .str m.id := by
  obtain ⟨i,hf⟩ := hf
  have hd : dispatch (event.get "kind") = some (.other .contextCompactionRequested) := by rw [hk]; rfl
  simp only [change,hd,kindChange,requestChange,hf,present,ok_bind] at h
  obtain ⟨context,hc,h⟩ := bind_eq_ok.mp h
  cases h
  rw [← contextView_ids hc]
  simp only [viewIds,ChangeHead.change,List.cons_append,List.nil_append,LuaValue.get_record_cons]
  simp only [LuaValue.isNil,publicCompaction,LuaValue.record]
  congr 2
  change Fields.get (Fields.unset (Fields.set context.fields _ _) _) "messages" = _
  rw [Fields.get_unset_of_ne _ (by decide),Fields.get_set_of_ne _ _ (by decide)]
  cases context <;> rfl

end Covers

/-- A checkpoint covers the context that selects it exactly when no completion since the request
brought a message before its cutoff. -/
theorem compaction_covers (encode : LuaValue → Option String) {c₀ c₁ c₂ : Conversation}
    {request : Fields} {events : List Fields} (h₀ : c₀.Reachable) (hr : Accepts c₀ request c₁)
    (hk : request.get "kind" = .str "context_compaction_requested")
    (hrun : Trace Accepts c₁ events c₂) {ch : LuaValue} (hch : change encode c₁ request = .ok ch)
    {provider model view : LuaValue}
    (hv : contextView encode c₂ ⟨provider,model,.nil⟩ = .ok view)
    (hs : (view.get "compaction").get "request_id" = request.get "request_id") :
    Covers (ch.get "context") view ↔
      Trace (fun c event c' => Accepts c event c' ∧
        KeepsBranch c₁.head (loopLimit (request.get "history_cutoff")) c event) c₁ events c₂ := by
  obtain ⟨op,n,hreq,hops,hmsgs,hhead⟩ := hr.request hk
  obtain ⟨hn,hlen,hnil⟩ := cutoffCount_eq hreq.cutoff
  rw [← hreq.historyCutoff,hn]
  have h₁ : c₁.Reachable := h₀.accepts hr
  have h₂ : c₂.Reachable := h₁.run (hrun.mono fun _ _ _ h => h.calls)
  have hpre : prefixMessages c₁ = prefixMessages c₀ := by
    rw [prefixMessages_eq h₁.tree.2,prefixMessages_eq h₀.tree.2,hmsgs,hhead]
  -- what was handed over
  let handed := (branchIds c₁.head c₁.rows).take n
  have hfound : ∃ i, c₁.findCompaction (request.get "request_id") = some (i,op) := by
    have hid := (asId_eq_some hreq.requestId).1
    have hat : c₁.compactions[c₀.compactions.length]? = some op := by rw [hops]; simp
    have hlook := (h₁.filed.compactions op.requestId c₀.compactions.length).mpr
      (by rw [List.getElem?_map,hat]; rfl)
    refine ⟨c₀.compactions.length,?_⟩
    rw [hid]
    simp [Conversation.findCompaction,at?,hlook,hat]
  have hhanded : viewIds (ch.get "context") = handed.map .str := by
    rw [requestChange_ids hk hfound hch,contextAll,if_neg (by simp [requestOptions,hnil]),
      requestOptions,hn]
    simp only [handed]
    rw [← prefixMessages_ids h₁.tree.2,← List.map_take,List.map_map]
    rfl
  have hhl : handed.length = n := by
    simp only [handed]
    rw [List.length_take,← prefixMessages_ids h₁.tree.2,List.length_map,hpre]
    omega
  -- the first ids of its branch over the run
  have htracked : Tracked c₁.head n handed c₁ := by
    refine ⟨h₁,h₁.tree.1.head,?_,fun id hid => ?_⟩
    · rw [← prefixMessages_ids h₁.tree.2,List.length_map,hpre]
      exact hlen
    · have hid := List.mem_of_mem_take hid
      rw [← prefixMessages_ids h₁.tree.2] at hid
      obtain ⟨m,hm,rfl⟩ := List.mem_map.mp hid
      rw [prefixMessages_eq h₁.tree.2] at hm
      obtain ⟨hm,hc⟩ := List.mem_filter.mp hm
      simp only [settledMessage,Bool.and_eq_true,decide_eq_true_eq] at hc
      exact ⟨m,hm,rfl,hc.2.1⟩
  obtain ⟨htracked₂,hiff⟩ := htracked.run hrun
  -- the context that selects the operation
  rw [(asId_eq_some hreq.requestId).1] at hs
  obtain ⟨op',hsel,hid,hcut,hdrop⟩ := selected_of_request_id hv hs
  obtain ⟨hpath,hcutoff,hon⟩ := selected_binding h₂ hrun (by rw [hops]; simp) hsel hid
  rw [hpath,hreq.historyId,← hhead] at hon
  have hbranch := branchIds_prefix h₂ ((onHead_iff h₁.tree.2.head h₂.tree.2.head).mp hon)
  have hids : viewIds view = (branchIds c₂.head c₂.rows).map .str := by
    rw [contextView_ids hv,← prefixMessages_ids h₂.tree.2,List.map_map]
    rfl
  have htake : (viewIds view).take n = ((branchIds c₁.head c₂.rows).take n).map .str := by
    obtain ⟨rest,hrest⟩ := hbranch
    rw [hids,← List.map_take,← hrest,List.take_append_of_le_length htracked₂.long]
  have hnodup : (viewIds view).Nodup := by
    rw [hids]
    refine List.Nodup.map (fun a b h => LuaValue.str.inj h) ?_
    rw [← prefixMessages_ids h₂.tree.2,prefixMessages_eq h₂.tree.2]
    exact (h₂.filed.messages.nodup.sublist (List.filter_sublist.map _))
  have hsame : (viewIds view).take n = viewIds (ch.get "context") ↔
      (branchIds c₁.head c₂.rows).take n = handed := by
    rw [htake,hhanded,List.map_inj_right fun a b h => LuaValue.str.inj h]
  rw [hcutoff,hn] at hdrop
  constructor
  · intro hc
    have hcs := hc.same
    rw [hcut,hcutoff,hn] at hcs
    exact (hiff.mp (hsame.mp hcs)).2
  · intro hu
    have hcs := hsame.mpr (hiff.mpr ⟨rfl,hu⟩)
    refine ⟨by rw [hcut,hcutoff,hn]; exact hcs,?_,hnodup⟩
    rw [← hcs,contextView_tail hv,hdrop,List.take_append_drop]

def answerEvent (kind id : String) (sequence : Int) : Fields :=
  (LuaValue.record [("event_id",.str (kind ++ id)),("conversation_id",.str "c"),("kind",.str kind),
    ("sequence",.num (.int sequence)),("message_id",.str id),("role",.str "assistant")]).fields

def summaryRequest : Fields := (LuaValue.record [("event_id",.str "request"),
  ("conversation_id",.str "c"),("kind",.str "context_compaction_requested"),
  ("sequence",.num (.int 7)),("request_id",.str "r"),("provider",.str "p"),("model",.str "m"),
  ("epoch_id",.str "e1"),("history_id",HistoryPath.toLua [1,1,1]),
  ("context_watermark",.num (.int 6)),("trigger",.str "manual"),
  ("history_cutoff",.num (.int 2))]).fields

def summaryCompleted : Fields := (LuaValue.record [("event_id",.str "completed"),
  ("conversation_id",.str "c"),("kind",.str "context_compaction_completed"),
  ("sequence",.num (.int 8)),("request_id",.str "r"),("provider",.str "p"),("model",.str "m"),
  ("epoch_id",.str "e1"),("history_id",HistoryPath.toLua [1,1,1]),
  ("checkpoint",.record [("provider",.str "p"),("model",.str "m"),("format",.str "text"),
    ("artifact",.str "summary")]),
  ("compatibility",.record [("provider",.str "p"),("model",.str "m"),("format",.str "text")])]).fields

/-- Three answers were started, and the second is still open when the others are closed. -/
def draftedConversation : Conversation :=
  ((((createdConversation.next (answerEvent "message_started" "a" 2)).next
    (answerEvent "message_completed" "a" 3)).next
    (answerEvent "message_started" "b" 4)).next
    (answerEvent "message_started" "d" 5)).next
    (answerEvent "message_completed" "d" 6)

def requestedConversation : Conversation := draftedConversation.next summaryRequest

def summarizedConversation : Conversation := requestedConversation.next summaryCompleted

def disturbedConversation : Conversation :=
  summarizedConversation.next (answerEvent "message_completed" "b" 9)

theorem draftedConversation_reachable : draftedConversation.Reachable :=
  ((((creates_createdConversation.reachable.next _).next _).next _).next _).next _

def summaryChange : LuaValue :=
  (change (fun _ => none) requestedConversation summaryRequest).toOption.getD .nil

def contextOf (c : Conversation) : LuaValue :=
  (contextView (fun _ => none) c {}).toOption.getD .nil

theorem summaryChange_ok :
    change (fun _ => none) requestedConversation summaryRequest = .ok summaryChange :=
  eq_ok_of_isOk (by decide)

theorem compaction_covers_summarized :
    Covers (summaryChange.get "context") (contextOf summarizedConversation) ↔
      Trace (fun c event c' => Accepts c event c' ∧ KeepsBranch requestedConversation.head
        (loopLimit (summaryRequest.get "history_cutoff")) c event)
        requestedConversation [summaryCompleted] summarizedConversation :=
  compaction_covers (fun _ => none) draftedConversation_reachable (accepts_next (by decide)) rfl
    (.single (accepts_next (by decide))) summaryChange_ok (eq_ok_of_isOk (by decide)) rfl

/-- An answer that was open when the summary was requested and is completed afterwards stands
between the two that were summarized. -/
theorem compaction_covers_fails : ¬∀ (c₀ c₁ c₂ : Conversation) (request : Fields)
    (events : List Fields), c₀.Reachable → Accepts c₀ request c₁ →
    request.get "kind" = .str "context_compaction_requested" → Trace Accepts c₁ events c₂ →
    ∀ ch, change (fun _ => none) c₁ request = .ok ch →
    ∀ provider model view, contextView (fun _ => none) c₂ ⟨provider,model,.nil⟩ = .ok view →
    (view.get "compaction").get "request_id" = request.get "request_id" →
    Covers (ch.get "context") view := by
  intro h
  have hc := h draftedConversation requestedConversation disturbedConversation summaryRequest
    [summaryCompleted,answerEvent "message_completed" "b" 9] draftedConversation_reachable
    (accepts_next (by decide)) rfl
    (.cons (accepts_next (by decide)) (.single (accepts_next (by decide)))) summaryChange
    summaryChange_ok .nil .nil (contextOf disturbedConversation) (eq_ok_of_isOk (by decide)) rfl
  have hids := congrArg (List.map asId) hc.same
  revert hids
  decide

end Nefor.ConversationManager
