import Nefor.Indexed
import Nefor.PathTree
import Nefor.ConversationManager.Paths
import Nefor.ConversationManager.Effects

/-! The history of a conversation is a tree of paths: every call of the fold is a step of it. -/
namespace Nefor.ConversationManager
open Nefor.Lua Nefor.Action

/-- The messages by their paths, in the order they were started. -/
def Conversation.tree (c : Conversation) : PathTree where
  paths := c.messages.map (·.historyId)
  head := c.head
  count := fun p => (c.historyChildMax.lookup (HistoryPath.keyOf p)).getD 0

/-- The components of every path are child numbers. -/
structure SoundPaths (c : Conversation) : Prop where
  head : c.head.Sound
  messages : ∀ m ∈ c.messages, m.historyId.Sound

section Tree
variable {event : Fields} {c c' : Conversation}

theorem OpenMessage.at_index {i : Nat} {m : Message} (h : OpenMessage event c i m) :
    c.messages[i]? = some m := by
  obtain ⟨_,_,_,hm⟩ := Conversation.findMessage_eq_some h.2.1
  exact hm

theorem Conversation.findHistory_eq_some {v : LuaValue} {r : Nat × Message}
    (h : c.findHistory v = some r) : c.messages[r.1]? = some r.2 := by
  simp only [findHistory,Option.bind_eq_bind,Option.bind_eq_some_iff] at h
  obtain ⟨key,hk,i,hi,m,hm,h⟩ := h
  cases h
  exact hm

theorem tree_modify {i : Nat} {f : Message → Message}
    (hf : ∀ m, c.messages[i]? = some m → (f m).historyId = m.historyId) :
    (c.modifyMessage i f).tree = c.tree := by
  have h : (c.messages.modify i f).map (·.historyId) = c.messages.map (·.historyId) :=
    map_modify_same hf
  exact PathTree.ext h rfl rfl

theorem soundPaths_iff : SoundPaths c ↔
    HistoryPath.Sound c.tree.head ∧ ∀ p ∈ c.tree.paths, HistoryPath.Sound p := by
  constructor
  · rintro ⟨hh,hm⟩
    refine ⟨hh,fun p hp => ?_⟩
    obtain ⟨m,hmem,rfl⟩ := List.mem_map.mp hp
    exact hm m hmem
  · rintro ⟨hh,hp⟩
    exact ⟨hh,fun m hm => hp _ (List.mem_map_of_mem hm)⟩

theorem SoundPaths.same (h : SoundPaths c) (ht : c'.tree = c.tree) : SoundPaths c' := by
  rw [soundPaths_iff] at h ⊢
  rwa [ht]

theorem tree_closeMessage (m : Message) : (closeMessage m c).tree = c.tree := by
  unfold closeMessage
  simp only
  split
  · split <;> rfl
  · rfl

theorem messages_closeMessage (m : Message) : (closeMessage m c).messages = c.messages := by
  unfold closeMessage
  simp only
  split
  · split <;> rfl
  · rfl

theorem head_closeMessage (m : Message) : (closeMessage m c).head = c.head :=
  congrArg PathTree.head (tree_closeMessage m)

theorem allocate_next {p : HistoryPath} (h : HistoryPath.allocate c.head c.historyChildMax = .ok p) :
    p = c.tree.next := HistoryPath.allocate_ok h

theorem tree_takeChild {p : HistoryPath}
    (h : HistoryPath.allocate c.head c.historyChildMax = .ok p) :
    (takeChild p c).tree = { c.tree with count := c.tree.taken } := by
  refine PathTree.ext rfl rfl (funext fun q => ?_)
  change ((assign _ _ _).lookup _).getD 0 =
    Function.update c.tree.count c.head (c.tree.count c.head+1) q
  rw [lookup_assign,HistoryPath.allocate_lastComponent h]
  by_cases hq : q = c.head
  · subst hq
    rw [if_pos rfl,Function.update_self]
    rfl
  · have hk : HistoryPath.keyOf q ≠ HistoryPath.keyOf c.head :=
      fun h => hq (HistoryPath.keyOf_injective h)
    rw [if_neg hk,Function.update_of_ne hq]
    rfl

/-- Appending a message below the head grows the tree. -/
theorem tree_push {m : Message} {p : HistoryPath}
    (h : HistoryPath.allocate c.head c.historyChildMax = .ok p) (hm : m.historyId = p) :
    ((takeChild p c).pushMessage m).tree =
      ⟨c.tree.paths ++ [c.tree.next],c.tree.next,c.tree.taken⟩ := by
  have hp := allocate_next h
  have hc : (takeChild p c).tree.count = c.tree.taken := by rw [tree_takeChild h]
  refine PathTree.ext ?_ (hm.trans hp) hc
  change (c.messages ++ [m]).map (·.historyId) = _
  rw [List.map_append,List.map_singleton,hm,hp]
  rfl

theorem SoundPaths.push (h : SoundPaths c) {m : Message} {p : HistoryPath}
    (ha : HistoryPath.allocate c.head c.historyChildMax = .ok p) (hm : m.historyId = p) :
    SoundPaths ((takeChild p c).pushMessage m) := by
  have hp : m.historyId.Sound := hm ▸ (HistoryPath.allocate_sound ha).2
  refine ⟨hp,fun x hx => ?_⟩
  rcases List.mem_append.mp hx with hx | hx
  · exact h.messages x hx
  · exact List.mem_singleton.mp hx ▸ hp

theorem tree_recordNotice (id : String) (p : HistoryPath) :
    (recordNotice event id p c).tree = c.tree := rfl

theorem tree_startMessage (s : Start) :
    (startMessage event s c).tree = (c.pushMessage (newMessage event s)).tree := by
  unfold startMessage
  simp only
  split <;> split <;> rfl

theorem messages_startMessage (s : Start) :
    (startMessage event s c).messages = c.messages ++ [newMessage event s] := by
  unfold startMessage
  simp only
  split <;> split <;> rfl

/-- An accepted event takes the tree one step. -/
theorem Effect.tree {d : Dispatch} (hs : SoundPaths c) (h : Effect event c d c') :
    PathTree.Step c.tree c'.tree ∧ SoundPaths c' := by
  have hstay : ∀ {c' : Conversation}, c'.tree = c.tree →
      PathTree.Step c.tree c'.tree ∧ SoundPaths c' := fun ht => ⟨ht ▸ .stay _,hs.same ht⟩
  cases h with
  | messageStarted hstart =>
    rename_i s
    have hs' := hs.push hstart.allocated (m := newMessage event s) rfl
    rw [tree_startMessage,tree_push hstart.allocated rfl]
    exact ⟨.grow _,hs'.same (tree_startMessage s)⟩
  | noticeAppended hn hf ha =>
    rename_i id messageId allocated
    have hs' := hs.push ha (m := noticeMessage event messageId allocated) rfl
    rw [tree_recordNotice,tree_push ha rfl]
    exact ⟨.grow _,hs'.same (tree_recordNotice id allocated)⟩
  | rewindCommitted hr =>
    have hm := List.mem_of_getElem? (Conversation.findHistory_eq_some hr.found)
    have hp := (onHead_iff (hs.messages _ hm) hs.head).mp hr.onHead
    refine ⟨.back (List.mem_map_of_mem hm) hp,?_,hs.messages⟩
    exact hs.head.of_initial ((List.dropLast_prefix _).trans hp)
  | contentChunkAppended ho => exact hstay (tree_modify fun _ _ => rfl)
  | toolExchangeStarted ho => exact hstay (tree_modify fun _ _ => rfl)
  | @retryStarted retry message hl hf =>
    cases message with
    | none => exact hstay rfl
    | some i => exact hstay (tree_modify fun _ _ => rfl)
  | messageCompleted ho hv hm =>
    refine hstay ((tree_closeMessage _).trans (tree_modify fun m h => ?_))
    rw [ho.at_index] at h
    cases h
    exact hm.historyId
  | messageInterrupted ho hv hm =>
    refine hstay ((tree_closeMessage _).trans (tree_modify fun m h => ?_))
    rw [ho.at_index] at h
    cases h
    exact hm.historyId
  | _ => exact hstay rfl

theorem tree_stamp : (stamp event c).tree = c.tree := by
  unfold stamp
  split <;> rfl

/-- A call of the fold takes the tree one step, also when it refuses its event. -/
theorem Moves.tree (hs : SoundPaths c) (h : Moves event c c') :
    PathTree.Step c.tree c'.tree ∧ SoundPaths c' := by
  have hstay : ∀ {c' : Conversation}, c'.tree = c.tree →
      PathTree.Step c.tree c'.tree ∧ SoundPaths c' := fun ht => ⟨ht ▸ .stay _,hs.same ht⟩
  cases h with
  | accepted hd hc he =>
    rw [tree_stamp]
    exact ⟨(he.tree hs).1,(he.tree hs).2.same tree_stamp⟩
  | refused hr =>
    rcases hr with rfl | ht
    · exact hstay rfl
    · cases ht with
      | started hstart =>
        rw [tree_takeChild hstart.allocated]
        exact ⟨.skip _,hs.head,hs.messages⟩
      | narrowed ho hv =>
        refine hstay (tree_modify fun m h => ?_)
        rw [ho.at_index] at h
        cases h
        rfl
      | closed ho hv hm =>
        refine hstay ((tree_closeMessage _).trans (tree_modify fun m h => ?_))
        rw [ho.at_index] at h
        cases h
        exact hm.historyId

theorem Creates.tree (h : Creates event c) : c.tree = ⟨[],[],fun _ => 0⟩ ∧ SoundPaths c := by
  obtain ⟨n,_,_,_,rfl⟩ := h.eq
  exact ⟨rfl,HistoryPath.sound_nil,fun m hm => nomatch hm⟩

/-- The history of every reachable conversation is a grown tree of sound paths. -/
theorem Conversation.Reachable.tree (h : c.Reachable) : c.tree.Grown ∧ SoundPaths c := by
  refine h.preserves (P := fun c => c.tree.Grown ∧ SoundPaths c) ?_ ?_
  · intro event c hc
    rw [hc.tree.1]
    exact ⟨PathTree.grown_root,hc.tree.2⟩
  · rintro event c c' _ ⟨hg,hs⟩ hm
    obtain ⟨hstep,hs'⟩ := hm.tree hs
    exact ⟨hg.step hstep,hs'⟩

end Tree
end Nefor.ConversationManager
