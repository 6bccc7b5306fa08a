import Mathlib.Data.List.Pairwise
import Mathlib.Data.List.Perm.Lattice
import Std.Data.String.ToNat
import Nefor.Chat.QueuedInput

/-! What the operations on queued input do to the rows of the transcript: no two rows share a
submission or a local id, and the rows that the state names as queued and as pending are there. -/
namespace Nefor.Chat

namespace Entry

/-- The row was put up for input and is not bound to a message. -/
def InFlight (entry : Entry) : Prop :=
  entry.role = some .user ∧ entry.localId.isSome ∧ entry.messageId = none

theorem InFlight.localId_ne {entry : Entry} (h : entry.InFlight) : entry.localId ≠ none := by
  intro hnone
  have hsome := h.2.1
  rw [hnone] at hsome
  cases hsome

/-- What holds of a row by itself, after `count` local ids. -/
structure Good (count : Nat) (entry : Entry) : Prop where
  localId : ∀ n, count < n → entry.localId ≠ some (nextLocalId n)
  role : entry.ids ≠ [] → entry.role = some .user
  ids : entry.InFlight → entry.ids ≠ []
  nodup : entry.ids.Nodup

def Apart (a b : Entry) : Prop :=
  (∀ id, a.localId = some id → b.localId ≠ some id) ∧ ∀ id ∈ a.ids, id ∉ b.ids

variable {a b : Entry} {count more : Nat}

theorem Apart.symm (h : Apart a b) : Apart b a := by
  constructor
  · intro id hb ha
    exact h.1 id ha hb
  · intro id hb ha
    exact h.2 id ha hb

theorem Good.mono (h : Good count a) (hcount : count ≤ more) : Good more a := by
  constructor
  · intro n hn
    exact h.localId n (by omega)
  · exact h.role
  · exact h.ids
  · exact h.nodup

@[simp] theorem ids_user (text : String) (id : String) : (user count text (some id)).ids = [id] := rfl

@[simp] theorem ids_bindCanonical (messageId turnId : Option String) :
    (a.bindCanonical messageId turnId).ids = a.ids := rfl

theorem nextLocalId_injective {m n : Nat} (h : nextLocalId m = nextLocalId n) : m = n := by
  have hrepr : toString m = toString n := (String.append_right_inj "chat-local-entry-").mp h
  exact Nat.repr_injective hrepr

theorem good_user (text : String) (id : Option String) : Good count (user count text id) := by
  constructor
  · intro n hn h
    have heq := nextLocalId_injective (Option.some.inj h)
    omega
  · intro _
    rfl
  · intro _
    exact List.cons_ne_nil _ _
  · exact List.nodup_singleton _

theorem Good.of_role (h : Good count a) (hid : b.localId = a.localId) (hrole : b.role = some .user) (hne : b.ids ≠ [])
    (hnodup : b.ids.Nodup) : Good count b :=
  ⟨fun n hn hb => h.localId n hn (hid.symm.trans hb),fun _ => hrole,fun _ => hne,hnodup⟩

theorem inFlight_user (text : String) (id : Option String) : (user count text id).InFlight :=
  ⟨rfl,rfl,rfl⟩

/-- A row of the user that takes the next local id. -/
theorem Good.apart_user (h : Good count a) {text id : String} (hid : id ∉ a.ids) :
    Apart a (user (count + 1) text (some id)) := by
  constructor
  · rintro local_id ha hb
    exact h.localId (count + 1) (by omega) (ha.trans hb.symm)
  · intro found hfound hmem
    rw [ids_user,List.mem_singleton] at hmem
    exact hid (hmem ▸ hfound)

end Entry

namespace QueuedInput
open Entry
variable {entries others : List Entry} {row row' : Entry} {count : Nat} {queued pending : Option String}
  {pendingIds : Option (List String)}

structure Rows (entries : List Entry) (count : Nat) : Prop where
  good : ∀ row ∈ entries, row.Good count
  apart : entries.Pairwise Apart

namespace Rows

theorem perm {other : List Entry} (h : Rows entries count) (hperm : entries.Perm other) : Rows other count := by
  constructor
  · intro row hrow
    exact h.good row (hperm.mem_iff.mpr hrow)
  · exact (hperm.pairwise_iff Apart.symm).mp h.apart

theorem cons_iff : Rows (row :: others) count ↔
    row.Good count ∧ (∀ other ∈ others, Apart row other) ∧ Rows others count := by
  constructor
  · rintro ⟨hgood,hapart⟩
    obtain ⟨hrow,hothers⟩ := List.forall_mem_cons.mp hgood
    obtain ⟨happ,hrest⟩ := List.pairwise_cons.mp hapart
    exact ⟨hrow,happ,hothers,hrest⟩
  · rintro ⟨hrow,happ,hothers,hrest⟩
    exact ⟨List.forall_mem_cons.mpr ⟨hrow,hothers⟩,List.pairwise_cons.mpr ⟨happ,hrest⟩⟩

theorem mono {more : Nat} (h : Rows entries count) (hcount : count ≤ more) : Rows entries more :=
  ⟨fun row hrow => (h.good row hrow).mono hcount,h.apart⟩

/-- A submission stands in one row. -/
theorem eq_of_id (h : Rows entries count) (hrow : row ∈ entries) (hrow' : row' ∈ entries) {id : String}
    (hid : id ∈ row.ids) (hid' : id ∈ row'.ids) : row = row' := by
  have : Std.Symm Apart := ⟨fun _ _ => Apart.symm⟩
  by_contra hne
  exact (h.apart.forall hrow hrow' hne).2 id hid hid'

theorem position {i j : Nat} {id : String} (h : Rows entries count) (hi : entries[i]? = some row)
    (hj : entries[j]? = some row') (hid : id ∈ row.ids) (hid' : id ∈ row'.ids) : i = j := by
  obtain ⟨hilt,rfl⟩ := List.getElem?_eq_some_iff.mp hi
  obtain ⟨hjlt,rfl⟩ := List.getElem?_eq_some_iff.mp hj
  obtain hlt | heq | hgt := Nat.lt_trichotomy i j
  · exact absurd hid' ((List.pairwise_iff_getElem.mp h.apart i j hilt hjlt hlt).2 id hid)
  · exact heq
  · exact absurd hid ((List.pairwise_iff_getElem.mp h.apart j i hjlt hilt hgt).2 id hid')

end Rows

/-- The queued row and the pending row are there. -/
structure Linked (entries : List Entry) (queued pending : Option String) (pendingIds : Option (List String)) : Prop where
  queuedRow : ∀ id, queued = some id → ∃ row ∈ entries, row.localId = some id ∧ row.InFlight
  pendingRow : ∀ id, pending = some id → queued ≠ some id ∧
    ∃ row ∈ entries, row.localId = some id ∧ row.InFlight ∧ pendingIds = row.submissionIds
  idle : pending = none → pendingIds = none

theorem Linked.perm {other : List Entry} (h : Linked entries queued pending pendingIds) (hperm : entries.Perm other) :
    Linked other queued pending pendingIds := by
  constructor
  · intro id hid
    obtain ⟨row,hrow,hlinked⟩ := h.queuedRow id hid
    exact ⟨row,hperm.mem_iff.mp hrow,hlinked⟩
  · intro id hid
    obtain ⟨hne,row,hrow,hlinked⟩ := h.pendingRow id hid
    exact ⟨hne,row,hperm.mem_iff.mp hrow,hlinked⟩
  · exact h.idle

/-- Every row in flight is queued or waits for its echo. -/
def Sole (entries : List Entry) (queued pending : Option String) : Prop :=
  ∀ row ∈ entries, row.InFlight → row.localId = queued ∨ row.localId = pending

/-- Nothing waits for an echo just when the rows in flight are all queued. -/
theorem Sole.queued_iff (h : Sole entries queued pending) (hlinked : Linked entries queued pending pendingIds) :
    (∀ row ∈ entries, row.InFlight → row.localId = queued) ↔ pending = none := by
  constructor
  · intro hqueued
    cases pending with
    | none => rfl
    | some id =>
      obtain ⟨hne,row,hrow,hid,hflight,-⟩ := hlinked.pendingRow id rfl
      exact absurd ((hqueued row hrow hflight).symm.trans hid) hne
  · rintro rfl row hrow hflight
    obtain hqueued | hnone := h row hrow hflight
    · exact hqueued
    · exact absurd hnone hflight.localId_ne

/-- What holds of the rows of a state that the operations reach. -/
structure Sound (state : State) : Prop where
  rows : Rows state.entries state.localIdentity
  linked : Linked state.entries state.queuedEntryId state.pendingUserEchoId state.pendingSubmissionIds

def State.Sole (state : State) : Prop :=
  QueuedInput.Sole state.entries state.queuedEntryId state.pendingUserEchoId

/-- The submissions that the rows show. -/
def State.submissions (state : State) : List String := state.entries.flatMap Entry.ids

/-! The row that a local id names. -/

section Owned
variable {state : State} {id : String} {before after : List Entry}

theorem owned_eq (hrows : Rows state.entries count) (he : state.entries = before ++ row :: after)
    (hid : row.localId = some id) : owned state (some id) = some (before.length,row) := by
  have hfind : state.entries.findIdx? (fun entry => entry.localId == some id) = some before.length := by
    rw [List.findIdx?_eq_some_iff_getElem]
    refine ⟨by simp [he],by simp [he,hid],?_⟩
    intro j hj
    rw [he] at hrows
    have hlt : j < (before ++ row :: after).length := by
      simp
      omega
    have hother := List.pairwise_iff_getElem.mp hrows.apart j before.length hlt (by simp) hj
    simp only [he,List.getElem_append_right (Nat.le_refl _),Nat.sub_self,List.getElem_cons_zero] at hother ⊢
    simp only [beq_iff_eq]
    intro hsame
    exact hother.1 id hsame hid
  simp only [owned,hfind]
  simp [he]

theorem Sound.queue_cases (h : Sound state) : (state.queuedEntryId = none ∧ owned state state.queuedEntryId = none) ∨
    ∃ id before row after, state.queuedEntryId = some id ∧ owned state state.queuedEntryId = some (before.length,row) ∧
      state.entries = before ++ row :: after ∧ row.localId = some id ∧ row.InFlight := by
  cases hq : state.queuedEntryId with
  | none => exact Or.inl ⟨rfl,rfl⟩
  | some id =>
    obtain ⟨row,hrow,hid,hflight⟩ := h.linked.queuedRow id hq
    obtain ⟨before,after,he⟩ := List.append_of_mem hrow
    exact Or.inr ⟨id,before,row,after,rfl,owned_eq h.rows he hid,he,hid,hflight⟩

theorem Sound.echo_cases (h : Sound state) : (state.pendingUserEchoId = none ∧ state.pendingSubmissionIds = none) ∨
    ∃ id before row after, state.pendingUserEchoId = some id ∧ state.queuedEntryId ≠ some id ∧
      state.pendingSubmissionIds = row.submissionIds ∧ owned state state.pendingUserEchoId = some (before.length,row) ∧
      state.entries = before ++ row :: after ∧ row.localId = some id ∧ row.InFlight := by
  cases hp : state.pendingUserEchoId with
  | none => exact Or.inl ⟨rfl,h.linked.idle hp⟩
  | some id =>
    obtain ⟨hne,row,hrow,hid,hflight,hids⟩ := h.linked.pendingRow id hp
    obtain ⟨before,after,he⟩ := List.append_of_mem hrow
    exact Or.inr ⟨id,before,row,after,rfl,hne,hids,owned_eq h.rows he hid,he,hid,hflight⟩

end Owned

/-! A row of the user is put at the end. -/

section Pushed
variable {id text : String}

theorem mem_submissions {id : String} : id ∈ entries.flatMap Entry.ids ↔ ∃ row ∈ entries, id ∈ row.ids :=
  List.mem_flatMap

theorem Rows.push (h : Rows entries count) (hid : id ∉ entries.flatMap Entry.ids) :
    Rows (entries ++ [user (count + 1) text (some id)]) (count + 1) := by
  have hcons : Rows (user (count + 1) text (some id) :: entries) (count + 1) := by
    refine cons_iff.mpr ⟨good_user text _,?_,h.mono (by omega)⟩
    intro row hrow
    apply Apart.symm
    exact (h.good row hrow).apart_user fun hmem => hid (mem_submissions.mpr ⟨row,hrow,hmem⟩)
  exact hcons.perm (List.perm_append_singleton _ _).symm

theorem Rows.fresh (h : Rows entries count) : ∀ row ∈ entries, row.localId ≠ some (nextLocalId (count + 1)) :=
  fun row hrow => (h.good row hrow).localId (count + 1) (by omega)

theorem Linked.pushPending (h : Linked entries queued pending pendingIds) (hrows : Rows entries count) :
    Linked (entries ++ [user (count + 1) text (some id)]) queued (some (nextLocalId (count + 1))) (some [id]) := by
  constructor
  · intro found hfound
    obtain ⟨row,hrow,hlinked⟩ := h.queuedRow found hfound
    exact ⟨row,List.mem_append_left _ hrow,hlinked⟩
  · rintro _ ⟨⟩
    constructor
    · intro hqueued
      obtain ⟨row,hrow,hid,-⟩ := h.queuedRow _ hqueued
      exact hrows.fresh row hrow hid
    · exact ⟨_,List.mem_append_right _ List.mem_cons_self,rfl,inFlight_user text _,rfl⟩
  · exact nofun

theorem Linked.pushQueued (h : Linked entries none pending pendingIds) (hrows : Rows entries count) :
    Linked (entries ++ [user (count + 1) text (some id)]) (some (nextLocalId (count + 1))) pending pendingIds := by
  constructor
  · rintro _ ⟨⟩
    exact ⟨_,List.mem_append_right _ List.mem_cons_self,rfl,inFlight_user text _⟩
  · intro found hfound
    obtain ⟨-,row,hrow,hid,hlinked⟩ := h.pendingRow found hfound
    refine ⟨?_,row,List.mem_append_left _ hrow,hid,hlinked⟩
    rintro heq
    exact hrows.fresh row hrow (hid.trans heq.symm)
  · exact h.idle

theorem Sole.pushPending (h : Sole entries queued pending) (hlinked : Linked entries queued pending pendingIds)
    (hrows : Rows entries count) :
    Sole (entries ++ [user (count + 1) text (some id)]) queued (some (nextLocalId (count + 1))) ↔ pending = none := by
  rw [← h.queued_iff hlinked]
  constructor
  · intro hsole row hrow hflight
    obtain hqueued | hpending := hsole row (List.mem_append_left _ hrow) hflight
    · exact hqueued
    · exact absurd hpending (hrows.fresh row hrow)
  · intro hqueued row hrow hflight
    obtain hrow | hrow := List.mem_append.mp hrow
    · exact Or.inl (hqueued row hrow hflight)
    · rw [List.mem_singleton.mp hrow]
      exact Or.inr rfl

theorem Sole.pushQueued (hrows : Rows entries count) :
    Sole (entries ++ [user (count + 1) text (some id)]) (some (nextLocalId (count + 1))) pending ↔
      Sole entries none pending := by
  constructor
  · intro h row hrow hflight
    obtain hqueued | hpending := h row (List.mem_append_left _ hrow) hflight
    · exact absurd hqueued (hrows.fresh row hrow)
    · exact Or.inr hpending
  · intro h row hrow hflight
    obtain hrow | hrow := List.mem_append.mp hrow
    · obtain hnone | hpending := h row hrow hflight
      · exact absurd hnone hflight.localId_ne
      · exact Or.inr hpending
    · rw [List.mem_singleton.mp hrow]
      exact Or.inl rfl

end Pushed

/-! The row at the head is changed, goes or is joined by another one. -/

section Replaced
variable {id : String}

theorem Rows.tail (h : Rows (row :: others) count) : Rows others count := (cons_iff.mp h).2.2

theorem Rows.replace (h : Rows (row :: others) count) (hgood : row'.Good count) (hid : row'.localId = row.localId)
    (hids : ∀ id ∈ row'.ids, id ∉ others.flatMap Entry.ids) : Rows (row' :: others) count := by
  obtain ⟨-,happ,hrest⟩ := cons_iff.mp h
  refine cons_iff.mpr ⟨hgood,?_,hrest⟩
  intro other hother
  constructor
  · intro found hfound
    exact (happ other hother).1 found (hid.symm.trans hfound)
  · intro found hfound hmem
    exact hids found hfound (mem_submissions.mpr ⟨other,hother,hmem⟩)

/-- The submissions of the row are in no other one. -/
theorem Rows.head_ids (h : Rows (row :: others) count) : ∀ id ∈ row.ids, id ∉ others.flatMap Entry.ids := by
  intro id hid hmem
  obtain ⟨other,hother,hother_id⟩ := mem_submissions.mp hmem
  exact ((cons_iff.mp h).2.1 other hother).2 id hid hother_id

theorem Rows.head_localId (h : Rows (row :: others) count) (hid : row.localId = some id) :
    ∀ other ∈ others, other.localId ≠ some id := fun other hother => ((cons_iff.mp h).2.1 other hother).1 id hid

theorem Linked.replaceQueued (h : Linked (row :: others) (some id) pending pendingIds) (hid : row.localId = some id)
    (hid' : row'.localId = some id) (hflight : row'.InFlight) : Linked (row' :: others) (some id) pending pendingIds := by
  constructor
  · rintro _ ⟨⟩
    exact ⟨row',List.mem_cons_self,hid',hflight⟩
  · intro found hfound
    obtain ⟨hne,other,hother,hother_id,hlinked⟩ := h.pendingRow found hfound
    refine ⟨hne,other,?_,hother_id,hlinked⟩
    obtain rfl | hother := List.mem_cons.mp hother
    · exact absurd (hid.symm.trans hother_id) hne
    · exact List.mem_cons_of_mem _ hother
  · exact h.idle

theorem Sole.replaceQueued (row row' : Entry) (hid : row.localId = some id) (hid' : row'.localId = some id) :
    Sole (row' :: others) (some id) pending ↔ Sole (row :: others) (some id) pending := by
  simp only [Sole,List.forall_mem_cons]
  apply and_congr_left'
  constructor
  · intro _ _
    exact Or.inl hid
  · intro _ _
    exact Or.inl hid'

/-- The queued row becomes the pending one. -/
theorem Linked.promote (hid : row.localId = some id) (hflight : row.InFlight) :
    Linked (row :: others) none (some id) row.submissionIds := by
  refine ⟨nofun,?_,nofun⟩
  rintro _ ⟨⟩
  exact ⟨nofun,row,List.mem_cons_self,hid,hflight,rfl⟩

theorem Sole.promote (h : Sole entries (some id) pending) (hlinked : Linked entries (some id) pending pendingIds) :
    Sole entries none (some id) ↔ pending = none := by
  rw [← h.queued_iff hlinked]
  constructor
  · intro hsole row hrow hflight
    obtain hnone | hqueued := hsole row hrow hflight
    · exact absurd hnone hflight.localId_ne
    · exact hqueued
  · intro hqueued row hrow hflight
    exact Or.inr (hqueued row hrow hflight)

/-- A row that takes the next local id and some of the submissions of the row at the head. -/
theorem Rows.divide {part : Entry} (h : Rows (row :: others) count) (hgood : row'.Good count)
    (hid : row'.localId = row.localId) (hpart : part.Good (count + 1))
    (hnew : part.localId = some (nextLocalId (count + 1))) (hids : (part.ids ++ row'.ids).Perm row.ids) :
    Rows (part :: row' :: others) (count + 1) := by
  have hrest : Rows (row' :: others) count := by
    apply h.replace hgood hid
    intro found hfound
    exact h.head_ids found (hids.mem_iff.mp (List.mem_append_right _ hfound))
  refine cons_iff.mpr ⟨hpart,?_,hrest.mono (by omega)⟩
  intro other hother
  constructor
  · rintro found hfound hother_id
    exact hrest.fresh other hother (hother_id.trans (hfound.symm.trans hnew))
  · intro found hfound
    obtain rfl | hother := List.mem_cons.mp hother
    · intro hmem
      exact (List.nodup_append.mp (hids.nodup_iff.mpr (cons_iff.mp h).1.nodup)).2.2 found hfound found hmem rfl
    · intro hmem
      exact h.head_ids found (hids.mem_iff.mp (List.mem_append_left _ hfound)) (mem_submissions.mpr ⟨other,hother,hmem⟩)

theorem Linked.divide (part row' : Entry) (h : Linked (row :: others) (some id) pending pendingIds)
    (hrows : Rows (row :: others) count) (hid' : row'.localId = some id) (hflight' : row'.InFlight)
    (hnew : part.localId = some (nextLocalId (count + 1))) (hflight : part.InFlight) :
    Linked (part :: row' :: others) (some id) (some (nextLocalId (count + 1))) part.submissionIds := by
  constructor
  · rintro _ ⟨⟩
    exact ⟨row',List.mem_cons_of_mem _ List.mem_cons_self,hid',hflight'⟩
  · rintro _ ⟨⟩
    refine ⟨?_,part,List.mem_cons_self,hnew,hflight,rfl⟩
    intro heq
    obtain ⟨other,hother,hother_id,-⟩ := h.queuedRow id rfl
    exact hrows.fresh other hother (hother_id.trans heq)
  · exact nofun

theorem Sole.divide (part row' : Entry) (h : Sole (row :: others) (some id) pending)
    (hlinked : Linked (row :: others) (some id) pending pendingIds) (hrows : Rows (row :: others) count)
    (hid : row.localId = some id) (hid' : row'.localId = some id)
    (hnew : part.localId = some (nextLocalId (count + 1))) :
    Sole (part :: row' :: others) (some id) (some (nextLocalId (count + 1))) ↔ pending = none := by
  rw [← h.queued_iff hlinked]
  constructor
  · intro hsole
    refine List.forall_mem_cons.mpr ⟨fun _ => hid,?_⟩
    intro other hother hflight
    obtain hqueued | hpending := hsole other (List.mem_cons_of_mem _ (List.mem_cons_of_mem _ hother)) hflight
    · exact hqueued
    · exact absurd hpending (hrows.fresh other (List.mem_cons_of_mem _ hother))
  · intro hqueued
    refine List.forall_mem_cons.mpr ⟨fun _ => Or.inr hnew,List.forall_mem_cons.mpr ⟨fun _ => Or.inl hid',?_⟩⟩
    intro other hother hflight
    exact Or.inl (hqueued other (List.mem_cons_of_mem _ hother) hflight)

/-- The pending row is bound to its message. -/
theorem Linked.bind (h : Linked (row :: others) queued (some id) pendingIds) (hid : row.localId = some id) :
    Linked (row' :: others) queued none none := by
  refine ⟨?_,nofun,fun _ => rfl⟩
  intro found hfound
  obtain ⟨other,hother,hother_id,hflight⟩ := h.queuedRow found hfound
  obtain rfl | hother := List.mem_cons.mp hother
  · have hne := (h.pendingRow id rfl).1
    rw [hfound,← hother_id,hid] at hne
    exact absurd rfl hne
  · exact ⟨other,List.mem_cons_of_mem _ hother,hother_id,hflight⟩

theorem Sole.bind (hrows : Rows (row :: others) count) (hid : row.localId = some id) (hbound : ¬ row'.InFlight) :
    Sole (row' :: others) queued none ↔ Sole (row :: others) queued (some id) := by
  constructor
  · intro h
    refine List.forall_mem_cons.mpr ⟨fun _ => Or.inr hid,?_⟩
    intro other hother hflight
    obtain hqueued | hnone := h other (List.mem_cons_of_mem _ hother) hflight
    · exact Or.inl hqueued
    · exact absurd hnone hflight.localId_ne
  · intro h
    refine List.forall_mem_cons.mpr ⟨fun hflight => absurd hflight hbound,?_⟩
    intro other hother hflight
    obtain hqueued | hpending := h other (List.mem_cons_of_mem _ hother) hflight
    · exact Or.inl hqueued
    · exact absurd hpending (hrows.head_localId hid other hother)

theorem Linked.none : Linked entries none none none := ⟨nofun,nofun,fun _ => rfl⟩

/-- The queued row is taken back, and nothing waits for an echo any more. -/
theorem Sole.restore (h : Sole (row :: others) (some id) pending)
    (hlinked : Linked (row :: others) (some id) pending pendingIds) (hrows : Rows (row :: others) count)
    (hid : row.localId = some id) : Sole others none none ↔ pending = none := by
  rw [← h.queued_iff hlinked]
  constructor
  · intro hsole
    refine List.forall_mem_cons.mpr ⟨fun _ => hid,?_⟩
    intro other hother hflight
    exact absurd ((or_self_iff).mp (hsole other hother hflight)) hflight.localId_ne
  · intro hqueued other hother hflight
    exact absurd (hqueued other (List.mem_cons_of_mem _ hother) hflight) (hrows.head_localId hid other hother)

end Replaced
end QueuedInput
end Nefor.Chat
