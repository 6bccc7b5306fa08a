import Nefor.Chat.QueuedRows
import Nefor.Throughout

/-! Submissions in flight and the messages that echo them. Each submission stands in one row of
the user until it is taken back. The echo of a row that has been sent finds its row as long as
nothing takes the place of a row that still waits. -/
namespace Nefor.Chat.QueuedInput
open Entry

/-- `ids` are the first submissions of the row, and `text` is their part of its text. -/
def Leading (row : Entry) (ids : List String) (text : Option String) : Prop :=
  ids ≠ [] ∧ ids <+: row.ids ∧ (ids.length < row.ids.length → ∃ t ∈ text, (t ++ "\n").toList <+: row.text.toList)

instance (row : Entry) (ids : List String) (text : Option String) : Decidable (Leading row ids text) :=
  inferInstanceAs (Decidable (_ ∧ _ ∧ _))

/-- What is left of the queued row, and what is cut off. -/
def remainder (row : Entry) (ids : List String) (text : String) : Entry :=
  { row.setText (String.ofList (row.text.toList.drop (text ++ "\n").toList.length)) with
    submissionIds := some (row.ids.drop ids.length) }

def part (count : Nat) (ids : List String) (text : String) : Entry :=
  { Entry.user count text ids.head? with submissionIds := some ids }

@[simp] theorem ids_remainder (row : Entry) (ids : List String) (text : String) :
    (remainder row ids text).ids = row.ids.drop ids.length := rfl

@[simp] theorem ids_part (count : Nat) (ids : List String) (text : String) : (part count ids text).ids = ids := rfl

section Steer
variable {state : State} {before after : List Entry} {row : Entry} {ids : List String} {text : Option String}

theorem eraseIdx_middle (he : state.entries = before ++ row :: after) :
    state.entries.eraseIdx before.length = before ++ after := by
  rw [he,List.eraseIdx_append_of_length_le (Nat.le_refl _)]
  simp

theorem promote_none (he : state.entries = before ++ row :: after) :
    (promote state before.length none row).entries = before ++ after ++ [row] := by
  simp [promote,setPending,eraseIdx_middle he]

theorem promote_some (he : state.entries = before ++ row :: after) (rest moved : Entry) :
    (promote state before.length (some rest) moved).entries = before ++ rest :: after ++ [moved] := by
  simp [promote,setPending,he]

/-- The queue is steered by no names, or by names that lead the queued row. -/
theorem acceptSteered_all (howned : owned state state.queuedEntryId = some (before.length,row)) :
    acceptSteered state none text = (promote state before.length none row,true) := by
  simp [acceptSteered,howned]

theorem acceptSteered_whole (howned : owned state state.queuedEntryId = some (before.length,row)) (hne : row.ids ≠ []) :
    acceptSteered state (some row.ids) text = (promote state before.length none row,true) := by
  simp [acceptSteered,howned,hne]

theorem acceptSteered_part (howned : owned state state.queuedEntryId = some (before.length,row)) {t : String}
    (hne : ids ≠ []) (hids : ids <+: row.ids) (hlt : ids.length < row.ids.length)
    (ht : (t ++ "\n").toList <+: row.text.toList) :
    acceptSteered state (some ids) (some t) =
      (promote { state with localIdentity := state.localIdentity + 1 } before.length (some (remainder row ids t))
        (part (state.localIdentity + 1) ids t),true) := by
  have hnot : ¬ row.ids.length < ids.length := by omega
  simp only [acceptSteered,howned,hne,hnot,false_or,if_false,List.isPrefixOf_iff_prefix.mpr hids,
    List.isPrefixOf_iff_prefix.mpr ht,hlt,if_true]
  rfl

theorem acceptSteered_not (howned : owned state state.queuedEntryId = some (before.length,row))
    (h : ¬ Leading row ids text) : acceptSteered state (some ids) text = (state,false) := by
  simp only [acceptSteered,howned]
  split
  · rfl
  · next hlen =>
    split
    · rfl
    · next hids =>
      have hleads : ids <+: row.ids := by simpa using hids
      split
      · next hlt =>
        cases text with
        | none => rfl
        | some t =>
          dsimp only
          split
          · rfl
          · next ht =>
            have htext : (t ++ "\n").toList <+: row.text.toList := by simpa using ht
            exact absurd ⟨fun hnil => hlen (Or.inl hnil),hleads,fun _ => ⟨t,rfl,htext⟩⟩ h
      · next hlt => exact absurd ⟨fun hnil => hlen (Or.inl hnil),hleads,fun hl => absurd hl hlt⟩ h

end Steer

/-! One step. -/

/-- What a step does: `new` are the submissions that it adds, `back` those that it takes back. -/
structure Outcome (state next : State) (new back : List String) (orderly : Prop) : Prop where
  sound : Sound next
  submissions : (state.submissions ++ new).Perm (next.submissions ++ back)
  sole : state.Sole → (next.Sole ↔ orderly)

/-- Submissions that are still to come stay apart from those in the rows. -/
theorem Outcome.nodup {state next : State} {new back more : List String} {orderly : Prop}
    (h : Outcome state next new back orderly) (hids : (state.submissions ++ new ++ more).Nodup) :
    (next.submissions ++ more).Nodup := by
  have hnodup := (h.submissions.append_right more).nodup_iff.mp hids
  rw [List.append_assoc] at hnodup
  exact List.Nodup.sublist (List.Sublist.append_left (List.sublist_append_right _ _) _) hnodup

section Steps
variable {state : State} {before after : List Entry} {row : Entry} {ids : List String} {id text : String}

theorem Outcome.refl (h : Sound state) {orderly : Prop} (horderly : orderly) : Outcome state state [] [] orderly :=
  ⟨h,List.Perm.refl _,fun hsole => iff_of_true hsole horderly⟩

theorem head_perm (he : state.entries = before ++ row :: after) : state.entries.Perm (row :: (before ++ after)) := by
  rw [he]
  exact List.perm_middle

theorem Sound.head (h : Sound state) (he : state.entries = before ++ row :: after) :
    Rows (row :: (before ++ after)) state.localIdentity ∧
      Linked (row :: (before ++ after)) state.queuedEntryId state.pendingUserEchoId state.pendingSubmissionIds :=
  ⟨h.rows.perm (head_perm he),h.linked.perm (head_perm he)⟩

theorem Sole.perm {entries other : List Entry} {queued pending : Option String} (hperm : entries.Perm other) :
    Sole entries queued pending ↔ Sole other queued pending := by
  simp only [Sole,hperm.mem_iff]

theorem mem_rest (he : state.entries = before ++ row :: after) (hid : id ∈ (before ++ after).flatMap Entry.ids) :
    id ∈ state.submissions := by
  apply ((head_perm he).flatMap_right Entry.ids).mem_iff.mpr
  rw [List.flatMap_cons]
  exact List.mem_append_right _ hid

/-- A step from a row among others to some rows among these others. -/
theorem Outcome.of_perm {next : State} {new back : List String} {orderly : Prop} {others : List Entry}
    (rows : List Entry) (hbefore : state.entries.Perm (row :: others)) (hafter : next.entries.Perm (rows ++ others))
    (hrows : Rows (rows ++ others) next.localIdentity)
    (hlinked : Linked (rows ++ others) next.queuedEntryId next.pendingUserEchoId next.pendingSubmissionIds)
    (hids : (row.ids ++ new).Perm (rows.flatMap Entry.ids ++ back))
    (hsole : Sole (row :: others) state.queuedEntryId state.pendingUserEchoId →
      (Sole (rows ++ others) next.queuedEntryId next.pendingUserEchoId ↔ orderly)) :
    Outcome state next new back orderly := by
  refine ⟨⟨hrows.perm hafter.symm,hlinked.perm hafter.symm⟩,?_,?_⟩
  · have hstart : state.submissions.Perm (row.ids ++ others.flatMap Entry.ids) := hbefore.flatMap_right Entry.ids
    have hend : next.submissions.Perm (rows.flatMap Entry.ids ++ others.flatMap Entry.ids) := by
      rw [← List.flatMap_append]
      exact hafter.flatMap_right Entry.ids
    rw [List.perm_iff_count] at hstart hend hids ⊢
    intro id
    have hid := hids id
    simp only [List.count_append] at hstart hend hid ⊢
    rw [hstart,hend]
    omega
  · intro h
    rw [State.Sole,Sole.perm hafter]
    exact hsole ((Sole.perm hbefore).mp h)

theorem pushPending_outcome (h : Sound state) (hid : id ∉ state.submissions) :
    Outcome state (setPending (pushUser state text (some id)).2 (pushUser state text (some id)).1) [id] []
      (state.pendingUserEchoId = none) := by
  refine ⟨⟨h.rows.push hid,h.linked.pushPending h.rows⟩,?_,fun hsole => hsole.pushPending h.linked h.rows⟩
  simp [State.submissions,setPending,pushUser]

theorem submit_outcome (h : Sound state) (busy : Bool) (hid : id ∉ state.submissions) :
    Outcome state (submit state text busy (some id)) [id] [] (busy = false → state.pendingUserEchoId = none) := by
  cases busy with
  | false =>
    have hpush := @pushPending_outcome _ _ text h hid
    exact ⟨hpush.sound,hpush.submissions,fun hsole => (hpush.sole hsole).trans (by simp)⟩
  | true =>
    obtain ⟨hnone,howned⟩ | ⟨owner,before,row,after,hqueued,howned,he,howner,hflight⟩ := h.queue_cases
    · have hsubmit : submit state text true (some id) = { (pushUser state text (some id)).2 with
          queuedEntryId := some (nextLocalId (state.localIdentity + 1)) } := by
        simp only [submit,if_true,howned]
        rfl
      have hlinked := h.linked
      rw [hnone] at hlinked
      rw [hsubmit]
      refine ⟨⟨h.rows.push hid,hlinked.pushQueued h.rows⟩,by simp [State.submissions,pushUser],?_⟩
      intro hsole
      rw [State.Sole,hnone] at hsole
      exact iff_of_true ((Sole.pushQueued h.rows).mpr hsole) nofun
    · let longer := { row.setText (row.text ++ "\n" ++ text) with submissionIds := some (row.ids ++ [id]) }
      have hsubmit : submit state text true (some id) = { state with entries := before ++ longer :: after } := by
        simp [submit,howned,he,longer]
      obtain ⟨hrows,hlinked⟩ := h.head he
      rw [hqueued] at hlinked
      have hnodup : longer.ids.Nodup := by
        apply (Rows.cons_iff.mp hrows).1.nodup.append (List.nodup_singleton id)
        intro found hfound hmem
        rw [List.mem_singleton.mp hmem] at hfound
        exact hid (mem_submissions.mpr ⟨row,by simp [he],hfound⟩)
      have hlonger : longer.Good state.localIdentity :=
        (Rows.cons_iff.mp hrows).1.of_role rfl hflight.1 (by simp [longer,Entry.ids]) hnodup
      rw [hsubmit]
      apply Outcome.of_perm [longer] (head_perm he) List.perm_middle
      · apply hrows.replace hlonger rfl
        intro found hfound hmem
        obtain hfound | hfound := List.mem_append.mp hfound
        · exact hrows.head_ids found hfound hmem
        · rw [List.mem_singleton.mp hfound] at hmem
          exact hid (mem_rest he hmem)
      · dsimp only
        rw [hqueued]
        exact hlinked.replaceQueued howner howner hflight
      · simp [longer,Entry.ids]
      · intro hsole
        dsimp only
        rw [hqueued] at hsole ⊢
        have hlonger : Sole (longer :: (before ++ after)) (some owner) state.pendingUserEchoId :=
          (Sole.replaceQueued row longer howner howner).mpr hsole
        exact iff_of_true hlonger nofun

theorem observeExternalSubmit_outcome (h : Sound state) (hid : id ∉ state.submissions) :
    Outcome state (observeExternalSubmit state text (some id)).1 [id] []
      (id ∉ state.pendingSubmissionIds.getD [] → state.pendingUserEchoId = none) := by
  have hfresh : id ∉ state.pendingSubmissionIds.getD [] := by
    obtain ⟨-,hnone⟩ | ⟨_,before,row,after,-,-,hids,-,he,-⟩ := h.echo_cases
    · simp [hnone]
    · rw [hids]
      intro hmem
      exact hid (mem_submissions.mpr ⟨row,by simp [he],hmem⟩)
  have hpush := @pushPending_outcome _ _ text h hid
  simp only [observeExternalSubmit,hfresh,if_false]
  exact ⟨hpush.sound,hpush.submissions,fun hsole => (hpush.sole hsole).trans (by simp)⟩

/-- The queued row is steered as a whole. -/
theorem promote_outcome (h : Sound state) {owner : String} (hqueued : state.queuedEntryId = some owner)
    (he : state.entries = before ++ row :: after) (howner : row.localId = some owner) (hflight : row.InFlight) :
    Outcome state (promote state before.length none row) [] [] (state.pendingUserEchoId = none) := by
  obtain ⟨hrows,hlinked⟩ := h.head he
  rw [hqueued] at hlinked
  have hafter : (promote state before.length none row).entries.Perm (row :: (before ++ after)) := by
    rw [promote_none he]
    exact List.perm_append_singleton _ _
  apply Outcome.of_perm [row] (head_perm he) hafter hrows
  · have hpromoted := @Linked.promote (before ++ after) row owner howner hflight
    rwa [← howner] at hpromoted
  · simp
  · intro hsole
    rw [hqueued] at hsole
    have hpromoted := hsole.promote hlinked
    rwa [← howner] at hpromoted

theorem promotePart_outcome (h : Sound state) {owner : String} (hqueued : state.queuedEntryId = some owner)
    (he : state.entries = before ++ row :: after) (howner : row.localId = some owner) (hflight : row.InFlight)
    (hne : ids ≠ []) (hids : ids <+: row.ids) (hlt : ids.length < row.ids.length) :
    Outcome state (promote { state with localIdentity := state.localIdentity + 1 } before.length
      (some (remainder row ids text)) (part (state.localIdentity + 1) ids text)) [] [] (state.pendingUserEchoId = none) := by
  obtain ⟨hrows,hlinked⟩ := h.head he
  rw [hqueued] at hlinked
  have hgood := (Rows.cons_iff.mp hrows).1
  have hjoin : ids ++ (remainder row ids text).ids = row.ids := by
    obtain ⟨rest,hrest⟩ := hids
    rw [ids_remainder,← hrest,List.drop_left]
  have hrest_ne : (remainder row ids text).ids ≠ [] := by
    intro hnil
    rw [hnil,List.append_nil] at hjoin
    rw [hjoin] at hlt
    exact Nat.lt_irrefl _ hlt
  have hnodup := hgood.nodup
  rw [← hjoin,List.nodup_append] at hnodup
  have hremainder : (remainder row ids text).Good state.localIdentity :=
    hgood.of_role rfl hflight.1 hrest_ne hnodup.2.1
  have hpart : (part (state.localIdentity + 1) ids text).Good (state.localIdentity + 1) :=
    (good_user text ids.head?).of_role rfl rfl hne hnodup.1
  apply Outcome.of_perm [part (state.localIdentity + 1) ids text,remainder row ids text] (head_perm he)
  · have hentries := @promote_some { state with localIdentity := state.localIdentity + 1 } before after row he
      (remainder row ids text) (part (state.localIdentity + 1) ids text)
    rw [hentries]
    exact (List.perm_append_singleton _ _).trans (List.Perm.cons _ List.perm_middle)
  · apply hrows.divide hremainder rfl hpart rfl
    rw [ids_part,hjoin]
  · have hdivided := hlinked.divide (part (state.localIdentity + 1) ids text) (remainder row ids text) hrows howner
      hflight rfl (inFlight_user text ids.head?)
    rwa [← howner] at hdivided
  · rw [List.append_nil,List.append_nil,List.flatMap_cons,List.flatMap_cons,List.flatMap_nil,List.append_nil,ids_part,hjoin]
  · intro hsole
    rw [hqueued] at hsole
    have hdivided := hsole.divide (part (state.localIdentity + 1) ids text) (remainder row ids text) hlinked hrows howner
      howner rfl
    rwa [← howner] at hdivided

theorem restore_outcome (h : Sound state) {owner : String} (hqueued : state.queuedEntryId = some owner)
    (howned : owned state state.queuedEntryId = some (before.length,row))
    (he : state.entries = before ++ row :: after) (howner : row.localId = some owner) :
    Outcome state (restore state).1 [] row.ids (state.pendingUserEchoId = none) := by
  obtain ⟨hrows,hlinked⟩ := h.head he
  rw [hqueued] at hlinked
  have herase : (restore state).1.entries = before ++ after := by
    simp [restore,howned,eraseIdx_middle he]
  have hcleared : (restore state).1.queuedEntryId = none ∧ (restore state).1.pendingUserEchoId = none ∧
      (restore state).1.pendingSubmissionIds = none ∧ (restore state).1.localIdentity = state.localIdentity := by
    simp [restore,howned]
  obtain ⟨hqueue,hecho,hids,hcount⟩ := hcleared
  apply Outcome.of_perm [] (head_perm he) (by rw [herase]; rfl)
  · rw [hcount]
    exact hrows.tail
  · rw [hqueue,hecho,hids]
    exact Linked.none
  · simp
  · intro hsole
    rw [hqueued] at hsole
    rw [hqueue,hecho]
    exact hsole.restore hlinked hrows howner

/-- The pending row is bound if the echo names all its submissions. -/
theorem acknowledge_eq (howned : owned state state.pendingUserEchoId = some (before.length,row))
    (he : state.entries = before ++ row :: after) (hids : state.pendingSubmissionIds = row.submissionIds)
    (hne : row.ids ≠ []) (hflight : row.InFlight) (messageId turnId : Option String) :
    acknowledge state ids messageId turnId =
      if row.ids ⊆ ids then
        ({ state with
          entries := before ++ after ++ [row.bindCanonical messageId turnId]
          pendingSubmissionIds := none
          pendingUserEchoId := none
          inFlight := shiftInFlight state.inFlight before.length },true)
      else (state,false) := by
  have hpending : state.pendingSubmissionIds.getD [] = row.ids := by
    rw [hids]
    rfl
  simp only [acknowledge,hpending,hne,false_or,howned,hflight.1,if_true,eraseIdx_middle he]
  by_cases hsub : row.ids ⊆ ids
  · rw [if_neg (not_not_intro hsub),if_pos hsub]
  · rw [if_pos hsub,if_neg hsub]

theorem acknowledge_idle (hids : state.pendingSubmissionIds = none) (messageId turnId : Option String) :
    acknowledge state ids messageId turnId = (state,false) := by
  simp [acknowledge,hids]

theorem acknowledge_outcome (h : Sound state) (messageId : String) (turnId : Option String) :
    Outcome state (acknowledge state ids (some messageId) turnId).1 [] [] True ∧
      ((acknowledge state ids (some messageId) turnId).1.Sole ↔ state.Sole) := by
  obtain ⟨-,hidle⟩ | ⟨owner,before,row,after,hecho,hne,hids,howned,he,howner,hflight⟩ := h.echo_cases
  · rw [acknowledge_idle hidle]
    exact ⟨Outcome.refl h trivial,Iff.rfl⟩
  · obtain ⟨hrows,hlinked⟩ := h.head he
    rw [acknowledge_eq howned he hids ((Rows.cons_iff.mp hrows).1.ids hflight) hflight]
    split
    · have hafter : (before ++ after ++ [row.bindCanonical (some messageId) turnId]).Perm
          (row.bindCanonical (some messageId) turnId :: (before ++ after)) := List.perm_append_singleton _ _
      have hbound : ¬ (row.bindCanonical (some messageId) turnId).InFlight := fun hflight => nomatch hflight.2.2
      have hgood := (Rows.cons_iff.mp hrows).1
      have hsole : Sole (row.bindCanonical (some messageId) turnId :: (before ++ after)) state.queuedEntryId none ↔
          Sole (row :: (before ++ after)) state.queuedEntryId state.pendingUserEchoId := by
        rw [hecho]
        exact Sole.bind hrows howner hbound
      constructor
      · apply Outcome.of_perm [_] (head_perm he) hafter
        · exact hrows.replace (hgood.of_role rfl hflight.1 (hgood.ids hflight) hgood.nodup) rfl hrows.head_ids
        · rw [hecho] at hlinked
          exact hlinked.bind howner
        · simp
        · intro hs
          exact iff_of_true (hsole.mpr hs) trivial
      · rw [State.Sole,State.Sole,Sole.perm (head_perm he),← hsole]
        exact Sole.perm hafter
    · exact ⟨Outcome.refl h trivial,Iff.rfl⟩

end Steps

/-! The calls. -/

/-- The row that gathers the submissions of a turn that runs. -/
def queuedRow (state : State) : Option Entry := (owned state state.queuedEntryId).map (·.2)

namespace Op

/-- The submission that the call brings. -/
def submitted : Op → List String
  | submit _ _ id => [id]
  | observeExternalSubmit _ id => [id]
  | _ => []

/-- The submissions that the call puts back into the input. -/
def returned (state : State) : Op → List String
  | restore => (queuedRow state).elim [] Entry.ids
  | _ => []

/-- The call makes another row the pending one, or leaves none pending but by an echo of the
pending row. -/
def Takes (state : State) : Op → Prop
  | submit _ busy _ => busy = false
  | observeExternalSubmit _ id => id ∉ state.pendingSubmissionIds.getD []
  | acceptSteered ids text => ∃ row ∈ queuedRow state, ∀ l ∈ ids, Leading row l text
  | restore => (queuedRow state).isSome
  | reconcileEcho ids _ _ text => ∃ row ∈ queuedRow state, ∃ l ∈ ids, Leading row l text

/-- No row waits for its echo when the call takes the place of the pending row. -/
def Orderly (state : State) (op : Op) : Prop := op.Takes state → state.pendingUserEchoId = none

instance (state : State) : (op : Op) → Decidable (op.Takes state)
  | submit _ busy _ => inferInstanceAs (Decidable (busy = false))
  | observeExternalSubmit _ _ => inferInstanceAs (Decidable (¬ _))
  | acceptSteered _ _ => inferInstanceAs (Decidable (∃ row ∈ queuedRow state, _))
  | restore => inferInstanceAs (Decidable (_ = true))
  | reconcileEcho _ _ _ _ => inferInstanceAs (Decidable (∃ row ∈ queuedRow state, _))

instance (state : State) (op : Op) : Decidable (op.Orderly state) :=
  inferInstanceAs (Decidable (_ → _))

end Op

section Calls
variable {state : State} {ids : List String}

theorem acceptSteered_outcome (h : Sound state) (names : Option (List String)) (text : Option String) :
    Outcome state (acceptSteered state names text).1 [] [] ((Op.acceptSteered names text).Orderly state) := by
  obtain ⟨hnone,howned⟩ | ⟨owner,before,row,after,hqueued,howned,he,howner,hflight⟩ := h.queue_cases
  · have haccept : acceptSteered state names text = (state,false) := by
      simp [acceptSteered,howned]
    rw [haccept]
    apply Outcome.refl h
    rintro ⟨row,hrow,-⟩
    simp [queuedRow,howned] at hrow
  · have hrow : queuedRow state = some row := by
      simp [queuedRow,howned]
    have htakes : (∀ l ∈ names, Leading row l text) →
        ((Op.acceptSteered names text).Orderly state ↔ state.pendingUserEchoId = none) := by
      intro hleads
      exact ⟨fun horderly => horderly ⟨row,hrow,hleads⟩,fun hidle _ => hidle⟩
    cases names with
    | none =>
      rw [acceptSteered_all howned]
      have hpromote := promote_outcome h hqueued he howner hflight
      exact ⟨hpromote.sound,hpromote.submissions,fun hsole => (hpromote.sole hsole).trans (htakes nofun).symm⟩
    | some l =>
      by_cases hleads : Leading row l text
      · have htaken := htakes (by simpa using hleads)
        obtain ⟨hne,hids,htext⟩ := hleads
        by_cases hlt : l.length < row.ids.length
        · obtain ⟨t,rfl,ht⟩ := htext hlt
          rw [acceptSteered_part howned hne hids hlt ht]
          have hpromote := @promotePart_outcome _ _ _ _ _ t h _ hqueued he howner hflight hne hids hlt
          exact ⟨hpromote.sound,hpromote.submissions,fun hsole => (hpromote.sole hsole).trans htaken.symm⟩
        · obtain rfl := hids.eq_of_length_le (by omega)
          rw [acceptSteered_whole howned hne]
          have hpromote := promote_outcome h hqueued he howner hflight
          exact ⟨hpromote.sound,hpromote.submissions,fun hsole => (hpromote.sole hsole).trans htaken.symm⟩
      · rw [acceptSteered_not howned hleads]
        apply Outcome.refl h
        rintro ⟨found,hfound,hfound_leads⟩
        obtain rfl := Option.mem_some_iff.mp (hrow ▸ hfound)
        exact absurd (hfound_leads l rfl) hleads

/-- An echo steers the queue as far as it names it, and then binds the pending row. -/
theorem reconcileEcho_eq (h : Sound state) (messageId turnId text : Option String) :
    reconcileEcho state (some ids) messageId turnId text =
      acknowledge (acceptSteered state (some ids) text).1 ids messageId turnId := by
  obtain ⟨hnone,howned⟩ | ⟨owner,before,row,after,hqueued,howned,he,howner,hflight⟩ := h.queue_cases
  · simp [reconcileEcho,acceptSteered,howned]
  · simp only [reconcileEcho,howned]
    split
    · rfl
    · next hhead =>
      rw [acceptSteered_not howned]
      rintro ⟨hne,hids,-⟩
      obtain ⟨rest,hrest⟩ := hids
      rw [← hrest,List.head?_append_of_ne_nil _ hne] at hhead
      exact hhead rfl

theorem reconcileEcho_outcome (h : Sound state) (names : Option (List String)) (messageId : String)
    (turnId text : Option String) : Outcome state (reconcileEcho state names (some messageId) turnId text).1 [] []
      ((Op.reconcileEcho names messageId turnId text).Orderly state) := by
  cases names with
  | none =>
    apply Outcome.refl h
    rintro ⟨row,-,l,hl,-⟩
    cases hl
  | some ids =>
    rw [reconcileEcho_eq h]
    have hsteer := acceptSteered_outcome h (some ids) text
    obtain ⟨hecho,hsole⟩ := @acknowledge_outcome _ ids hsteer.sound messageId turnId
    refine ⟨hecho.sound,hsteer.submissions.trans hecho.submissions,fun hs => hsole.trans ((hsteer.sole hs).trans ?_)⟩
    simp [Op.Orderly,Op.Takes]

theorem Op.outcome (h : Sound state) (op : Op) (hids : ∀ id ∈ op.submitted, id ∉ state.submissions) :
    Outcome state (op.run state) op.submitted (op.returned state) (op.Orderly state) := by
  cases op with
  | submit text busy id => exact submit_outcome h busy (hids id List.mem_cons_self)
  | observeExternalSubmit text id => exact observeExternalSubmit_outcome h (hids id List.mem_cons_self)
  | acceptSteered names text => exact acceptSteered_outcome h names text
  | restore =>
    obtain ⟨hnone,howned⟩ | ⟨owner,before,row,after,hqueued,howned,he,howner,hflight⟩ := h.queue_cases
    · have hrestore : Op.restore.run state = state := by
        simp [Op.run,QueuedInput.restore,howned]
      have hreturned : Op.restore.returned state = [] := by
        simp [Op.returned,queuedRow,howned]
      rw [hrestore,hreturned]
      apply Outcome.refl h
      intro htakes
      simp [Op.Takes,queuedRow,howned] at htakes
    · have hrow : queuedRow state = some row := by
        simp [queuedRow,howned]
      have hreturned : Op.restore.returned state = row.ids := by
        simp [Op.returned,hrow]
      have hrestore := restore_outcome h hqueued howned he howner
      rw [hreturned]
      refine ⟨hrestore.sound,hrestore.submissions,fun hsole => (hrestore.sole hsole).trans ?_⟩
      exact ⟨fun hidle _ => hidle,fun horderly => horderly (by simp [Op.Takes,hrow])⟩
  | reconcileEcho names messageId turnId text => exact reconcileEcho_outcome h names messageId turnId text

end Calls

/-! Echoes. -/

section Echoing
variable {state : State} {row : Entry} {ids : List String} {text : Option String}

end Echoing

/-! Runs. -/

/-- The submissions that the calls put back into the input. -/
def returned (state : State) : List Op → List String
  | [] => []
  | op :: ops => op.returned state ++ returned (op.run state) ops

/-- Nothing was submitted so far. -/
structure State.Unsent (state : State) : Prop where
  queued : state.queuedEntryId = none
  pending : state.pendingUserEchoId = none
  pendingIds : state.pendingSubmissionIds = none
  rows : ∀ row ∈ state.entries, row.localId = none ∧ row.submissionIds = none

/-- A submission stands in one row of the user, unless it was put back; then it stands in none. -/
def Accounted (state : State) (submitted returned : List String) : Prop :=
  ∀ id ∈ submitted,
    (id ∉ returned →
      ∃! i : Nat, ∃ row : Entry, state.entries[i]? = some row ∧ row.role = some .user ∧ id ∈ row.ids) ∧
    (id ∈ returned → ∀ row ∈ state.entries, id ∉ row.ids)

section Runs
variable {start : State} {ops : List Op}

theorem State.Unsent.ids (h : start.Unsent) : ∀ row ∈ start.entries, row.ids = [] := by
  intro row hrow
  simp [Entry.ids,(h.rows row hrow).2]

theorem State.Unsent.submissions (h : start.Unsent) : start.submissions = [] :=
  List.flatMap_eq_nil_iff.mpr h.ids

theorem State.Unsent.not_inFlight (h : start.Unsent) : ∀ row ∈ start.entries, ¬ row.InFlight :=
  fun row hrow hflight => hflight.localId_ne (h.rows row hrow).1

theorem State.Unsent.sound (h : start.Unsent) : Sound start := by
  refine ⟨⟨?_,?_⟩,?_⟩
  · intro row hrow
    constructor
    · intro n _
      simp [(h.rows row hrow).1]
    · intro hne
      exact absurd (h.ids row hrow) hne
    · intro hflight
      exact absurd hflight (h.not_inFlight row hrow)
    · rw [h.ids row hrow]
      exact List.nodup_nil
  · apply List.pairwise_of_forall_mem_list
    intro a ha b _
    simp [Apart,(h.rows a ha).1,h.ids a ha]
  · rw [h.queued,h.pending,h.pendingIds]
    exact Linked.none

theorem run_sound (h : Sound start) (hids : (start.submissions ++ ops.flatMap Op.submitted).Nodup) :
    Sound (runAll start ops) ∧
      (start.submissions ++ ops.flatMap Op.submitted).Perm ((runAll start ops).submissions ++ returned start ops) := by
  induction ops generalizing start with
  | nil => exact ⟨h,by simp [runAll,returned]⟩
  | cons op ops ih =>
    rw [List.flatMap_cons,← List.append_assoc] at hids ⊢
    have hstep := op.outcome h fun id hid hmem =>
      (List.nodup_append.mp (List.nodup_append.mp hids).1).2.2 id hmem id hid rfl
    obtain ⟨hsound,hperm⟩ := ih hstep.sound (hstep.nodup hids)
    refine ⟨hsound,?_⟩
    have hkept := hstep.submissions
    rw [List.perm_iff_count] at hkept hperm ⊢
    intro id
    have hkept_id := hkept id
    have hperm_id := hperm id
    simp only [List.count_append,returned,runAll,List.foldl_cons] at hkept_id hperm_id ⊢
    omega

theorem accounted (h : start.Unsent) (hids : (ops.flatMap Op.submitted).Nodup) :
    Accounted (runAll start ops) (ops.flatMap Op.submitted) (returned start ops) := by
  have hstart := h.submissions
  obtain ⟨hsound,hperm⟩ := @run_sound start ops h.sound (by simpa [hstart] using hids)
  rw [hstart,List.nil_append] at hperm
  have hnodup := hperm.nodup_iff.mp hids
  intro id hid
  constructor
  · intro hnot
    obtain hmem | hmem := List.mem_append.mp (hperm.mem_iff.mp hid)
    · obtain ⟨row,hrow,hrow_id⟩ := mem_submissions.mp hmem
      obtain ⟨i,hi⟩ := List.mem_iff_getElem?.mp hrow
      refine ⟨i,⟨row,hi,(hsound.rows.good row hrow).role (List.ne_nil_of_mem hrow_id),hrow_id⟩,?_⟩
      rintro j ⟨other,hj,-,hother_id⟩
      exact hsound.rows.position hj hi hother_id hrow_id
    · exact absurd hmem hnot
  · intro hreturned row hrow hrow_id
    exact (List.nodup_append.mp hnodup).2.2 id (mem_submissions.mpr ⟨row,hrow,hrow_id⟩) id hreturned rfl

end Runs

end Nefor.Chat.QueuedInput
