import Nefor.Kernel.ActorRuns

/-! Every request to a capability is made once and settled at most once, however the runs of the kernel
interleave. -/
namespace Nefor.Kernel
open Nefor.Lua Behaviour Constellation

inductive RequestState
  | fresh
  | asked (interrupted : Bool)
  | settled
  deriving DecidableEq

/-- A request that is interrupted is answered; one whose actor is killed is not. -/
def requesting : Behaviour RequestState KernelEvent where
  start := .fresh
  next
    | .fresh, .invoke _ _ _ => some (.asked false)
    | .asked false, .cancel _ .interrupt => some (.asked true)
    | .asked false, .cancel _ .kill => some .settled
    | .asked _, .reply _ _ _ _ => some .settled
    | .asked _, .dropped _ => some .settled
    | _, _ => none

namespace RunTable
variable {k : RunTable} {run request : String} {c c' : Constellation} {events : List KernelEvent} {work work' : List Chore}
  {runs : AList fun _ : String => Constellation} {s : RequestState}

/-- Where the tables of a run say that one of its requests stands. -/
def Stands (work : List Chore) (run : String) (c : Constellation) (request : String) : RequestState → Prop
  | .fresh => c.pending.lookup request = none ∧ ∀ n, 1 ≤ n → n ≤ c.capSeq → request ≠ requestId c.scope n
  | .asked interrupted => c.pending.lookup request ≠ none ∧ (interrupted = true ↔ .settle run request ∈ work)
  | .settled => c.pending.lookup request = none ∧ ∃ n, 1 ≤ n ∧ n ≤ c.capSeq ∧ request = requestId c.scope n

def requests : Parties String RequestState where
  behaviour := requesting
  key := KernelEvent.request
  owns scope request := ∃ n, request = requestId scope n
  stands := Stands
  closed s := s = .settled

theorem Stands.of_open (h : Stands work run c request s) (hopen : c.pending.lookup request ≠ none) :
    ∃ interrupted, s = .asked interrupted ∧ (interrupted = true ↔ .settle run request ∈ work) := by
  cases s with
  | fresh => exact absurd h.1 hopen
  | asked interrupted => exact ⟨interrupted,rfl,h.2⟩
  | settled => exact absurd h.1 hopen

/-- Nothing happens to the request. -/
theorem Stands.same (h : Stands work run c request s) (hscope : c'.scope = c.scope)
    (hpending : c'.pending.lookup request = c.pending.lookup request) (hcapSeq : c'.capSeq = c.capSeq)
    (hsettle : .settle run request ∈ work' ↔ .settle run request ∈ work)
    (hevents : ∀ e ∈ events, e.request ≠ some request) :
    ∃ t, requesting.after s (about KernelEvent.request request events) = some t ∧ Stands work' run c' request t := by
  refine ⟨s,?_,?_⟩
  · rw [about_eq_nil _ hevents]
    rfl
  · cases s with
    | fresh =>
      unfold Stands at h ⊢
      rw [hpending,hcapSeq,hscope]
      exact h
    | asked interrupted =>
      unfold Stands at h ⊢
      rw [hpending,hsettle]
      exact h
    | settled =>
      unfold Stands at h ⊢
      rw [hpending,hcapSeq,hscope]
      exact h

theorem Stands.unasked (h : Stands work run c request s) (hscope : c'.scope = c.scope) (hunasked : Unasked c events c')
    (hsettle : .settle run request ∈ work' ↔ .settle run request ∈ work) :
    ∃ t, requesting.after s (about KernelEvent.request request events) = some t ∧ Stands work' run c' request t := by
  apply h.same hscope
  · rw [hunasked.pending]
  · exact hunasked.capSeq
  · exact hsettle
  · intro e he
    simp [hunasked.silent e he]

theorem request_respond (c : Constellation) (answered : String) (entry : Correlation) :
    ∀ e ∈ (c.respond answered entry).2.1, e.request = some answered := by
  intro e he
  cases events_respond c answered entry with
  | inl hreply =>
    rw [hreply] at he
    rw [List.mem_singleton.mp he]
    rfl
  | inr hdropped =>
    rw [hdropped] at he
    rw [List.mem_singleton.mp he]
    rfl

theorem Stands.respond (hc : Coherent (forgets work run) c) (h : Stands work run c request s) {answered : String} {entry : Correlation}
    (hentry : c.pending.lookup answered = some entry)
    (hsettle : request ≠ answered → (.settle run request ∈ work' ↔ .settle run request ∈ work)) :
    ∃ t, requesting.after s (about KernelEvent.request request (c.respond answered entry).2.1) = some t ∧
      Stands work' run (c.respond answered entry).1 request t := by
  rw [respond_closes]
  by_cases heq : request = answered
  · subst heq
    obtain ⟨interrupted,rfl,_⟩ := h.of_open (by simp [hentry])
    refine ⟨.settled,?_,?_⟩
    · cases events_respond c request entry with
      | inl hreply =>
        rw [hreply,about_singleton _ (by rfl),after_singleton]
        cases interrupted <;> rfl
      | inr hdropped =>
        rw [hdropped,about_singleton _ (by rfl),after_singleton]
        cases interrupted <;> rfl
    · exact ⟨AList.lookup_erase _ _,hc.minted request entry hentry⟩
  · apply h.same
    · rfl
    · exact AList.lookup_erase_ne heq
    · rfl
    · exact hsettle heq
    · intro e he
      rw [request_respond c answered entry e he]
      simpa using Ne.symm heq

theorem Stands.invoke (hc : Coherent (forgets work run) c) (hsettling : Settling runs work) (hrun : runs.lookup run = some c)
    {n : Nat} (hscope : c.scope = scopeOf n) (h : Stands work run c request s) (id : String) (ref : LuaValue) :
    ∃ t, requesting.after s (about KernelEvent.request request (c.onCapabilityInvoke id ref).2) = some t ∧
      Stands work run (c.onCapabilityInvoke id ref).1 request t := by
  have hnew : ∀ m, m ≤ c.capSeq → requestId c.scope (c.capSeq + 1) ≠ requestId c.scope m := by
    intro m hm heq
    rw [hscope] at heq
    have := (requestId_inj heq).2
    omega
  unfold onCapabilityInvoke
  dsimp only
  by_cases heq : request = requestId c.scope (c.capSeq + 1)
  · subst heq
    have hclosed : c.pending.lookup (requestId c.scope (c.capSeq + 1)) = none := by
      cases hentry : c.pending.lookup (requestId c.scope (c.capSeq + 1)) with
      | none => rfl
      | some entry =>
        obtain ⟨m,_,hm,hminted⟩ := hc.minted _ entry hentry
        exact absurd hminted (hnew m hm)
    have hidle : .settle run (requestId c.scope (c.capSeq + 1)) ∉ work := by
      intro hmem
      obtain ⟨other,hother,hopen⟩ := hsettling.isOpen hmem
      cases hrun.symm.trans hother
      exact hopen hclosed
    cases s with
    | fresh =>
      refine ⟨.asked false,?_,?_⟩
      · rw [about_singleton _ (by rfl)]
        rfl
      · refine ⟨?_,?_⟩
        · dsimp only
          rw [AList.lookup_insert]
          simp
        · simp [hidle]
    | asked interrupted => exact absurd hclosed h.1
    | settled =>
      obtain ⟨_,m,_,hm,hminted⟩ := h
      exact absurd hminted (hnew m hm)
  · refine ⟨s,?_,?_⟩
    · rw [about_eq_nil]
      · rfl
      · intro e he
        rw [List.mem_singleton.mp he]
        simpa [KernelEvent.request] using Ne.symm heq
    · cases s with
      | fresh =>
        obtain ⟨hpending,hfresh⟩ := h
        refine ⟨(AList.lookup_insert_ne heq).trans hpending,?_⟩
        intro m hone hm hminted
        dsimp only at hm hminted
        by_cases hlast : m = c.capSeq + 1
        · subst hlast
          exact heq hminted
        · exact hfresh m hone (by omega) hminted
      | asked interrupted =>
        refine ⟨?_,h.2⟩
        dsimp only
        rw [AList.lookup_insert_ne heq]
        exact h.1
      | settled =>
        obtain ⟨hpending,m,hone,hm,hminted⟩ := h
        exact ⟨(AList.lookup_insert_ne heq).trans hpending,m,hone,by dsimp only; omega,hminted⟩

/-- The requests of an actor that is killed are cancelled. -/
theorem Stands.kill (hc : Coherent (forgets work run) c) (h : Stands work run c request s) {id : String} {actor : Actor}
    (hactor : c.actors.lookup id = some actor) (halive : actor.alive = true)
    (hidle : .settle run request ∉ work) (hidle' : .settle run request ∉ work') :
    ∃ t, requesting.after s (about KernelEvent.request request (c.kill id).2.1) = some t ∧
      Stands work' run (c.kill id).1 request t := by
  obtain ⟨signaling,hkill,_⟩ := kill_alive hactor halive
  have hdied : ∀ events, about KernelEvent.request request (.died c.scope id :: events) =
      about KernelEvent.request request events := fun events => rfl
  rw [hkill,hdied]
  dsimp only
  by_cases hmem : request ∈ c.requestsOf id
  · obtain ⟨entry,hentry,_⟩ := mem_requestsOf.mp hmem
    obtain ⟨interrupted,rfl,hinterrupted⟩ := h.of_open (by simp [hentry])
    have hfalse : interrupted = false := by
      rw [Bool.eq_false_iff]
      exact fun htrue => hidle (hinterrupted.mp htrue)
    subst hfalse
    refine ⟨.settled,?_,?_⟩
    · rw [about_map KernelEvent.request (f := fun request => .cancel request .kill) (fun _ => rfl) (nodup_requestsOf c id) hmem,
        after_singleton]
      rfl
    · refine ⟨?_,hc.minted request entry hentry⟩
      dsimp only
      rw [lookup_foldl_erase,if_pos hmem]
  · apply h.same
    · rfl
    · dsimp only
      rw [lookup_foldl_erase,if_neg hmem]
    · rfl
    · simp [hidle,hidle']
    · intro e he
      obtain ⟨other,hother,rfl⟩ := List.mem_map.mp he
      rintro ⟨⟩
      exact hmem hother

/-- Every open request is cancelled, and is settled next. -/
theorem Stands.interrupt (h : Stands [] run c request s) :
    ∃ t, requesting.after s (about KernelEvent.request request
        ((c.pending.keys.insertionSort (· ≤ ·)).map fun request => .cancel request .interrupt)) = some t ∧
      Stands ((c.pending.keys.insertionSort (· ≤ ·)).map (.settle run)) run c request t := by
  have hkeys : request ∈ c.pending.keys.insertionSort (· ≤ ·) ↔ c.pending.lookup request ≠ none := by
    rw [List.mem_insertionSort,← AList.mem_keys,← AList.lookup_isSome,Option.isSome_iff_ne_none]
  have hnodup : (c.pending.keys.insertionSort (· ≤ ·)).Nodup :=
    (List.perm_insertionSort _ _).nodup_iff.mpr c.pending.nodupKeys
  by_cases hmem : request ∈ c.pending.keys.insertionSort (· ≤ ·)
  · obtain ⟨interrupted,rfl,hinterrupted⟩ := h.of_open (hkeys.mp hmem)
    have hfalse : interrupted = false := by
      rw [Bool.eq_false_iff]
      intro htrue
      cases hinterrupted.mp htrue
    subst hfalse
    refine ⟨.asked true,?_,hkeys.mp hmem,?_⟩
    · rw [about_map KernelEvent.request (f := fun request => .cancel request .interrupt) (fun _ => rfl) hnodup hmem,
        after_singleton]
      rfl
    · simpa using hmem
  · apply h.same rfl rfl rfl
    · simpa using hmem
    · intro e he
      obtain ⟨other,hother,rfl⟩ := List.mem_map.mp he
      rintro ⟨⟩
      exact hmem hother

/-- What is being settled of the other runs. -/
theorem RunStep.settles (h : RunStep run c work events c' work') {run' : String} (hne : run' ≠ run) :
    .settle run' request ∈ work' ↔ .settle run' request ∈ work := by
  cases h with
  | applied => simp [Modification.tasks]
  | interrupt => simp [Ne.symm hne]
  | settle => simp [hne]
  | spawn | send | kill | spare | forget | drained | respond | rejected | drain | endRun | construct | constructed
  | unconstructed | activate | returned | emit => simp

/-- The events of a step are about requests that the run minted. -/
theorem RunStep.minted (h : RunStep run c work events c' work') (hc : Coherent (forgets work run) c) :
    ∀ e ∈ events, ∀ request, e.request = some request → ∃ n, request = requestId c.scope n := by
  have hopen : ∀ {request}, c.pending.lookup request ≠ none → ∃ n, request = requestId c.scope n := by
    intro request hopen
    obtain ⟨entry,hentry⟩ := Option.ne_none_iff_exists'.mp hopen
    obtain ⟨n,_,_,hn⟩ := hc.minted request entry hentry
    exact ⟨n,hn⟩
  have hrespond : ∀ {answered entry}, c.pending.lookup answered = some entry →
      ∀ e ∈ (c.respond answered entry).2.1, ∀ request, e.request = some request → ∃ n, request = requestId c.scope n := by
    intro answered entry hentry e he request hkey
    cases (request_respond c answered entry e he).symm.trans hkey
    exact hopen (by simp [hentry])
  have hsilent : ∀ {events : List KernelEvent}, (∀ e ∈ events, e.request = none) →
      ∀ e ∈ events, ∀ request, e.request = some request → ∃ n, request = requestId c.scope n := by
    intro events hnone e he request hkey
    cases (hnone e he).symm.trans hkey
  cases h with
  | spawn => exact hsilent (unasked_spawn c _ _).silent
  | send => exact hsilent (unasked_send c _).silent
  | @kill id rest halive =>
    obtain ⟨actor,hactor,hlive⟩ := isAlive_iff.mp halive
    obtain ⟨signaling,hkill,_⟩ := kill_alive hactor hlive
    rw [hkill]
    intro e he request hkey
    cases List.mem_cons.mp he with
    | inl heq =>
      rw [heq] at hkey
      cases hkey
    | inr hcancel =>
      obtain ⟨other,hother,rfl⟩ := List.mem_map.mp hcancel
      cases hkey
      obtain ⟨entry,hentry,_⟩ := mem_requestsOf.mp hother
      exact hopen (by simp [hentry])
  | forget => exact hsilent (by simp [Constellation.forget,KernelEvent.request])
  | settle hentry => exact hrespond hentry
  | respond hentry => exact hrespond hentry
  | rejected => exact hsilent (by simp [KernelEvent.request])
  | interrupt =>
    intro e he request hkey
    obtain ⟨other,hother,rfl⟩ := List.mem_map.mp he
    cases hkey
    rw [List.mem_insertionSort,← AList.mem_keys,← AList.lookup_isSome,Option.isSome_iff_ne_none] at hother
    exact hopen hother
  | unconstructed => exact hsilent (by simp [KernelEvent.request])
  | activate => exact hsilent (unasked_markBusy c _ _).silent
  | returned => exact hsilent (unasked_applyCompletion c _ _ _).silent
  | @emit work id generation message now =>
    cases onEmit_asks c id generation message now with
    | inl hunasked => exact hsilent hunasked.silent
    | inr hasks =>
      obtain ⟨ref,_,heq⟩ := hasks
      rw [heq]
      intro e he request hkey
      rw [List.mem_singleton.mp he] at hkey
      cases hkey
      exact ⟨c.capSeq + 1,rfl⟩
  | spare | drained | applied | drain | endRun | construct | constructed => exact hsilent (by simp)

theorem requests_lawful : requests.Lawful where
  owner n m request hn hm := by
    obtain ⟨i,rfl⟩ := hn
    obtain ⟨j,heq⟩ := hm
    exact (requestId_inj heq).1
  begins run n sessionId request := by
    refine ⟨rfl,?_⟩
    intro m hone hm
    exact absurd (hone.trans hm) (by simp [Constellation.new])
  own := by
    intro runs run c work events c' work' hstep hrun hc ho e he request hkey
    exact hstep.minted hc e he request hkey
  follows := by
    intro runs run c work events c' work' n hstep hrun hscope hc ho hsettling request s _ h
    have hkept := hstep.scope
    have hrest : ∀ {task : Chore} {rest : List Chore}, (∀ run request, task ≠ .settle run request) →
        (.settle run request ∈ rest ↔ .settle run request ∈ task :: rest) := by
      intro task rest htask
      rw [List.mem_cons,or_iff_right (Ne.symm (htask run request))]
    cases hstep with
    | spawn => exact h.unasked hkept (unasked_spawn c _ _) (hrest (by simp))
    | send => exact h.unasked hkept (unasked_send c _) (hrest (by simp))
    | @kill id rest halive =>
      obtain ⟨actor,hactor,hlive⟩ := isAlive_iff.mp halive
      have hidle := hsettling.alone (by simp) run request
      exact h.kill hc hactor hlive (by simpa using hidle) (by simpa using hidle)
    | spare => exact h.unasked hkept ⟨rfl,rfl,by simp⟩ (hrest (by simp))
    | forget => exact h.unasked hkept ⟨rfl,rfl,by simp [Constellation.forget,KernelEvent.request]⟩ (hrest (by simp))
    | drained => exact h.unasked hkept ⟨rfl,rfl,by simp⟩ (hrest (by simp))
    | settle hentry =>
      apply h.respond hc hentry
      intro hne
      simp [hne]
    | respond hentry => exact h.respond hc hentry fun _ => Iff.rfl
    | rejected => exact h.unasked hkept ⟨rfl,rfl,by simp [KernelEvent.request]⟩ Iff.rfl
    | applied => exact h.unasked hkept ⟨rfl,rfl,by simp⟩ (by simp [Modification.tasks])
    | interrupt => exact h.interrupt
    | drain => exact h.unasked hkept ⟨rfl,rfl,by simp⟩ (by simp)
    | endRun => exact h.unasked hkept ⟨rfl,rfl,by simp⟩ (by simp)
    | construct => exact h.unasked hkept ⟨rfl,rfl,by simp⟩ Iff.rfl
    | constructed => exact h.unasked hkept ⟨rfl,rfl,by simp⟩ Iff.rfl
    | unconstructed => exact h.unasked hkept ⟨rfl,rfl,by simp [KernelEvent.request]⟩ Iff.rfl
    | activate => exact h.unasked hkept (unasked_markBusy c _ _) Iff.rfl
    | returned => exact h.unasked hkept (unasked_applyCompletion c _ _ _) Iff.rfl
    | @emit work id generation message now =>
      cases onEmit_asks c id generation message now with
      | inl hunasked => exact h.unasked hkept hunasked Iff.rfl
      | inr hasks =>
        obtain ⟨ref,_,heq⟩ := hasks
        rw [heq]
        exact h.invoke hc hsettling hrun hscope id ref
  others := by
    intro run c work events c' work' hstep run' hne other request s h
    cases s with
    | fresh => exact h
    | asked interrupted => exact ⟨h.1,h.2.trans (hstep.settles hne).symm⟩
    | settled => exact h
  skipped := by
    intro task rest run hne other request s h
    cases s with
    | fresh => exact h
    | asked interrupted =>
      refine ⟨h.1,h.2.trans ?_⟩
      rw [List.mem_cons,or_iff_right]
      rintro rfl
      exact hne rfl
    | settled => exact h
  ends := by
    intro run c hc hdead request s h
    cases s with
    | fresh => exact .inl rfl
    | asked interrupted =>
      obtain ⟨entry,hentry⟩ := Option.ne_none_iff_exists'.mp h.1
      have halive := hc.requester request entry hentry
      rw [hdead] at halive
      cases halive
    | settled => exact .inr rfl

/-- However the runs interleave, a request is made once and is then settled once at most: by one reply to the
actor that asked, or by one cancellation when that actor is killed, and never after. An interrupt cancels and
settles it. It is open for as long as a live run keeps it, whose actor that asked is alive; nothing stays
interrupted when the host's call is done, and a run that is over has nothing open. -/
theorem requests_settled {registry : LuaValue → List String} {acts : List Act} (h : Trace (Next registry) new acts k)
    (request : String) : ∃ s, requesting.after requesting.start (about KernelEvent.request request k.log) = some s ∧
      (∀ interrupted, s = .asked interrupted → ∃ run c entry, k.runs.lookup run = some c ∧
        c.pending.lookup request = some entry ∧ c.isAlive entry.requester = true ∧
        (interrupted = true ↔ .settle run request ∈ k.work)) ∧
      (∀ run c, k.runs.lookup run = some c → c.pending.lookup request ≠ none → ∃ interrupted, s = .asked interrupted) := by
  obtain ⟨hs,hk⟩ := requests_lawful.followed h
  obtain ⟨s,hafter,hview⟩ := hk request
  refine ⟨s,hafter,?_,?_⟩
  · rintro interrupted rfl
    cases hview with
    | inl hlive =>
      obtain ⟨run,c,hrun,_,hopen,hinterrupted⟩ := hlive
      obtain ⟨entry,hentry⟩ := Option.ne_none_iff_exists'.mp hopen
      exact ⟨run,c,entry,hrun,hentry,(hs.coherent run c hrun).requester request entry hentry,hinterrupted⟩
    | inr hgone =>
      cases hgone.2 with
      | inl hstart => cases hstart
      | inr hover => cases hover.1
  · intro run c hrun hopen
    obtain ⟨entry,hentry⟩ := Option.ne_none_iff_exists'.mp hopen
    obtain ⟨n,_,_,hn⟩ := (hs.coherent run c hrun).minted request entry hentry
    cases hview with
    | inl hlive =>
      obtain ⟨run',c',hrun',howns,hstands⟩ := hlive
      obtain rfl := requests_lawful.same_run hs hrun hrun' (show requests.owns c.scope request from ⟨n,hn⟩) howns
      cases hrun.symm.trans hrun'
      obtain ⟨interrupted,hs,_⟩ := Stands.of_open hstands hopen
      exact ⟨interrupted,hs⟩
    | inr hgone => exact absurd ⟨n,hn⟩ (hgone.1 run c hrun)

theorem requests_settled_invoked : ∃ k : RunTable, k.log = [.spawned "r1" "x",.invoke "r1/cap-1" "r1" "x"] ∧
    ∃ s, requesting.after requesting.start (about KernelEvent.request "r1/cap-1" k.log) = some s ∧
      (∀ interrupted, s = .asked interrupted → ∃ run c entry, k.runs.lookup run = some c ∧
        c.pending.lookup "r1/cap-1" = some entry ∧ c.isAlive entry.requester = true ∧
        (interrupted = true ↔ .settle run "r1/cap-1" ∈ k.work)) ∧
      (∀ run c, k.runs.lookup run = some c → c.pending.lookup "r1/cap-1" ≠ none → ∃ interrupted, s = .asked interrupted) := by
  have hbegin : Next (fun _ => []) new (.beginRun "a" (.str "s")) (begun []) :=
    .beginRun ⟨rfl,rfl⟩ (by decide) rfl fun _ _ h => by cases h
  have happly : Next (fun _ => []) (begun []) (.apply "a" (.record [("actors",.array [echoActor])]))
      (begun [.spawn "a" "x" echoActor]) :=
    Next.applied (k := begun []) (m := ⟨[("x",echoActor)],[],[]⟩) ⟨rfl,rfl⟩ (AList.lookup_insert _) rfl
  have hwork : Next (fun _ => []) (begun [.spawn "a" "x" echoActor]) .work ((begun []).perform (.spawn "a" "x" echoActor)) :=
    .work rfl rfl
  have htrace : Trace (Next (fun _ => [])) new [.beginRun "a" (.str "s"),.apply "a" (.record [("actors",.array [echoActor])]),
      .work,.construct "a" "x",.constructed (some ⟨true,false,false⟩),.emit "a" "x" 1 (.capabilityInvoke .nil) 0] _ :=
    .cons hbegin (.cons happly (.cons hwork (.cons (.construct rfl rfl rfl) (.cons (.constructed rfl rfl)
      (.cons (.emit rfl) (.nil _))))))
  exact ⟨_,rfl,requests_settled htrace "r1/cap-1"⟩

end RunTable
end Nefor.Kernel
