import Nefor.Kernel.RunSteps
import Nefor.Trace

/-! All runs of the kernel: whatever happens is a step of one run, a run that begins or a run that is
dropped. A property of the log that every step of a run keeps holds of all runs. -/
namespace Nefor.Kernel
open Nefor.Lua Behaviour Constellation

namespace RunTable
variable {k k' : RunTable} {run run' id request : String} {c c' : Constellation} {events : List KernelEvent}
  {work work' rest : List Chore} {task : Chore} {runs runs' : AList fun _ : String => Constellation}

theorem Orderly.congr (h : Orderly runs work) (hsame : ∀ run, runs'.lookup run = runs.lookup run) : Orderly runs' work := by
  refine ⟨h.forget,?_,h.named,?_⟩
  · simpa only [hsame] using h.dead
  · simpa only [Live,hsame] using h.drop

theorem Settling.congr (h : Settling runs work) (hsame : ∀ run, runs'.lookup run = runs.lookup run) : Settling runs' work := by
  unfold Settling Open at h ⊢
  simpa only [hsame] using h

/-- A run went on; what else there is stayed as it was. -/
structure Moved (k : RunTable) (run : String) (c' : Constellation) (events : List KernelEvent) (work' : List Chore)
    (k' : RunTable) : Prop where
  runs : ∀ run', k'.runs.lookup run' = (k.runs.insert run c').lookup run'
  runSeq : k'.runSeq = k.runSeq
  work : k'.work = work'
  log : k'.log = k.log ++ events
  calls : ∀ call ∈ k'.calls, Live k'.runs call.run call.id

inductive Move (k : RunTable) : RunTable → Prop
  | step {run : String} {c c' : Constellation} {events : List KernelEvent} {work' : List Chore} {k' : RunTable} :
    k.runs.lookup run = some c → RunStep run c k.work events c' work' → Moved k run c' events work' k' → Move k k'
  | begun {run : String} {sessionId : LuaValue} : k.Idle → k.runs.lookup run = none →
    Move k { k with runSeq := k.runSeq + 1, runs := k.runs.insert run (.new (scopeOf (k.runSeq + 1)) sessionId) }
  | dropped {run : String} {rest : List Chore} : k.calls = [] → k.work = .drop run :: rest →
    Move k { k with work := rest, runs := k.runs.erase run }
  /-- There is no such run. -/
  | skipped {task : Chore} {rest : List Chore} : k.calls = [] → k.work = task :: rest → k.runs.lookup task.run = none →
    Move k { k with work := rest }
  | called {calls : List Call} : (∀ call ∈ calls, Live k.runs call.run call.id) → Move k { k with calls := calls }

theorem lookup_put_self (hrun : k.runs.lookup run = some c) (run' : String) :
    k.runs.lookup run' = (k.runs.insert run c).lookup run' := by
  rw [lookup_insert_ite]
  split
  · next heq => rw [heq,hrun]
  · rfl

theorem live_framed (h : Framed c c') (hrun : k.runs.lookup run = some c) (hlive : Live k.runs run' id) :
    Live (k.runs.insert run c') run' id := by
  obtain ⟨other,hother,halive⟩ := hlive
  by_cases heq : run' = run
  · subst heq
    cases hrun.symm.trans hother
    exact ⟨c',AList.lookup_insert _,(h.isAlive id).trans halive⟩
  · exact ⟨other,(AList.lookup_insert_ne heq).trans hother,halive⟩

/-- A response, to a request that is open. -/
theorem settle_move {entry : Correlation} (hcalls : k.calls = []) (hrun : k.runs.lookup run = some c)
    (hentry : c.pending.lookup request = some entry)
    (hstep : RunStep run c k.work (c.respond request entry).2.1 (c.respond request entry).1 rest) :
    Move k ({ k with work := rest }.perform (.settle run request)) := by
  unfold perform
  dsimp only
  rw [hrun]
  dsimp only
  rw [hentry]
  dsimp only
  cases htarget : (c.respond request entry).2.2 with
  | none => exact .step hrun hstep ⟨fun _ => rfl,rfl,rfl,rfl,by simp [update,hcalls]⟩
  | some id =>
    apply Move.step hrun hstep
    refine ⟨fun _ => rfl,rfl,rfl,rfl,?_⟩
    intro call hcall
    dsimp only [update] at hcall
    rw [hcalls] at hcall
    cases List.mem_singleton.mp hcall
    exact live_framed (framed_respond c request entry) hrun ⟨c,hrun,isAlive_respond htarget⟩

theorem perform_move (hs : Sound k) (hcalls : k.calls = []) (hwork : k.work = task :: rest) :
    Move k ({ k with work := rest }.perform task) := by
  have hmoved : ∀ {run c' events work'}, Moved k run c' events work'
      { k with runs := k.runs.insert run c', work := work', log := k.log ++ events } := fun {run c' events work'} =>
    ⟨fun _ => rfl,rfl,rfl,rfl,by simp [hcalls]⟩
  have hstep : ∀ {run c c' events work'}, k.runs.lookup run = some c → RunStep run c (task :: rest) events c' work' →
      Move k { k with runs := k.runs.insert run c', work := work', log := k.log ++ events } := by
    intro run c c' events work' hrun hstep
    exact .step hrun (by rw [hwork]; exact hstep) hmoved
  have hskip : ∀ {run}, task.run = run → k.runs.lookup run = none → Move k { k with work := rest } := by
    rintro run rfl hrun
    exact .skipped hcalls hwork hrun
  cases task with
  | spawn run id actor =>
    unfold perform
    dsimp only
    cases hrun : k.runs.lookup run with
    | none => exact hskip rfl hrun
    | some c => exact hstep hrun .spawn
  | send run target =>
    unfold perform
    dsimp only
    cases hrun : k.runs.lookup run with
    | none => exact hskip rfl hrun
    | some c =>
      exact .step hrun (by rw [hwork]; exact .send) ⟨lookup_put_self hrun,rfl,rfl,rfl,by simp [RunTable.emit,hcalls]⟩
  | kill run id =>
    unfold perform
    dsimp only
    cases hrun : k.runs.lookup run with
    | none => exact hskip rfl hrun
    | some c =>
      dsimp only
      cases halive : c.isAlive id with
      | false =>
        rw [kill_dead halive]
        exact hstep hrun (.spare halive)
      | true =>
        obtain ⟨actor,hactor,hlive⟩ := isAlive_iff.mp halive
        obtain ⟨signaling,hkill,_⟩ := kill_alive hactor hlive
        have hdied : (c.kill id).2.2 = true := by rw [hkill]
        rw [if_pos hdied]
        exact hstep hrun (.kill halive)
  | forget run id =>
    unfold perform
    dsimp only
    cases hrun : k.runs.lookup run with
    | none => exact hskip rfl hrun
    | some c => exact hstep hrun .forget
  | drained run id =>
    unfold perform
    dsimp only
    cases hrun : k.runs.lookup run with
    | none => exact hskip rfl hrun
    | some c => exact hstep hrun .drained
  | settle run request =>
    have hsettling := hs.settling
    rw [hwork] at hsettling
    obtain ⟨⟨c,hrun,hopen⟩,_⟩ := hsettling.head
    obtain ⟨entry,hentry⟩ := Option.ne_none_iff_exists'.mp hopen
    exact settle_move hcalls hrun hentry (by rw [hwork]; exact .settle hentry)
  | drop run => exact .dropped hcalls hwork

theorem mem_claimant (h : k.claimant request = some run) : Open k.runs run request := by
  unfold claimant at h
  obtain ⟨e,he,heq⟩ := Option.map_eq_some_iff.mp h
  subst heq
  have hmem := List.mem_of_find?_eq_some he
  have hsome := List.find?_some he
  refine ⟨e.2,AList.mem_lookup_iff.mpr hmem,?_⟩
  exact Option.isSome_iff_ne_none.mp hsome

/-- Whatever happens is one of these. -/
theorem Next.move {registry : LuaValue → List String} {a : Act} (hs : Sound k) (h : Next registry k a k') : Move k k' := by
  have hcons : ∀ {run id c call}, k.runs.lookup run = some c → c.isAlive id = true → call = .deliver run id ∨ call ∈ k.calls →
      Live k.runs call.run call.id := by
    intro run id c call hrun halive hcall
    cases hcall with
    | inl heq =>
      rw [heq]
      exact ⟨c,hrun,halive⟩
    | inr hold => exact hs.calls call hold
  have hhead : ∀ {call rest c}, k.calls = call :: rest → k.runs.lookup call.run = some c → c.isAlive call.id = true := by
    intro call rest c hcalls hrun
    obtain ⟨other,hother,halive⟩ := hs.calls call (by rw [hcalls]; exact List.mem_cons_self)
    cases hrun.symm.trans hother
    exact halive
  have hrest : ∀ {call rest}, k.calls = call :: rest → ∀ call ∈ rest, Live k.runs call.run call.id := by
    intro call rest hcalls other hother
    apply hs.calls
    rw [hcalls]
    exact List.mem_cons_of_mem _ hother
  have hmoved : ∀ {run c c' events calls}, k.runs.lookup run = some c → Framed c c' →
      (∀ call ∈ calls, Live k.runs call.run call.id) → RunStep run c k.work events c' k.work →
      Move k { k with runs := k.runs.insert run c', calls := calls, log := k.log ++ events } := by
    intro run c c' events calls hrun hframed hcalls hstep
    exact .step hrun hstep ⟨fun _ => rfl,rfl,rfl,rfl,fun call hcall => live_framed hframed hrun (hcalls call hcall)⟩
  cases h with
  | beginRun hidle hname hnone hsession => exact .begun hidle hnone
  | @rejected run error mod c hidle hrun hvalid =>
    exact .step hrun (by rw [hidle.2]; exact .rejected) ⟨lookup_put_self hrun,rfl,hidle.2,rfl,hs.calls⟩
  | @applied run mod m c hidle hrun hvalid =>
    apply Move.step hrun (by rw [hidle.2]; exact .applied (validate_named hvalid))
    exact ⟨lookup_put_self hrun,rfl,rfl,by simp,hs.calls⟩
  | unclaimed hidle hnone => exact .called hs.calls
  | @claimed run request hidle hclaim =>
    obtain ⟨c,hrun,hopen⟩ := mem_claimant hclaim
    obtain ⟨entry,hentry⟩ := Option.ne_none_iff_exists'.mp hopen
    have hwork : { k with work := [] } = k := by rw [← hidle.2]
    have hmove : Move k ({ k with work := [] }.perform (.settle run request)) := by
      apply settle_move hidle.1 hrun hentry
      rw [hidle.2]
      exact .respond hentry
    rw [hwork] at hmove
    exact hmove
  | @interrupt run c hidle hrun =>
    apply Move.step hrun (by rw [hidle.2]; exact .interrupt)
    exact ⟨lookup_put_self hrun,rfl,rfl,rfl,hs.calls⟩
  | @drain run id c made hidle hrun hmade hdrain =>
    have hstep : RunStep run c k.work [] { c with signaling := insert id c.signaling } [.drained run id] := by
      rw [hidle.2]
      exact .drain (by rw [hmade]; simp)
    exact .step hrun hstep ⟨fun _ => rfl,rfl,rfl,by simp,by simp [hidle.1]⟩
  | resume hidle hrun halive =>
    apply Move.called
    intro call hcall
    exact hcons hrun halive (.inl (List.mem_singleton.mp hcall))
  | @endRun run c hidle hrun =>
    rw [validate_leftovers (hs.coherent _ _ hrun)]
    apply Move.step hrun (by rw [hidle.2]; exact .endRun)
    exact ⟨lookup_put_self hrun,rfl,rfl,by simp,hs.calls⟩
  | work hcalls hwork => exact perform_move hs hcalls hwork
  | @construct run id c hrun halive hnone =>
    apply Move.step hrun .construct
    refine ⟨fun _ => rfl,rfl,rfl,by simp,?_⟩
    intro call hcall
    refine live_framed ?_ hrun ?_
    · exact ⟨rfl,rfl⟩
    · cases List.mem_cons.mp hcall with
      | inl heq =>
        rw [heq]
        exact ⟨c,hrun,halive⟩
      | inr hold => exact hs.calls call hold
  | @constructed run id c rest made hcalls hrun =>
    apply Move.step hrun (.constructed (hhead hcalls hrun))
    refine ⟨fun _ => rfl,rfl,rfl,by simp,?_⟩
    intro call hcall
    refine live_framed ?_ hrun (hrest hcalls call hcall)
    exact ⟨rfl,rfl⟩
  | unconstructed hcalls hrun =>
    apply Move.step hrun (.unconstructed (hhead hcalls hrun))
    exact ⟨lookup_put_self hrun,rfl,rfl,rfl,hrest hcalls⟩
  | activate hrun halive hmade hdeliver =>
    apply hmoved hrun (framed_markBusy _ _ _) _ (.activate halive)
    exact fun call hcall => hcons hrun halive (List.mem_cons.mp hcall)
  | bypass hrun halive hmade hdeliver => exact .called fun call hcall => hcons hrun halive (List.mem_cons.mp hcall)
  | returned hcalls hrun => exact hmoved hrun (framed_applyCompletion _ _ _ _) (hrest hcalls) (.returned (hhead hcalls hrun))
  | emit hrun => exact hmoved hrun (framed_onEmit _ _ _ _ _) hs.calls .emit

theorem Move.sound (h : Move k k') (hs : Sound k) : Sound k' := by
  cases h with
  | @step run c c' events work' k' hrun hstep hmoved =>
    have hlookup : ∀ {run' other}, k'.runs.lookup run' = some other →
        ∃ old, k.runs.lookup run' = some old ∧ other.scope = old.scope := by
      intro run' other h
      rw [hmoved.runs,lookup_insert_ite] at h
      split at h
      · next heq =>
        cases h
        exact ⟨c,heq ▸ hrun,hstep.scope⟩
      · exact ⟨other,h,rfl⟩
    refine ⟨?_,?_,?_,hmoved.calls,?_,?_⟩
    · intro run' other h
      obtain ⟨old,hold,heq⟩ := hlookup h
      rw [heq,hmoved.runSeq]
      exact hs.scopes run' old hold
    · intro run₁ run₂ other₁ other₂ h₁ h₂ heq
      obtain ⟨old₁,hold₁,heq₁⟩ := hlookup h₁
      obtain ⟨old₂,hold₂,heq₂⟩ := hlookup h₂
      exact hs.distinct run₁ run₂ old₁ old₂ hold₁ hold₂ (heq₁.symm.trans (heq.trans heq₂))
    · intro run' other h
      rw [hmoved.runs,lookup_insert_ite] at h
      rw [hmoved.work]
      split at h
      · next heq =>
        cases h
        rw [heq]
        exact hstep.coherent hs.orderly (hs.coherent run c hrun)
      · next hne => exact (hs.coherent run' other h).settled fun id => (hstep.others hne id).symm
    · rw [hmoved.work]
      exact (hstep.orderly hrun hs.orderly).congr hmoved.runs
    · rw [hmoved.work]
      exact (hstep.settling hrun hs.settling).congr hmoved.runs
  | @begun run sessionId hidle hnone =>
    have hfresh : ∀ {run' c}, k.runs.lookup run' = some c → c.scope ≠ scopeOf (k.runSeq + 1) := by
      intro run' c h heq
      obtain ⟨n,_,hn,hscope⟩ := hs.scopes run' c h
      have := scopeOf_inj (hscope.symm.trans heq)
      omega
    refine ⟨?_,?_,?_,?_,?_,?_⟩
    · intro run' c h
      dsimp only at h ⊢
      rw [lookup_insert_ite] at h
      split at h
      · cases h
        exact ⟨k.runSeq + 1,by omega,by omega,rfl⟩
      · obtain ⟨n,hone,hn,hscope⟩ := hs.scopes run' c h
        exact ⟨n,hone,by omega,hscope⟩
    · intro run₁ run₂ c₁ c₂ h₁ h₂ heq
      dsimp only at h₁ h₂
      rw [lookup_insert_ite] at h₁ h₂
      split at h₁
      · next heq₁ =>
        split at h₂
        · next heq₂ => rw [heq₁,heq₂]
        · cases h₁
          exact absurd heq.symm (hfresh h₂)
      · split at h₂
        · cases h₂
          exact absurd heq (hfresh h₁)
        · exact hs.distinct run₁ run₂ c₁ c₂ h₁ h₂ heq
    · intro run' c h
      dsimp only at h
      rw [lookup_insert_ite] at h
      split at h
      · cases h
        exact Coherent.new _ _
      · exact hs.coherent run' c h
    · intro call hcall
      dsimp only at hcall
      rw [hidle.1] at hcall
      cases hcall
    · dsimp only
      rw [hidle.2]
      exact Orderly.nil
    · dsimp only
      rw [hidle.2]
      exact .inr (by simp)
  | @dropped run rest hcalls hwork =>
    have horderly := hs.orderly
    rw [hwork] at horderly
    obtain ⟨rfl,_,_⟩ := horderly.drop [] run rest rfl
    have hlookup : ∀ {run' c}, (k.runs.erase run).lookup run' = some c → k.runs.lookup run' = some c := by
      intro run' c h
      rw [lookup_erase_ite] at h
      split at h
      · cases h
      · exact h
    refine ⟨?_,?_,?_,?_,Orderly.nil,.inr (by simp)⟩
    · exact fun run' c h => hs.scopes run' c (hlookup h)
    · exact fun run₁ run₂ c₁ c₂ h₁ h₂ heq => hs.distinct run₁ run₂ c₁ c₂ (hlookup h₁) (hlookup h₂) heq
    · intro run' c h
      apply (hs.coherent run' c (hlookup h)).settled
      intro id
      rw [hwork]
      rfl
    · intro call hcall
      dsimp only at hcall
      rw [hcalls] at hcall
      cases hcall
  | @skipped task rest hcalls hwork hnone =>
    have horderly := hs.orderly
    have hsettling := hs.settling
    rw [hwork] at horderly hsettling
    have hlive : ∀ {run}, k.runs.lookup run = none → ∀ id, ¬Live k.runs run id := by
      rintro run hrun id ⟨c,hc,_⟩
      cases hrun.symm.trans hc
    have htask : ∀ run id, task ≠ .forget run id := by
      rintro run id rfl
      obtain ⟨c,actor,hrun,_⟩ := horderly.dead run id List.mem_cons_self
      cases hnone.symm.trans hrun
    refine ⟨hs.scopes,hs.distinct,?_,hs.calls,?_,?_⟩
    · intro run c hrun
      apply (hs.coherent run c hrun).settled
      intro id
      rw [hwork]
      cases task with
      | forget run' id' => exact absurd rfl (htask run' id')
      | spawn | send | kill | drained | settle | drop => rfl
    · apply horderly.tail
      intro _ run id hid
      refine ⟨hid,?_⟩
      rintro rfl
      exact hlive hnone id hid
    · cases task with
      | settle run request =>
        obtain ⟨⟨c,hrun,_⟩,_⟩ := hsettling.head
        cases hnone.symm.trans hrun
      | spawn | send | kill | forget | drained | drop => exact .inr (hsettling.alone (by simp))
  | called hcalls => exact ⟨hs.scopes,hs.distinct,hs.coherent,hcalls,hs.orderly,hs.settling⟩

theorem sound_new : Sound new := by
  refine ⟨?_,?_,?_,?_,Orderly.nil,.inr (by simp [new])⟩
  · exact fun run c h => by cases h
  · exact fun run run' c c' h => by cases h
  · exact fun run c h => by cases h
  · exact fun call h => by cases h

/-! The parties of runs. -/

/-- What the log says about one kind of party: how it may behave, whose it is, where the tables of its run
say that it stands, and where it may stand when its run is over. -/
structure Parties (κ σ : Type) where
  behaviour : Behaviour σ KernelEvent
  key : KernelEvent → Option κ
  owns : String → κ → Prop
  stands : List Chore → String → Constellation → κ → σ → Prop
  closed : σ → Prop

namespace Parties
variable {κ σ : Type} [DecidableEq κ] {p : Parties κ σ}

/-- What has to be shown of the steps of a single run. -/
structure Lawful (p : Parties κ σ) : Prop where
  owner : ∀ n m key, p.owns (scopeOf n) key → p.owns (scopeOf m) key → n = m
  begins : ∀ run n sessionId key, p.stands [] run (.new (scopeOf n) sessionId) key p.behaviour.start
  own : ∀ {runs run c work events c' work'}, RunStep run c work events c' work' → runs.lookup run = some c →
    Coherent (forgets work run) c → Orderly runs work → ∀ e ∈ events, ∀ key, p.key e = some key → p.owns c.scope key
  follows : ∀ {runs run c work events c' work' n}, RunStep run c work events c' work' → runs.lookup run = some c →
    c.scope = scopeOf n → Coherent (forgets work run) c → Orderly runs work → Settling runs work →
    ∀ key s, p.owns c.scope key → p.stands work run c key s →
      ∃ t, p.behaviour.after s (about p.key key events) = some t ∧ p.stands work' run c' key t
  others : ∀ {run c work events c' work'}, RunStep run c work events c' work' → ∀ {run'}, run' ≠ run →
    ∀ other key s, p.stands work run' other key s → p.stands work' run' other key s
  skipped : ∀ {task : Chore} {rest : List Chore} {run : String}, task.run ≠ run → ∀ other key s,
    p.stands (task :: rest) run other key s → p.stands rest run other key s
  ends : ∀ {run c}, Coherent (forgets [.drop run] run) c → (∀ id, c.isAlive id = false) → ∀ key s,
    p.stands [.drop run] run c key s → s = p.behaviour.start ∨ p.closed s

/-- Where a party stands, in a run that is live, and in one that ended or did not begin. -/
def View (p : Parties κ σ) (k : RunTable) (key : κ) (s : σ) : Prop :=
  (∃ run c, k.runs.lookup run = some c ∧ p.owns c.scope key ∧ p.stands k.work run c key s) ∨
    (∀ run c, k.runs.lookup run = some c → ¬p.owns c.scope key) ∧
      (s = p.behaviour.start ∨ p.closed s ∧ ∃ n, n ≤ k.runSeq ∧ p.owns (scopeOf n) key)

def Followed (p : Parties κ σ) (k : RunTable) : Prop := Tracks p.behaviour p.key (p.View k) k.log

theorem followed_new (p : Parties κ σ) : p.Followed new := by
  apply Tracks.nil
  intro key
  right
  refine ⟨?_,.inl rfl⟩
  exact fun run c h => by cases h

theorem Lawful.same_run (hp : p.Lawful) (hs : Sound k) {key : κ} (hrun : k.runs.lookup run = some c)
    (hrun' : k.runs.lookup run' = some c') (howns : p.owns c.scope key) (howns' : p.owns c'.scope key) : run = run' := by
  obtain ⟨n,_,_,hn⟩ := hs.scopes run c hrun
  obtain ⟨m,_,_,hm⟩ := hs.scopes run' c' hrun'
  apply hs.distinct run run' c c' hrun hrun'
  rw [hn] at howns
  rw [hm] at howns'
  rw [hn,hm,hp.owner n m key howns howns']

/-- The parties of the run go on, the others are where they were. -/
theorem Lawful.step (hp : p.Lawful) (hs : Sound k) (hk : p.Followed k) (hrun : k.runs.lookup run = some c)
    (hstep : RunStep run c k.work events c' work') (hmoved : Moved k run c' events work' k') : p.Followed k' := by
  obtain ⟨n,_,_,hn⟩ := hs.scopes run c hrun
  have hcoherent := hs.coherent run c hrun
  unfold Followed
  rw [hmoved.log]
  apply Tracks.append hk
  intro key s hview
  by_cases howns : p.owns c.scope key
  · have hself : p.stands k.work run c key s := by
      cases hview with
      | inl hlive =>
        obtain ⟨run',other,hlookup,howns',hstands⟩ := hlive
        obtain rfl := hp.same_run hs hrun hlookup howns howns'
        cases hrun.symm.trans hlookup
        exact hstands
      | inr hgone => exact absurd howns (hgone.1 run c hrun)
    obtain ⟨t,hafter,hstands⟩ := hp.follows hstep hrun hn hcoherent hs.orderly hs.settling key s howns hself
    refine ⟨t,hafter,?_⟩
    left
    refine ⟨run,c',?_,?_,?_⟩
    · rw [hmoved.runs,AList.lookup_insert]
    · rw [hstep.scope]
      exact howns
    · rw [hmoved.work]
      exact hstands
  · refine ⟨s,?_,?_⟩
    · have hnone : about p.key key events = [] := by
        apply about_eq_nil
        intro e he
        exact fun hkey => howns (hp.own hstep hrun hcoherent hs.orderly e he key hkey)
      rw [hnone]
      rfl
    · cases hview with
      | inl hlive =>
        obtain ⟨run',other,hlookup,howns',hstands⟩ := hlive
        have hne : run' ≠ run := by
          rintro rfl
          cases hrun.symm.trans hlookup
          exact howns howns'
        left
        refine ⟨run',other,?_,howns',?_⟩
        · rw [hmoved.runs,AList.lookup_insert_ne hne]
          exact hlookup
        · rw [hmoved.work]
          exact hp.others hstep hne other key s hstands
      | inr hgone =>
        right
        constructor
        · intro run' other hlookup
          rw [hmoved.runs,lookup_insert_ite] at hlookup
          split at hlookup
          · cases hlookup
            rw [hstep.scope]
            exact howns
          · exact hgone.1 run' other hlookup
        · rw [hmoved.runSeq]
          exact hgone.2

theorem Lawful.begun (hp : p.Lawful) (hk : p.Followed k) (hidle : k.Idle) (hnone : k.runs.lookup run = none)
    (sessionId : LuaValue) :
    p.Followed { k with runSeq := k.runSeq + 1, runs := k.runs.insert run (.new (scopeOf (k.runSeq + 1)) sessionId) } := by
  apply Tracks.mono hk
  intro key s hview
  cases hview with
  | inl hlive =>
    obtain ⟨run',c,hrun,howns,hstands⟩ := hlive
    have hne : run' ≠ run := by
      rintro rfl
      cases hnone.symm.trans hrun
    exact .inl ⟨run',c,(AList.lookup_insert_ne hne).trans hrun,howns,hstands⟩
  | inr hgone =>
    by_cases howns : p.owns (scopeOf (k.runSeq + 1)) key
    · left
      refine ⟨run,_,AList.lookup_insert _,howns,?_⟩
      dsimp only
      rw [hidle.2]
      cases hgone.2 with
      | inl hstart =>
        rw [hstart]
        exact hp.begins run (k.runSeq + 1) sessionId key
      | inr hpast =>
        obtain ⟨_,n,hn,howns'⟩ := hpast
        have := hp.owner _ _ key howns howns'
        omega
    · right
      constructor
      · intro run' c hlookup
        dsimp only at hlookup
        rw [lookup_insert_ite] at hlookup
        split at hlookup
        · cases hlookup
          exact howns
        · exact hgone.1 run' c hlookup
      · apply hgone.2.imp_right
        rintro ⟨hover,n,hn,howns'⟩
        exact ⟨hover,n,by dsimp only; omega,howns'⟩

theorem Lawful.dropped (hp : p.Lawful) (hs : Sound k) (hk : p.Followed k) (hwork : k.work = .drop run :: rest) :
    p.Followed { k with work := rest, runs := k.runs.erase run } := by
  have horderly := hs.orderly
  rw [hwork] at horderly
  obtain ⟨rfl,_,hkill⟩ := horderly.drop [] run rest rfl
  have hlookup : ∀ {run' c}, (k.runs.erase run).lookup run' = some c → run' ≠ run ∧ k.runs.lookup run' = some c := by
    intro run' c h
    rw [lookup_erase_ite] at h
    split at h
    · cases h
    · next hne => exact ⟨hne,h⟩
  apply Tracks.mono hk
  intro key s hview
  cases hview with
  | inl hlive =>
    obtain ⟨run',c,hrun,howns,hstands⟩ := hlive
    rw [hwork] at hstands
    by_cases heq : run' = run
    · subst heq
      right
      constructor
      · intro other c' h howns'
        obtain ⟨hne,hother⟩ := hlookup h
        exact hne (hp.same_run hs hother hrun howns' howns)
      · obtain ⟨n,_,hn,hscope⟩ := hs.scopes run' c hrun
        have hcoherent := hs.coherent run' c hrun
        rw [hwork] at hcoherent
        have hdead : ∀ id, c.isAlive id = false := by
          intro id
          rw [Bool.eq_false_iff]
          intro halive
          cases hkill id ⟨c,hrun,halive⟩
        rw [hscope] at howns
        exact (hp.ends hcoherent hdead key s hstands).imp_right fun hover => ⟨hover,n,hn,howns⟩
    · left
      refine ⟨run',c,(AList.lookup_erase_ne heq).trans hrun,howns,?_⟩
      exact hp.skipped (Ne.symm heq) c key s hstands
  | inr hgone =>
    right
    exact ⟨fun run' c h => hgone.1 run' c (hlookup h).2,hgone.2⟩

theorem Lawful.move (hp : p.Lawful) (hs : Sound k) (hk : p.Followed k) (h : Move k k') : p.Followed k' := by
  cases h with
  | step hrun hstep hmoved => exact hp.step hs hk hrun hstep hmoved
  | begun hidle hnone => exact hp.begun hk hidle hnone _
  | dropped hcalls hwork => exact hp.dropped hs hk hwork
  | skipped hcalls hwork hnone =>
    apply Tracks.mono hk
    intro key s hview
    apply hview.imp_left
    rintro ⟨run,c,hrun,howns,hstands⟩
    refine ⟨run,c,hrun,howns,?_⟩
    rw [hwork] at hstands
    apply hp.skipped _ c key s hstands
    rintro rfl
    cases hnone.symm.trans hrun
  | called hcalls => exact hk

/-- However the runs interleave, every party has followed its behaviour. -/
theorem Lawful.followed (hp : p.Lawful) {registry : LuaValue → List String} {acts : List Act}
    (h : Trace (Next registry) new acts k) : Sound k ∧ p.Followed k := by
  apply h.preserves (P := fun k => Sound k ∧ p.Followed k)
  · intro k a k' hgood hnext
    have hmove := hnext.move hgood.1
    exact ⟨hmove.sound hgood.1,hp.move hgood.1 hgood.2 hmove⟩
  · exact ⟨sound_new,followed_new p⟩

end Parties

end RunTable
end Nefor.Kernel
