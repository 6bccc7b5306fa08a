import Nefor.Kernel.ActorLives
import Nefor.Kernel.Assemblies
import Nefor.Lua.Table

/-! What can happen to one run: the tasks of the host's call and what its actors do. What is left of the
call is in order, and the tables of every run are coherent. -/
namespace Nefor.Kernel
open Nefor.Lua Constellation

/-! Scopes and request ids say whose they are. -/

theorem toString_inj {n m : Nat} (h : toString n = toString m) : n = m := by
  have h' := congrArg String.toNat? h
  simpa using h'

theorem scopeOf_inj {n m : Nat} (h : RunTable.scopeOf n = RunTable.scopeOf m) : n = m := by
  have htext := congrArg String.toList h
  simp only [RunTable.scopeOf,String.toList_append,List.append_cancel_left_eq] at htext
  exact toString_inj (String.toList_inj.mp htext)

theorem requestId_inj {n m i j : Nat}
    (h : requestId (RunTable.scopeOf n) i = requestId (RunTable.scopeOf m) j) : n = m ∧ i = j := by
  have htext := congrArg String.toList h
  have hshape : ∀ n i, (requestId (RunTable.scopeOf n) i).toList =
      ('r' :: (toString n).toList) ++ '/' :: (['c','a','p','-'] ++ (toString i).toList) := by
    intro n i
    simp [requestId,RunTable.scopeOf]
  have hmark : ∀ n : Nat, '/' ∉ 'r' :: (toString n).toList := by
    intro n hmem
    cases List.mem_cons.mp hmem with
    | inl heq => exact absurd heq (by decide)
    | inr hdigit => exact absurd (Topology.isDigit_of_mem n _ hdigit) (by decide)
  rw [hshape,hshape] at htext
  obtain ⟨hscope,hrequest⟩ := Topology.split_mark (hmark n) (hmark m) htext
  refine ⟨toString_inj (String.toList_inj.mp (List.cons.inj hscope).2),?_⟩
  exact toString_inj (String.toList_inj.mp (List.append_cancel_left hrequest))

def Call.run : Call → String
  | deliver run _ | construct run _ => run

def Call.id : Call → String
  | deliver _ id | construct _ id => id

def Constellation.Chore.run : Chore → String
  | spawn run _ _ | send run _ | kill run _ | forget run _ | drained run _ | settle run _ | drop run => run

/-! What passes the checks of the fold. -/

namespace Constellation
variable {registry : LuaValue → List String} {c : Constellation}

theorem validateActorShape_named {actor : LuaValue} {index : Nat} {id : String}
    (h : validateActorShape actor index = .ok id) : id ≠ "" := by
  unfold validateActorShape at h
  split at h
  · cases h
  · split at h
    · next found _ =>
      split at h
      · cases h
      · next hne =>
        split at h
        · cases h
        · split at h
          · cases h
          · split at h
            · cases h
            · cases h
              exact hne
    · cases h

theorem validateActors_named {actors : List LuaValue} {index : Nat} {spawned found : List (String × LuaValue)}
    (hspawned : ∀ actor ∈ spawned, actor.1 ≠ "") (h : validateActors index spawned actors = .ok found) :
    ∀ actor ∈ found, actor.1 ≠ "" := by
  induction actors generalizing index spawned with
  | nil =>
    cases h
    exact hspawned
  | cons actor rest ih =>
    rw [validateActors] at h
    cases hshape : validateActorShape actor index with
    | error err =>
      rw [hshape] at h
      cases h
    | ok id =>
      rw [hshape] at h
      dsimp only at h
      split at h
      · cases h
      · apply ih _ h
        intro other hother
        cases List.mem_append.mp hother with
        | inl hold => exact hspawned other hold
        | inr hnew =>
          rw [List.mem_singleton.mp hnew]
          exact validateActorShape_named hshape

theorem validate_named {mod : LuaValue} {m : Modification} (h : c.validate registry mod = .ok m) :
    ∀ actor ∈ m.actors, actor.1 ≠ "" := by
  simp only [validate] at h
  split at h
  · cases h
  split at h
  · cases h
  split at h
  · cases h
  split at h
  · cases h
  split at h
  · cases h
  cases hactors : validateActors 1 [] ((mod.get "actors").orElse (.array [])).sequence with
  | error err =>
    rw [hactors] at h
    cases h
  | ok spawned =>
    have hnamed := validateActors_named (by simp) hactors
    rw [hactors] at h
    cases hkills : validateKills 1 ((mod.get "kills").orElse (.array [])).sequence with
    | error err =>
      rw [hkills] at h
      cases h
    | ok ids =>
      rw [hkills] at h
      cases hmessages : validateMessages c (spawned.map Prod.fst) 1 ((mod.get "messages").orElse (.array [])).sequence with
      | error err =>
        simp only [bind,Except.bind,hmessages] at h
        cases h
      | ok sends =>
        simp only [bind,Except.bind,hmessages] at h
        split at h
        · cases h
          exact hnamed
        · cases h

theorem validateKills_str {ids : List String} (h : ∀ id ∈ ids, id ≠ "") (index : Nat) :
    validateKills index (ids.map .str) = .ok ids := by
  induction ids generalizing index with
  | nil => rfl
  | cons id rest ih =>
    rw [List.map_cons,validateKills,if_neg (h id List.mem_cons_self),ih fun other hother => h other (List.mem_cons_of_mem _ hother)]

theorem isArray_array {vs : List LuaValue} (h : ∀ v ∈ vs, v.isNil = false) : isArray (.array vs) = true := by
  have hlength : ∀ (i : Int) (ws : List LuaValue), (LuaValue.arrayFrom i ws).length = ws.length := by
    intro i ws
    induction ws generalizing i with
    | nil => rfl
    | cons w rest ih => simp [LuaValue.arrayFrom,ih]
  rw [LuaValue.array,isArray,Bool.and_eq_true,List.all_eq_true,List.all_eq_true]
  constructor
  · intro e he
    obtain ⟨⟨j,_,hkey⟩,_⟩ := LuaValue.key_of_mem_arrayFrom he
    rw [hkey]
  · intro i hi
    rw [List.mem_range,hlength] at hi
    have hindex := index_arrayFrom vs 1 i
    rw [Int.add_comm,List.getElem?_eq_getElem hi] at hindex
    rw [hindex,Option.getD_some,h _ (List.getElem_mem hi)]
    rfl

theorem mem_leftovers {id : String} : id ∈ RunTable.leftovers c ↔ c.isAlive id = true := by
  rw [RunTable.leftovers,List.mem_insertionSort,List.mem_filter]
  constructor
  · exact fun h => h.2
  · intro h
    refine ⟨AList.mem_keys.mpr ?_,h⟩
    exact AList.lookup_isSome.mp (Option.isSome_iff_ne_none.mpr (exists_of_isAlive h))

/-- What `reap_run` asks of the fold is never rejected. -/
theorem validate_leftovers {forgetting : String → Bool} (hc : Coherent forgetting c) :
    c.validate registry (.record [("kills",.array ((RunTable.leftovers c).map .str))]) =
      .ok ⟨[],[],RunTable.leftovers c⟩ := by
  have hkills : (LuaValue.record [("kills",.array ((RunTable.leftovers c).map .str))]).get "kills" =
      .array ((RunTable.leftovers c).map .str) := rfl
  have hnil : ∀ v ∈ (RunTable.leftovers c).map LuaValue.str, v.isNil = false := by
    intro v hv
    obtain ⟨id,_,rfl⟩ := List.mem_map.mp hv
    rfl
  have hnamed : ∀ id ∈ RunTable.leftovers c, id ≠ "" := fun id hid => hc.named id (exists_of_isAlive (mem_leftovers.mp hid))
  have hor : (LuaValue.array ((RunTable.leftovers c).map .str)).orElse (.array []) =
      .array ((RunTable.leftovers c).map .str) := rfl
  unfold validate
  dsimp only
  rw [hkills,hor,isArray_array hnil,sequence_array hnil,validateKills_str hnamed]
  rfl

end Constellation

namespace RunTable

/-- The actors of a run whose signal handler is running. -/
def forgets (work : List Chore) (run id : String) : Bool :=
  work.any fun task => match task with
    | .forget run' id' => run' == run && id' == id
    | _ => false

def Live (runs : AList fun _ : String => Constellation) (run id : String) : Prop :=
  ∃ c, runs.lookup run = some c ∧ c.isAlive id = true

/-- What happens to one run, the work that is left before and after, and what is said. -/
inductive RunStep (run : String) (c : Constellation) : List Chore → List KernelEvent → Constellation → List Chore → Prop
  | spawn {id : String} {actor : LuaValue} {rest : List Chore} :
    RunStep run c (.spawn run id actor :: rest) (c.spawn id actor).2 (c.spawn id actor).1 rest
  | send {target : String} {rest : List Chore} : RunStep run c (.send run target :: rest) (c.send target) c rest
  | kill {id : String} {rest : List Chore} : c.isAlive id = true →
    RunStep run c (.kill run id :: rest) (c.kill id).2.1 (c.kill id).1 (.forget run id :: rest)
  | spare {id : String} {rest : List Chore} : c.isAlive id = false → RunStep run c (.kill run id :: rest) [] c rest
  | forget {id : String} {rest : List Chore} :
    RunStep run c (.forget run id :: rest) (c.forget id).2 (c.forget id).1 rest
  | drained {id : String} {rest : List Chore} :
    RunStep run c (.drained run id :: rest) [] { c with signaling := c.signaling.erase id } rest
  | settle {request : String} {entry : Correlation} {rest : List Chore} : c.pending.lookup request = some entry →
    RunStep run c (.settle run request :: rest) (c.respond request entry).2.1 (c.respond request entry).1 rest
  | respond {request : String} {entry : Correlation} : c.pending.lookup request = some entry →
    RunStep run c [] (c.respond request entry).2.1 (c.respond request entry).1 []
  | rejected {error : String} : RunStep run c [] [.rejected c.scope error] c []
  | applied {m : Modification} : (∀ actor ∈ m.actors, actor.1 ≠ "") → RunStep run c [] [] c (m.tasks run)
  | interrupt : RunStep run c [] ((c.pending.keys.insertionSort (· ≤ ·)).map fun request => .cancel request .interrupt) c
      ((c.pending.keys.insertionSort (· ≤ ·)).map (.settle run))
  | drain {id : String} : c.instances.lookup id ≠ none →
    RunStep run c [] [] { c with signaling := insert id c.signaling } [.drained run id]
  | endRun : RunStep run c [] [] c ((leftovers c).map (.kill run) ++ [.drop run])
  | construct {work : List Chore} {generations : AList fun _ : String => Nat} :
    RunStep run c work [] { c with generations := generations } work
  | constructed {work : List Chore} {id : String} {made : Instance} : c.isAlive id = true →
    RunStep run c work [] { c with instances := c.instances.insert id made } work
  | unconstructed {work : List Chore} {id : String} {failure : LuaValue} : c.isAlive id = true →
    RunStep run c work [.failed c.scope id failure] c work
  | activate {work : List Chore} {id : String} {now : Int} : c.isAlive id = true →
    RunStep run c work (c.markBusy id now).2 (c.markBusy id now).1 work
  | returned {work : List Chore} {id : String} {completion : ActorCompletion} {now : Int} : c.isAlive id = true →
    RunStep run c work (c.applyCompletion id completion now).2 (c.applyCompletion id completion now).1 work
  | emit {work : List Chore} {id : String} {generation : Nat} {message : Emission} {now : Int} :
    RunStep run c work (c.onEmit id generation message now).2 (c.onEmit id generation message now).1 work

/-- What is left of a call of the host: a killed actor is forgotten at once, actors are spawned before
any is killed, and a run that is dropped has every actor killed before. -/
structure Orderly (runs : AList fun _ : String => Constellation) (work : List Chore) : Prop where
  forget : ∀ head rest, work = head :: rest → ∀ run id, .forget run id ∉ rest
  dead : ∀ run id, .forget run id ∈ work → ∃ c actor, runs.lookup run = some c ∧ c.actors.lookup id = some actor ∧
    actor.alive = false
  named : ∀ run id actor, .spawn run id actor ∈ work → id ≠ ""
  drop : ∀ before run after, work = before ++ .drop run :: after → after = [] ∧
    (∀ run' id actor, .spawn run' id actor ∉ before) ∧ ∀ id, Live runs run id → .kill run id ∈ before

def Open (runs : AList fun _ : String => Constellation) (run request : String) : Prop :=
  ∃ c, runs.lookup run = some c ∧ c.pending.lookup request ≠ none

/-- Requests are settled while nothing else is done, each of them once. -/
def Settling (runs : AList fun _ : String => Constellation) (work : List Chore) : Prop :=
  (∃ (run : String) (requests : List String), work = requests.map (.settle run) ∧ requests.Nodup ∧
    ∀ request ∈ requests, Open runs run request) ∨ ∀ run request, .settle run request ∉ work

/-- What holds of the kernel between any two things that happen. -/
structure Sound (k : RunTable) : Prop where
  scopes : ∀ run c, k.runs.lookup run = some c → ∃ n, 1 ≤ n ∧ n ≤ k.runSeq ∧ c.scope = scopeOf n
  distinct : ∀ run run' c c', k.runs.lookup run = some c → k.runs.lookup run' = some c' → c.scope = c'.scope → run = run'
  coherent : ∀ run c, k.runs.lookup run = some c → Coherent (forgets k.work run) c
  calls : ∀ call ∈ k.calls, Live k.runs call.run call.id
  orderly : Orderly k.runs k.work
  settling : Settling k.runs k.work

variable {k : RunTable} {run run' id request : String} {c c' : Constellation} {events : List KernelEvent}
  {work work' rest : List Chore} {task : Chore} {runs runs' : AList fun _ : String => Constellation}

theorem forgets_iff : forgets work run id = true ↔ .forget run id ∈ work := by
  rw [forgets,List.any_eq_true]
  constructor
  · rintro ⟨task,htask,h⟩
    cases task with
    | forget run' id' =>
      simp only [Bool.and_eq_true,beq_iff_eq] at h
      rw [← h.1,← h.2]
      exact htask
    | spawn | send | kill | drained | settle | drop => cases h
  · intro h
    exact ⟨_,h,by simp⟩

theorem forgets_eq_false (h : ∀ run id, .forget run id ∉ work) : forgets work run id = false := by
  rw [Bool.eq_false_iff]
  exact fun htrue => h run id (forgets_iff.mp htrue)

/-! The order of the work. -/

theorem Orderly.nil : Orderly runs [] := by
  refine ⟨?_,?_,?_,?_⟩
  · exact fun _ _ h => by cases h
  · exact fun _ _ h => by cases h
  · exact fun _ _ _ h => by cases h
  · intro before run after h
    cases before <;> cases h

theorem Orderly.no_forget (h : Orderly runs (task :: rest)) (run id : String) : .forget run id ∉ rest :=
  h.forget task rest rfl run id

/-- One task is done. It spawned an actor, or no actor came to life; a killed actor is dead now. -/
theorem Orderly.tail (h : Orderly runs (task :: rest))
    (hlive : (∀ run id actor, task ≠ .spawn run id actor) → ∀ run id, Live runs' run id →
      Live runs run id ∧ task ≠ .kill run id) : Orderly runs' rest := by
  refine ⟨?_,?_,?_,?_⟩
  · intro head rest' hrest run id hmem
    apply h.no_forget run id
    rw [hrest]
    exact List.mem_cons_of_mem _ hmem
  · exact fun run id hmem => absurd hmem (h.no_forget run id)
  · exact fun run id actor hmem => h.named run id actor (List.mem_cons_of_mem _ hmem)
  · intro before run after hrest
    obtain ⟨hafter,hspawn,hkill⟩ := h.drop (task :: before) run after (by rw [hrest]; rfl)
    refine ⟨hafter,fun run' id actor hmem => hspawn run' id actor (List.mem_cons_of_mem _ hmem),?_⟩
    intro id hid
    obtain ⟨hold,hne⟩ := hlive (fun run' id actor heq => hspawn run' id actor (heq ▸ List.mem_cons_self)) run id hid
    exact (List.mem_cons.mp (hkill id hold)).resolve_left (Ne.symm hne)

/-- An actor was killed, and it is forgotten next. -/
theorem Orderly.killed (h : Orderly runs (.kill run id :: rest)) {actor : Actor}
    (hrun : runs'.lookup run = some c) (hactor : c.actors.lookup id = some actor) (hdead : actor.alive = false)
    (hlive : ∀ run' id', Live runs' run' id' → Live runs run' id') : Orderly runs' (.forget run id :: rest) := by
  have hgone : ¬Live runs' run id := by
    rintro ⟨other,hother,halive⟩
    cases hrun.symm.trans hother
    simp [isAlive,hactor,hdead] at halive
  have htail : Orderly runs' rest := by
    apply h.tail
    intro _ run' id' hold
    refine ⟨hlive run' id' hold,?_⟩
    intro heq
    cases heq
    exact hgone hold
  refine ⟨?_,?_,?_,?_⟩
  · intro head rest' hrest run' id' hmem
    cases hrest
    exact h.no_forget run' id' hmem
  · intro run' id' hmem
    cases List.mem_cons.mp hmem with
    | inl heq =>
      cases heq
      exact ⟨c,actor,hrun,hactor,hdead⟩
    | inr hrest => exact absurd hrest (h.no_forget run' id')
  · intro run' id' actor hmem
    cases List.mem_cons.mp hmem with
    | inl heq => cases heq
    | inr hrest => exact htail.named run' id' actor hrest
  · intro before run' after hwork
    cases before with
    | nil => cases hwork
    | cons head before =>
      obtain ⟨hhead,hrest⟩ := List.cons.inj hwork
      obtain ⟨hafter,hspawn,hkill⟩ := htail.drop before run' after hrest
      refine ⟨hafter,?_,fun id' hid' => List.mem_cons_of_mem _ (hkill id' hid')⟩
      intro other id' actor hmem
      cases List.mem_cons.mp hmem with
      | inl heq => cases hhead.trans heq.symm
      | inr hbefore => exact hspawn other id' actor hbefore

/-- Work that waits for nothing and forgets nobody. -/
theorem Orderly.plain (hforget : ∀ run id, .forget run id ∉ work) (hspawn : ∀ run id actor, .spawn run id actor ∈ work → id ≠ "")
    (hdrop : ∀ run, .drop run ∉ work) : Orderly runs work := by
  refine ⟨?_,?_,hspawn,?_⟩
  · intro head rest hwork run id hmem
    apply hforget run id
    rw [hwork]
    exact List.mem_cons_of_mem _ hmem
  · exact fun run id hmem => absurd hmem (hforget run id)
  · intro before run after hwork
    apply absurd _ (hdrop run)
    rw [hwork]
    exact List.mem_append_right _ List.mem_cons_self

/-- Actors that live after a run changed did so before. -/
theorem live_put (hrun : runs.lookup run = some c) (hlive : ∀ id, c'.isAlive id = true → c.isAlive id = true)
    (h : Live (runs.insert run c') run' id) : Live runs run' id := by
  obtain ⟨other,hother,halive⟩ := h
  rw [lookup_insert_ite] at hother
  split at hother
  · next heq =>
    cases hother
    exact ⟨c,heq ▸ hrun,hlive id halive⟩
  · exact ⟨other,hother,halive⟩

/-- The same work, while all actors are alive or dead as before. -/
theorem Orderly.same (h : Orderly runs work) (hrun : runs.lookup run = some c) (hactors : c'.actors = c.actors) :
    Orderly (runs.insert run c') work := by
  have hlive : ∀ run' id, Live (runs.insert run c') run' id → Live runs run' id := fun run' id =>
    live_put hrun fun id halive => (isAlive_congr hactors id).symm.trans halive
  refine ⟨h.forget,?_,h.named,?_⟩
  · intro run' id hmem
    obtain ⟨other,actor,hlookup,hactor,hdead⟩ := h.dead run' id hmem
    by_cases heq : run' = run
    · subst heq
      cases hrun.symm.trans hlookup
      exact ⟨c',actor,AList.lookup_insert _,(by rw [hactors]; exact hactor),hdead⟩
    · exact ⟨other,actor,(AList.lookup_insert_ne heq).trans hlookup,hactor,hdead⟩
  · intro before run' after hwork
    obtain ⟨hafter,hspawn,hkill⟩ := h.drop before run' after hwork
    exact ⟨hafter,hspawn,fun id hid => hkill id (hlive run' id hid)⟩

/-- A task other than a kill is done, and no actor came to life. -/
theorem Orderly.next (h : Orderly runs (task :: rest)) (hrun : runs.lookup run = some c)
    (hactors : c'.actors = c.actors) (hkill : ∀ run id, task ≠ .kill run id) : Orderly (runs.insert run c') rest := by
  apply h.tail
  intro _ run' id hlive
  exact ⟨live_put hrun (fun id halive => (isAlive_congr hactors id).symm.trans halive) hlive,hkill run' id⟩

/-- The work that ends a run: every live actor is killed, then the run is dropped. -/
theorem leftovers_orderly (hrun : runs.lookup run = some c) :
    Orderly runs ((leftovers c).map (.kill run) ++ [.drop run]) := by
  have hforget : ∀ run' id, Chore.forget run' id ∉ (leftovers c).map (Chore.kill run) ++ [Chore.drop run] := by
    intro run' id
    simp
  refine ⟨?_,?_,?_,?_⟩
  · intro head rest hwork run' id hmem
    apply hforget run' id
    rw [hwork]
    exact List.mem_cons_of_mem _ hmem
  · exact fun run' id hmem => absurd hmem (hforget run' id)
  · intro run' id actor hmem
    simp at hmem
  · intro before run' after hwork
    have hdrop : Chore.drop run' ∉ (leftovers c).map (Chore.kill run) := by simp
    obtain ⟨hbefore,hafter⟩ : before = (leftovers c).map (Chore.kill run) ∧ Chore.drop run' :: after = [.drop run] := by
      cases List.append_eq_append_iff.mp hwork with
      | inl h =>
        obtain ⟨extra,hextra,htail⟩ := h
        cases extra with
        | nil => exact ⟨by simpa using hextra,htail.symm⟩
        | cons head extra => cases extra <;> simp at htail
      | inr h =>
        obtain ⟨extra,hextra,htail⟩ := h
        cases extra with
        | nil => exact ⟨by simpa using hextra.symm,htail⟩
        | cons head extra =>
          cases (List.cons.inj htail).1
          exact absurd (by rw [hextra]; exact List.mem_append_right _ List.mem_cons_self) hdrop
    cases hafter
    subst hbefore
    refine ⟨rfl,by simp,?_⟩
    rintro id ⟨other,hother,halive⟩
    cases hrun.symm.trans hother
    exact List.mem_map_of_mem (mem_leftovers.mpr halive)

/-! What is being settled. -/

theorem Open.put (h : Open runs run' request) (hrun : runs.lookup run = some c)
    (hkept : run' = run → c.pending.lookup request ≠ none → c'.pending.lookup request ≠ none) :
    Open (runs.insert run c') run' request := by
  obtain ⟨other,hother,hpending⟩ := h
  by_cases heq : run' = run
  · subst heq
    cases hrun.symm.trans hother
    exact ⟨c',AList.lookup_insert _,hkept rfl hpending⟩
  · exact ⟨other,(AList.lookup_insert_ne heq).trans hother,hpending⟩

theorem Settling.isOpen (h : Settling runs work) (hmem : .settle run request ∈ work) : Open runs run request := by
  cases h with
  | inl hsome =>
    obtain ⟨run',requests,rfl,_,hopen⟩ := hsome
    obtain ⟨other,hother,heq⟩ := List.mem_map.mp hmem
    cases heq
    exact hopen request hother
  | inr hnone => exact absurd hmem (hnone run request)

theorem Settling.alone (h : Settling runs (task :: rest)) (htask : ∀ run request, task ≠ .settle run request)
    (run request : String) : .settle run request ∉ rest := by
  intro hmem
  cases h with
  | inl hsome =>
    obtain ⟨run',requests,hwork,_,_⟩ := hsome
    cases requests with
    | nil => cases hwork
    | cons request' requests => exact htask _ _ (List.cons.inj hwork).1
  | inr hnone => exact hnone run request (List.mem_cons_of_mem _ hmem)

theorem Settling.same (h : Settling runs work) (hrun : runs.lookup run = some c)
    (hkept : ∀ request, c.pending.lookup request ≠ none → c'.pending.lookup request ≠ none) :
    Settling (runs.insert run c') work := by
  apply h.imp_left
  rintro ⟨run',requests,hwork,hnodup,hopen⟩
  refine ⟨run',requests,hwork,hnodup,?_⟩
  exact fun request hmem => (hopen request hmem).put hrun fun _ => hkept request

theorem Settling.head (h : Settling runs (.settle run request :: rest)) : Open runs run request ∧ ∃ requests : List String,
    rest = requests.map (.settle run) ∧ requests.Nodup ∧ request ∉ requests ∧ ∀ other ∈ requests, Open runs run other := by
  cases h with
  | inl hsome =>
    obtain ⟨run',requests,hwork,hnodup,hopen⟩ := hsome
    cases requests with
    | nil => cases hwork
    | cons request' requests =>
      obtain ⟨hhead,hrest⟩ := List.cons.inj hwork
      cases hhead
      obtain ⟨hnot,hnodup⟩ := List.nodup_cons.mp hnodup
      refine ⟨hopen request List.mem_cons_self,requests,hrest,hnodup,hnot,?_⟩
      exact fun other hother => hopen other (List.mem_cons_of_mem _ hother)
  | inr hnone => exact absurd List.mem_cons_self (hnone run request)

/-! What every step keeps. -/
namespace RunStep

theorem scope (h : RunStep run c work events c' work') : c'.scope = c.scope := by
  cases h with
  | spawn =>
    unfold Constellation.spawn
    split <;> rfl
  | kill halive =>
    obtain ⟨actor,hactor,hlive⟩ := isAlive_iff.mp halive
    obtain ⟨signaling,hkill,_⟩ := kill_alive hactor hlive
    rw [hkill]
  | settle => exact (framed_respond c _ _).scope
  | respond => exact (framed_respond c _ _).scope
  | activate => exact (framed_markBusy c _ _).scope
  | returned => exact (framed_applyCompletion c _ _ _).scope
  | emit => exact (framed_onEmit c _ _ _ _).scope
  | send | spare | forget | drained | rejected | applied | interrupt | drain | endRun | construct | constructed
  | unconstructed => rfl

/-- Who is forgotten in the other runs. -/
theorem others (h : RunStep run c work events c' work') (hne : run' ≠ run) (id : String) :
    forgets work' run' id = forgets work run' id := by
  cases h with
  | kill => simp [forgets,Ne.symm hne]
  | forget => simp [forgets,Ne.symm hne]
  | applied => exact forgets_eq_false (by simp [Modification.tasks])
  | interrupt => exact forgets_eq_false (by simp)
  | endRun => exact forgets_eq_false (by simp)
  | spawn | send | spare | drained | settle | respond | rejected | drain | construct | constructed | unconstructed
  | activate | returned | emit => rfl

theorem forgets_killed (id other : String) (hne : other ≠ id) :
    forgets (.forget run id :: rest) run other = forgets (.kill run id :: rest) run other := by
  simp [forgets,Ne.symm hne]

theorem forgets_forgotten (id other : String) (hne : other ≠ id) :
    forgets rest run other = forgets (.forget run id :: rest) run other := by
  simp [forgets,Ne.symm hne]

theorem coherent (h : RunStep run c work events c' work') (ho : Orderly runs work) (hc : Coherent (forgets work run) c) :
    Coherent (forgets work' run) c' := by
  cases h with
  | @spawn id actor rest => exact hc.spawn (ho.named run id actor List.mem_cons_self) actor
  | @kill id rest halive =>
    obtain ⟨actor,hactor,hlive⟩ := isAlive_iff.mp halive
    obtain ⟨signaling,hkill,hsignaling⟩ := kill_alive hactor hlive
    rw [hkill]
    exact hc.killed hactor hsignaling (forgets_iff.mpr List.mem_cons_self) (forgets_killed id)
  | @forget id rest => exact hc.forget (forgets_forgotten id)
  | drained => exact hc.drained _
  | settle => exact hc.respond _ _
  | respond => exact hc.respond _ _
  | drain hmade => exact hc.signal hmade
  | construct => exact hc.generation _
  | constructed halive => exact hc.constructed halive _
  | activate halive => exact hc.markBusy halive _
  | returned halive => exact hc.applyCompletion _ _
  | emit => exact hc.onEmit _ _ _ _
  | applied => exact hc.settled fun id => (forgets_eq_false (by simp [Modification.tasks])).symm
  | interrupt => exact hc.settled fun id => (forgets_eq_false (by simp)).symm
  | endRun => exact hc.settled fun id => (forgets_eq_false (by simp)).symm
  | send | spare | rejected | unconstructed => exact hc

theorem orderly (h : RunStep run c work events c' work') (hrun : runs.lookup run = some c) (ho : Orderly runs work) :
    Orderly (runs.insert run c') work' := by
  have hput : ∀ {work}, Orderly runs work → Orderly (runs.insert run c) work := fun hold => hold.same hrun rfl
  cases h with
  | @spawn id actor rest => exact ho.tail fun hnot => absurd rfl (hnot run id actor)
  | send => exact ho.next hrun rfl (by simp)
  | @kill id rest halive =>
    obtain ⟨actor,hactor,hlive⟩ := isAlive_iff.mp halive
    obtain ⟨signaling,hkill,_⟩ := kill_alive hactor hlive
    rw [hkill]
    apply ho.killed (AList.lookup_insert _) (AList.lookup_insert _) rfl
    intro run' id'
    apply live_put hrun
    intro other hother
    obtain ⟨found,hfound,hfoundAlive⟩ := isAlive_iff.mp hother
    dsimp only at hfound
    rw [lookup_insert_ite] at hfound
    split at hfound
    · cases hfound
      cases hfoundAlive
    · exact isAlive_iff.mpr ⟨found,hfound,hfoundAlive⟩
  | @spare id rest hdead =>
    apply ho.tail
    intro _ run' id' hlive
    have hold : Live runs run' id' := live_put hrun (fun _ h => h) hlive
    refine ⟨hold,?_⟩
    intro heq
    cases heq
    obtain ⟨other,hother,halive⟩ := hold
    cases hrun.symm.trans hother
    simp [hdead] at halive
  | forget => exact ho.next hrun rfl (by simp)
  | drained => exact ho.next hrun rfl (by simp)
  | settle => exact ho.next hrun (framed_respond c _ _).actors (by simp)
  | respond => exact Orderly.nil
  | rejected => exact Orderly.nil
  | applied hnamed =>
    apply Orderly.plain
    · simp [Modification.tasks]
    · intro run' id actor hmem
      simp only [Modification.tasks,List.mem_append,List.mem_map] at hmem
      rcases hmem with (⟨found,hfound,heq⟩ | ⟨_,_,heq⟩) | ⟨_,_,heq⟩
      · cases heq
        exact hnamed found hfound
      · cases heq
      · cases heq
    · simp [Modification.tasks]
  | interrupt => exact Orderly.plain (by simp) (by simp) (by simp)
  | drain => exact Orderly.plain (by simp) (by simp) (by simp)
  | endRun => exact hput (leftovers_orderly hrun)
  | construct => exact ho.same hrun rfl
  | constructed => exact ho.same hrun rfl
  | unconstructed => exact ho.same hrun rfl
  | activate => exact ho.same hrun (framed_markBusy c _ _).actors
  | returned => exact ho.same hrun (framed_applyCompletion c _ _ _).actors
  | emit => exact ho.same hrun (framed_onEmit c _ _ _ _).actors

theorem settling (h : RunStep run c work events c' work') (hrun : runs.lookup run = some c) (hs : Settling runs work) :
    Settling (runs.insert run c') work' := by
  cases h with
  | spawn => exact .inr (hs.alone (by simp))
  | send => exact .inr (hs.alone (by simp))
  | spare => exact .inr (hs.alone (by simp))
  | forget => exact .inr (hs.alone (by simp))
  | drained => exact .inr (hs.alone (by simp))
  | kill halive =>
    right
    intro run' request hmem
    cases List.mem_cons.mp hmem with
    | inl heq => cases heq
    | inr hrest => exact hs.alone (by simp) run' request hrest
  | @settle request entry rest hentry =>
    obtain ⟨_,requests,hrest,hnodup,hnot,hopen⟩ := hs.head
    left
    refine ⟨run,requests,hrest,hnodup,?_⟩
    intro other hother
    apply (hopen other hother).put hrun
    intro _ hpending
    rw [respond_closes,AList.lookup_erase_ne]
    · exact hpending
    · rintro rfl
      exact hnot hother
  | respond => exact .inr (by simp)
  | rejected => exact .inr (by simp)
  | applied => exact .inr (by simp [Modification.tasks])
  | interrupt =>
    left
    refine ⟨run,_,rfl,?_,?_⟩
    · exact (List.perm_insertionSort _ _).nodup_iff.mpr c.pending.nodupKeys
    · intro request hmem
      have hkey := AList.lookup_isSome.mpr (AList.mem_keys.mp (List.mem_insertionSort _ |>.mp hmem))
      exact ⟨c,AList.lookup_insert _,Option.isSome_iff_ne_none.mp hkey⟩
  | drain => exact .inr (by simp)
  | endRun => exact .inr (by simp)
  | construct => exact hs.same hrun fun _ h => h
  | constructed => exact hs.same hrun fun _ h => h
  | unconstructed => exact hs.same hrun fun _ h => h
  | activate => exact hs.same hrun fun request hpending => by rw [(unasked_markBusy c _ _).pending]; exact hpending
  | returned => exact hs.same hrun fun request hpending => by rw [(unasked_applyCompletion c _ _ _).pending]; exact hpending
  | @emit work id generation message now =>
    apply hs.same hrun
    intro request hpending
    cases onEmit_asks c id generation message now with
    | inl hsame =>
      rw [hsame.pending]
      exact hpending
    | inr hasks =>
      obtain ⟨ref,_,heq⟩ := hasks
      rw [heq,onCapabilityInvoke]
      dsimp only
      rw [lookup_insert_ite]
      split
      · simp
      · exact hpending

end RunStep

end RunTable
end Nefor.Kernel
