import Nefor.AgenticLoop.RequestLifecycle

/-! A request is completed once, by a call that finds it settled, with a status that the recorded facts
decide. -/
namespace Nefor.AgenticLoop
open Nefor.Lua

/-- What a call says about a request. -/
inductive Effect
  | terminal (status : String)
  | outcome (status : String)
  | force (status : String)
  deriving DecidableEq

def Effect.terminal? : Effect → Option String
  | terminal status => some status
  | _ => none

def Effect.outcome? : Effect → Option String
  | outcome status => some status
  | _ => none

def Effect.force? : Effect → Option String
  | force status => some status
  | _ => none

/-- The outcome that stands among those recorded: an interruption, else the first. -/
def standing : List String → Option String
  | [] => none
  | status :: rest => some (if "interrupted" ∈ status :: rest then "interrupted" else status)

/-- The status of a completed request: the last forced one, else the outcome that stands, else the last
terminal. -/
def verdict (effects : List Effect) : Option String :=
  (effects.filterMap Effect.force?).getLast?.or
    ((standing (effects.filterMap Effect.outcome?)).or (effects.filterMap Effect.terminal?).getLast?)

namespace Call

/-- The call accepts the request. -/
def accepts (id : String) : Call → Bool
  | accept name _ => name = id ∧ id ≠ ""
  | acquire name _ _ => name = id ∧ id ≠ ""
  | acquireAll names _ _ => id ∈ copyIds names
  | _ => false

def effect (id : String) : Call → Option Effect
  | setTerminal names status _ _ => if id ∈ copyIds names then some (.terminal status) else none
  | recordOutcome names status _ => if id ∈ copyIds names then some (.outcome status) else none
  | force name status _ => if name = id then some (.force status) else none
  | authorityLost _ => some (.force "error")
  | _ => none

/-- The answer of `blocked` for the request, where the call may ask for it. -/
def answer (id : String) : Call → Option Bool
  | release _ _ blocked => some (blocked id)
  | releaseAll _ _ blocked => some (blocked id)
  | recheck _ blocked => some (blocked id)
  | recheckAll blocked => some (blocked id)
  | _ => none

def losesAuthority : Call → Bool
  | authorityLost _ => true
  | _ => false

end Call

/-- What was said about a request since it was accepted. -/
def effects (id : String) (calls : List Call) : List Effect :=
  (calls.dropWhile fun call => !call.accepts id).filterMap (Call.effect id)

/-- The completions of a request that were emitted. -/
def Lifecycle.emittedFor (lifecycle : Lifecycle) (id : String) : List RequestCompleted :=
  lifecycle.emitted.filter fun completed => completed.requestId = id

/-- The request of every entry is the one that the entry is for. -/
def Lifecycle.Named (lifecycle : Lifecycle) : Prop :=
  ∀ id request, lifecycle.requests.lookup id = some request → request.requestId = id ∧ id ≠ ""

/-! Every call treats each request on its own. -/

/-- What becomes of one request: its new state, and what is emitted for it. -/
abbrev Local := Option Request → Option Request × List RequestCompleted

/-- An operation that is made for one request does `g` there and nothing anywhere else. -/
def Acts (op : Lifecycle → String → Lifecycle) (g : String → Local) : Prop :=
  ∀ lifecycle name, lifecycle.Named → (op lifecycle name).Named ∧ ∀ id,
    (op lifecycle name).requests.lookup id =
      (if name = id then (g id (lifecycle.requests.lookup id)).1 else lifecycle.requests.lookup id) ∧
    (op lifecycle name).emittedFor id =
      lifecycle.emittedFor id ++ if name = id then (g id (lifecycle.requests.lookup id)).2 else []

def onSome (f : Request → Request × List RequestCompleted) : Local
  | none => (none,[])
  | some request => (some (f request).1,(f request).2)

/-- A function on requests that speaks of the request it is given. -/
def Own (f : Request → Request × List RequestCompleted) : Prop :=
  ∀ request, (f request).1.requestId = request.requestId ∧ ∀ completed ∈ (f request).2, completed.requestId = request.requestId

theorem Lifecycle.onRequest_none {lifecycle : Lifecycle} {name : String} (f : Request → Request × List RequestCompleted)
    (hlookup : lifecycle.requests.lookup name = none) : lifecycle.onRequest name f = lifecycle := by
  unfold Lifecycle.onRequest
  rw [hlookup]

theorem Lifecycle.onRequest_some {lifecycle : Lifecycle} {name : String} {request : Request}
    (f : Request → Request × List RequestCompleted) (hlookup : lifecycle.requests.lookup name = some request) :
    lifecycle.onRequest name f =
      ⟨lifecycle.requests.insert name (f request).1,lifecycle.emitted ++ (f request).2⟩ := by
  unfold Lifecycle.onRequest
  rw [hlookup]

theorem acts_onRequest {f : String → Request → Request × List RequestCompleted} (hf : ∀ name, Own (f name)) :
    Acts (fun lifecycle name => lifecycle.onRequest name (f name)) fun id => onSome (f id) := by
  intro lifecycle name hnamed
  dsimp only
  cases hlookup : lifecycle.requests.lookup name with
  | none =>
    rw [Lifecycle.onRequest_none (f name) hlookup]
    refine ⟨hnamed,fun id => ?_⟩
    by_cases hid : name = id
    · subst hid
      simp [hlookup,onSome]
    · simp [hid]
  | some request =>
    rw [Lifecycle.onRequest_some (f name) hlookup]
    obtain ⟨hname,hne⟩ := hnamed name request hlookup
    obtain ⟨hsame,hown⟩ := hf name request
    refine ⟨fun id found hfound => ?_,fun id => ?_⟩
    · by_cases hid : id = name
      · subst hid
        rw [AList.lookup_insert] at hfound
        cases hfound
        exact ⟨hsame.trans hname,hne⟩
      · rw [AList.lookup_insert_ne hid] at hfound
        exact hnamed id found hfound
    · by_cases hid : name = id
      · subst hid
        simp only [AList.lookup_insert,hlookup,onSome,if_true,Lifecycle.emittedFor,List.filter_append,true_and,
          List.append_cancel_left_eq,List.filter_eq_self,decide_eq_true_eq]
        exact fun completed hcompleted => (hown completed hcompleted).trans hname
      · simp only [AList.lookup_insert_ne (Ne.symm hid),if_neg hid,Lifecycle.emittedFor,List.filter_append,true_and,
          List.append_cancel_left_eq,List.filter_eq_nil_iff,decide_eq_true_eq]
        exact fun completed hcompleted heq => hid (hname.symm.trans ((hown completed hcompleted).symm.trans heq))

/-- Operations for different requests, one after the other. -/
theorem Acts.foldl {op : Lifecycle → String → Lifecycle} {g : String → Local} (h : Acts op g) {names : List String}
    (hnodup : names.Nodup) {lifecycle : Lifecycle} (hnamed : lifecycle.Named) :
    (names.foldl op lifecycle).Named ∧ ∀ id,
      (names.foldl op lifecycle).requests.lookup id =
        (if id ∈ names then (g id (lifecycle.requests.lookup id)).1 else lifecycle.requests.lookup id) ∧
      (names.foldl op lifecycle).emittedFor id =
        lifecycle.emittedFor id ++ if id ∈ names then (g id (lifecycle.requests.lookup id)).2 else [] := by
  induction names generalizing lifecycle with
  | nil => exact ⟨hnamed,fun id => by simp⟩
  | cons name rest ih =>
    rw [List.nodup_cons] at hnodup
    obtain ⟨hnamed',hstep⟩ := h lifecycle name hnamed
    obtain ⟨hlast,hrest⟩ := ih hnodup.2 hnamed'
    refine ⟨hlast,fun id => ?_⟩
    obtain ⟨hlookup,hemitted⟩ := hstep id
    obtain ⟨hlookup',hemitted'⟩ := hrest id
    rw [List.foldl_cons,hlookup',hemitted',hlookup,hemitted]
    by_cases hid : name = id
    · subst hid
      simp [hnodup.1]
    · simp [hid,Ne.symm hid]

/-- One operation after the other. -/
theorem Acts.comp {op op' : Lifecycle → String → Lifecycle} {g g' : String → Local} (h : Acts op g) (h' : Acts op' g') :
    Acts (fun lifecycle name => op' (op lifecycle name) name) fun id request =>
      ((g' id (g id request).1).1,(g id request).2 ++ (g' id (g id request).1).2) := by
  intro lifecycle name hnamed
  obtain ⟨hnamed',hstep⟩ := h lifecycle name hnamed
  obtain ⟨hlast,hrest⟩ := h' (op lifecycle name) name hnamed'
  refine ⟨hlast,fun id => ?_⟩
  rw [(hrest id).1,(hrest id).2,(hstep id).1,(hstep id).2]
  by_cases hid : name = id <;> simp [hid]

/-- Acceptance of one request. -/
def accepting (id : String) (sessionId : LuaValue) : Local
  | none => (if id = "" then none else some (Request.new id sessionId),[])
  | some request => (some request,[])

theorem acts_accept (sessionId : LuaValue) :
    Acts (fun lifecycle name => lifecycle.accept name sessionId) fun id => accepting id sessionId := by
  intro lifecycle name hnamed
  dsimp only [Lifecycle.accept]
  cases hlookup : lifecycle.requests.lookup name with
  | some request =>
    rw [if_pos (by simp)]
    refine ⟨hnamed,fun id => ?_⟩
    by_cases hid : name = id
    · subst hid
      simp [hlookup,accepting]
    · simp [hid]
  | none =>
    by_cases hempty : name = ""
    · rw [if_pos (Or.inl hempty)]
      refine ⟨hnamed,fun id => ?_⟩
      by_cases hid : name = id
      · subst hid
        simp [hlookup,accepting,hempty]
      · simp [hid]
    · rw [if_neg (by simp [hempty])]
      refine ⟨fun id found hfound => ?_,fun id => ?_⟩
      · by_cases hid : id = name
        · subst hid
          rw [AList.lookup_insert] at hfound
          cases hfound
          exact ⟨rfl,hempty⟩
        · rw [AList.lookup_insert_ne hid] at hfound
          exact hnamed id found hfound
      · by_cases hid : name = id
        · subst hid
          simp [hlookup,accepting,hempty,Lifecycle.emittedFor]
        · simp [hid,AList.lookup_insert_ne (Ne.symm hid),Lifecycle.emittedFor]

/-! What the functions on one request say of it. -/

namespace Request

theorem own_acquire (obligation : String) : Own fun request => (request.acquire obligation,[]) := by
  intro request
  refine ⟨?_,by simp⟩
  dsimp only [acquire]
  split <;> rfl

theorem own_setTerminal (status : String) (answer error : LuaValue) :
    Own fun request => (request.setTerminal status answer error,[]) := by
  intro request
  refine ⟨?_,by simp⟩
  dsimp only [setTerminal]
  split
  · rfl
  · split <;> rfl

theorem own_recordOutcome (status : String) (error : LuaValue) :
    Own fun request => (request.recordOutcome status error,[]) := by
  intro request
  refine ⟨?_,by simp⟩
  dsimp only [recordOutcome]
  split
  · rfl
  · split <;> rfl

theorem own_force (status : String) (error : LuaValue) : Own fun request => (request.force status error,[]) := by
  intro request
  refine ⟨?_,by simp⟩
  dsimp only [force]
  split <;> rfl

theorem own_recheck (blocked : Bool) : Own (recheck blocked) := by
  intro request
  dsimp only [recheck]
  split
  · simp
  · split <;> simp [completion]

theorem own_release (obligation : String) (blocked : Bool) : Own (release obligation blocked) := by
  intro request
  unfold release
  split
  · simp
  · exact own_recheck blocked { request with obligations := request.obligations.erase obligation }

theorem own_authorityLost (error : LuaValue) : Own (authorityLost error) := by
  intro request
  unfold authorityLost
  split <;> simp [completion]

end Request

/-- What a call does to one request. -/
def Call.actOn (id : String) : Call → Local
  | accept name sessionId => if name = id then accepting id sessionId else fun request => (request,[])
  | acquire name obligation sessionId =>
    if name = id then fun request => onSome (fun request => (request.acquire obligation,[])) (accepting id sessionId request).1
    else fun request => (request,[])
  | acquireAll names obligation sessionId =>
    if id ∈ copyIds names then
      fun request => onSome (fun request => (request.acquire obligation,[])) (accepting id sessionId request).1
    else fun request => (request,[])
  | setTerminal names status answer error =>
    if id ∈ copyIds names then onSome fun request => (request.setTerminal status answer error,[]) else fun request => (request,[])
  | recordOutcome names status error =>
    if id ∈ copyIds names then onSome fun request => (request.recordOutcome status error,[]) else fun request => (request,[])
  | force name status error =>
    if name = id then onSome fun request => (request.force status error,[]) else fun request => (request,[])
  | release name obligation blocked =>
    if name = id then onSome (Request.release obligation (blocked id)) else fun request => (request,[])
  | releaseAll names obligation blocked =>
    if id ∈ copyIds names then onSome (Request.release obligation (blocked id)) else fun request => (request,[])
  | recheck name blocked => if name = id then onSome (Request.recheck (blocked id)) else fun request => (request,[])
  | recheckAll blocked => onSome (Request.recheck (blocked id))
  | authorityLost error => onSome (Request.authorityLost error)

theorem copyIds_nodup (ids : List String) : (copyIds ids).Nodup := by
  unfold copyIds
  rw [List.nodup_reverse]
  exact List.nodup_dedup _

theorem acts_acquire (obligation : String) (sessionId : LuaValue) :
    Acts (fun lifecycle name => lifecycle.acquire name obligation sessionId) fun id request =>
      onSome (fun request => (request.acquire obligation,[])) (accepting id sessionId request).1 := by
  intro lifecycle name hnamed
  obtain ⟨hlast,hstep⟩ := (acts_accept sessionId).comp (acts_onRequest fun _ => Request.own_acquire obligation) lifecycle name hnamed
  refine ⟨hlast,fun id => ⟨(hstep id).1,(hstep id).2.trans ?_⟩⟩
  cases lifecycle.requests.lookup id <;> rfl

section
variable {lifecycle : Lifecycle} {op : Lifecycle → String → Lifecycle} {g : String → Local}

/-- A lifecycle after a step that does `act` to each request. -/
def Becomes (lifecycle after : Lifecycle) (act : String → Local) : Prop :=
  after.Named ∧ ∀ id, after.requests.lookup id = (act id (lifecycle.requests.lookup id)).1 ∧
    after.emittedFor id = lifecycle.emittedFor id ++ (act id (lifecycle.requests.lookup id)).2

theorem Acts.single (h : Acts op g) (hnamed : lifecycle.Named) (name : String) :
    Becomes lifecycle (op lifecycle name) fun id => if name = id then g id else fun request => (request,[]) := by
  obtain ⟨hlast,hstep⟩ := h lifecycle name hnamed
  refine ⟨hlast,fun id => ?_⟩
  rw [(hstep id).1,(hstep id).2]
  by_cases hid : name = id <;> simp [hid]

theorem Acts.several (h : Acts op g) (hnamed : lifecycle.Named) (names : List String) :
    Becomes lifecycle ((copyIds names).foldl op lifecycle) fun id =>
      if id ∈ copyIds names then g id else fun request => (request,[]) := by
  obtain ⟨hlast,hrest⟩ := h.foldl (copyIds_nodup names) hnamed
  refine ⟨hlast,fun id => ?_⟩
  rw [(hrest id).1,(hrest id).2]
  by_cases hid : id ∈ copyIds names <;> simp [hid]

/-- A request that is not there is left alone by a sweep over all of them. -/
theorem Acts.every (h : Acts op g) (hnamed : lifecycle.Named) (habsent : ∀ id, g id none = (none,[])) :
    Becomes lifecycle (lifecycle.requests.keys.foldl op lifecycle) g := by
  obtain ⟨hlast,hrest⟩ := h.foldl lifecycle.requests.keys_nodup hnamed
  refine ⟨hlast,fun id => ?_⟩
  rw [(hrest id).1,(hrest id).2]
  by_cases hid : id ∈ lifecycle.requests.keys
  · simp [hid]
  · have hlookup : lifecycle.requests.lookup id = none := AList.lookup_eq_none.mpr hid
    simp [hid,hlookup,habsent]

theorem Call.becomes (call : Call) (hnamed : lifecycle.Named) : Becomes lifecycle (call.run lifecycle) fun id => call.actOn id := by
  cases call with
  | accept name sessionId => exact (acts_accept sessionId).single hnamed name
  | acquire name obligation sessionId => exact (acts_acquire obligation sessionId).single hnamed name
  | acquireAll names obligation sessionId => exact (acts_acquire obligation sessionId).several hnamed names
  | setTerminal names status answer error =>
    exact (acts_onRequest fun _ => Request.own_setTerminal status answer error).several hnamed names
  | recordOutcome names status error => exact (acts_onRequest fun _ => Request.own_recordOutcome status error).several hnamed names
  | force name status error => exact (acts_onRequest fun _ => Request.own_force status error).single hnamed name
  | release name obligation blocked =>
    exact (acts_onRequest fun name => Request.own_release obligation (blocked name)).single hnamed name
  | releaseAll names obligation blocked =>
    exact (acts_onRequest fun name => Request.own_release obligation (blocked name)).several hnamed names
  | recheck name blocked => exact (acts_onRequest fun name => Request.own_recheck (blocked name)).single hnamed name
  | recheckAll blocked => exact (acts_onRequest fun name => Request.own_recheck (blocked name)).every hnamed fun _ => rfl
  | authorityLost error => exact (acts_onRequest fun _ => Request.own_authorityLost error).every hnamed fun _ => rfl

end

/-! One request, from its acceptance to its completion. -/

/-- A request that is still open after `facts`. The terminal it has, if any, already has the status that the
facts decide, however often they rewrote it. -/
structure Request.Open (request : Request) (facts : List Effect) : Prop where
  completed : request.completed = false
  forced : request.forced.map Terminal.status = (facts.filterMap Effect.force?).getLast?
  outcome : request.forced = none → request.outcome.map Outcome.status = standing (facts.filterMap Effect.outcome?)
  terminal : ∀ terminal, request.terminal = some terminal → verdict facts = some terminal.status

namespace Request
variable {request : Request} {facts : List Effect}

theorem open_new (id : String) (sessionId : LuaValue) : (new id sessionId).Open [] where
  completed := rfl
  forced := rfl
  outcome := fun _ => rfl
  terminal := nofun

theorem Open.acquire (h : request.Open facts) (obligation : String) : (request.acquire obligation).Open facts := by
  unfold Request.acquire
  rw [if_neg (by simp [h.completed])]
  exact ⟨h.completed,h.forced,h.outcome,h.terminal⟩

theorem verdict_forced {forced : Terminal} (h : request.Open facts) (hforced : request.forced = some forced)
    {facts' : List Effect} (hsame : facts'.filterMap Effect.force? = facts.filterMap Effect.force?) :
    verdict facts' = some forced.status := by
  unfold verdict
  rw [hsame,← h.forced,hforced]
  rfl

theorem verdict_outcome {outcome : Outcome} (h : request.Open facts) (hforced : request.forced = none)
    (houtcome : request.outcome = some outcome) {facts' : List Effect}
    (hforce : facts'.filterMap Effect.force? = facts.filterMap Effect.force?)
    (hsame : facts'.filterMap Effect.outcome? = facts.filterMap Effect.outcome?) :
    verdict facts' = some outcome.status := by
  unfold verdict
  rw [hforce,← h.forced,hforced,hsame,← h.outcome hforced,houtcome]
  rfl

/-- A new terminal, where the forced statuses and the outcomes are the same as before. -/
theorem Open.withTerminal (h : request.Open facts) {facts' : List Effect} {terminal : Terminal}
    (hforce : facts'.filterMap Effect.force? = facts.filterMap Effect.force?)
    (houtcome : facts'.filterMap Effect.outcome? = facts.filterMap Effect.outcome?)
    (hverdict : verdict facts' = some terminal.status) : { request with terminal := some terminal }.Open facts' where
  completed := h.completed
  forced := by rw [hforce]; exact h.forced
  outcome := by rw [houtcome]; exact h.outcome
  terminal := fun found hfound => by cases hfound; exact hverdict

theorem Open.setTerminal (h : request.Open facts) (status : String) (answer error : LuaValue) :
    (request.setTerminal status answer error).Open (facts ++ [.terminal status]) := by
  have hforce : (facts ++ [Effect.terminal status]).filterMap Effect.force? = facts.filterMap Effect.force? := by
    simp [Effect.force?]
  have houtcome : (facts ++ [Effect.terminal status]).filterMap Effect.outcome? = facts.filterMap Effect.outcome? := by
    simp [Effect.outcome?]
  unfold Request.setTerminal
  rw [if_neg (by simp [h.completed])]
  split
  · next forced _ hforced => exact h.withTerminal hforce houtcome (verdict_forced h hforced hforce)
  · next outcome hforced hrecorded =>
    exact h.withTerminal hforce houtcome (verdict_outcome h hforced hrecorded hforce houtcome)
  · next hforced hrecorded =>
    apply h.withTerminal hforce houtcome
    unfold verdict
    rw [hforce,houtcome,← h.forced,← h.outcome hforced,hforced,hrecorded]
    simp [Effect.terminal?]

theorem standing_append (statuses : List String) (status : String) :
    standing (statuses ++ [status]) =
      if statuses = [] ∨ status = "interrupted" then some status else standing statuses := by
  cases statuses with
  | nil => simp [standing]
  | cons first rest =>
    by_cases hstatus : status = "interrupted"
    · subst hstatus
      simp [standing]
    · simp [standing,hstatus,Ne.symm hstatus]

theorem Open.recordOutcome (h : request.Open facts) (status : String) (error : LuaValue) :
    (request.recordOutcome status error).Open (facts ++ [.outcome status]) := by
  have hforce : (facts ++ [Effect.outcome status]).filterMap Effect.force? = facts.filterMap Effect.force? := by
    simp [Effect.force?]
  have hrecorded : standing ((facts ++ [Effect.outcome status]).filterMap Effect.outcome?) =
      if facts.filterMap Effect.outcome? = [] ∨ status = "interrupted" then some status
      else standing (facts.filterMap Effect.outcome?) := by
    rw [List.filterMap_append]
    exact standing_append _ _
  unfold Request.recordOutcome
  cases hforced : request.forced with
  | some forced =>
    rw [if_pos (by simp)]
    refine ⟨h.completed,by rw [hforce]; exact h.forced,by simp [hforced],fun terminal hterminal => ?_⟩
    rw [verdict_forced h hforced hforce,← h.terminal terminal hterminal]
    exact (verdict_forced h hforced rfl).symm
  | none =>
    rw [if_neg (by simp [h.completed])]
    have hfirst : request.outcome = none ↔ facts.filterMap Effect.outcome? = [] := by
      rw [← Option.map_eq_none_iff (f := Outcome.status),h.outcome hforced]
      cases facts.filterMap Effect.outcome? <;> simp [standing]
    by_cases hwrites : request.outcome.isNone ∨ status = "interrupted"
    · rw [if_pos hwrites]
      have hnow : standing ((facts ++ [Effect.outcome status]).filterMap Effect.outcome?) = some status := by
        rw [hrecorded,if_pos]
        rwa [← hfirst,← Option.isNone_iff_eq_none]
      refine ⟨h.completed,by rw [hforce,← hforced]; exact h.forced,fun _ => hnow.symm,fun terminal hterminal => ?_⟩
      obtain ⟨old,-,rfl⟩ := Option.map_eq_some_iff.mp hterminal
      unfold verdict
      rw [hforce,hnow,← h.forced,hforced]
      rfl
    · rw [if_neg hwrites]
      have hnow : standing ((facts ++ [Effect.outcome status]).filterMap Effect.outcome?) =
          standing (facts.filterMap Effect.outcome?) := by
        rw [hrecorded,if_neg]
        rwa [← hfirst,← Option.isNone_iff_eq_none]
      refine ⟨h.completed,by rw [hforce]; exact h.forced,fun _ => hnow ▸ h.outcome hforced,fun terminal hterminal => ?_⟩
      rw [← h.terminal terminal hterminal]
      unfold verdict
      rw [hforce,hnow]
      simp [Effect.terminal?]

theorem Open.force (h : request.Open facts) (status : String) (error : LuaValue) :
    (request.force status error).Open (facts ++ [.force status]) := by
  unfold Request.force
  rw [if_neg (by simp [h.completed])]
  refine ⟨h.completed,by simp [Effect.force?],nofun,fun terminal hterminal => ?_⟩
  cases hterminal
  simp [verdict,Effect.force?]

end Request

/-- A call that takes an open request to `facts` leaves it open, or completes it with the terminal it has then. -/
inductive Settles (id : String) (call : Call) (facts : List Effect) : Option Request × List RequestCompleted → Prop
  | stays {after : Request} (h : after.Open facts) : Settles id call facts (some after,[])
  | completes {after : Request} {terminal : Terminal} (hcompleted : after.completed = true)
      (hterminal : after.terminal = some terminal) (hobligations : after.obligations = ∅)
      (hverdict : verdict facts = some terminal.status)
      (hanswer : call.losesAuthority = false → call.answer id = some false) :
      Settles id call facts (some after,[after.completion terminal])

section
variable {id : String} {request : Request} {facts : List Effect}

theorem Request.Open.recheck (h : request.Open facts) {call : Call} {blocked : Bool} (hanswer : call.answer id = some blocked) :
    Settles id call facts (onSome (Request.recheck blocked) (some request)) := by
  dsimp only [onSome,Request.recheck]
  split
  · exact .stays h
  · next terminal hterminal =>
    split
    · exact .stays h
    · next hclear =>
      simp only [not_or,Bool.not_eq_true,Finset.not_nonempty_iff_eq_empty] at hclear
      refine Settles.completes rfl hterminal hclear.2.1 (h.terminal terminal hterminal) ?_
      intro _
      rw [hanswer,hclear.2.2]

theorem Request.Open.release (h : request.Open facts) {call : Call} {blocked : Bool} (hanswer : call.answer id = some blocked)
    (obligation : String) : Settles id call facts (onSome (Request.release obligation blocked) (some request)) := by
  dsimp only [onSome,Request.release]
  split
  · exact .stays h
  · have hopen : { request with obligations := request.obligations.erase obligation }.Open facts :=
      ⟨h.completed,h.forced,h.outcome,h.terminal⟩
    exact hopen.recheck hanswer

theorem Request.Open.authorityLost (h : request.Open facts) (error : LuaValue) :
    Settles id (.authorityLost error) (facts ++ [.force "error"]) (onSome (Request.authorityLost error) (some request)) := by
  dsimp only [onSome,Request.authorityLost]
  rw [if_neg (by simp [h.completed])]
  refine Settles.completes rfl rfl rfl ?_ ?_ <;> simp [verdict,Effect.force?,Call.losesAuthority]

theorem Settles.keep (h : request.Open facts) (call : Call) : Settles id call (facts ++ []) (some request,[]) := by
  rw [List.append_nil]
  exact .stays h

/-- One call on an open request. -/
theorem Request.Open.step (h : request.Open facts) (call : Call) :
    Settles id call (facts ++ (call.effect id).toList) (call.actOn id (some request)) := by
  cases call with
  | accept name sessionId =>
    dsimp only [Call.actOn]
    split <;> exact Settles.keep h _
  | acquire name obligation sessionId =>
    dsimp only [Call.actOn]
    split
    · exact Settles.keep (h.acquire obligation) _
    · exact Settles.keep h _
  | acquireAll names obligation sessionId =>
    dsimp only [Call.actOn]
    split
    · exact Settles.keep (h.acquire obligation) _
    · exact Settles.keep h _
  | setTerminal names status answer error =>
    dsimp only [Call.actOn,Call.effect]
    split
    · exact .stays (h.setTerminal status answer error)
    · exact Settles.keep h _
  | recordOutcome names status error =>
    dsimp only [Call.actOn,Call.effect]
    split
    · exact .stays (h.recordOutcome status error)
    · exact Settles.keep h _
  | force name status error =>
    dsimp only [Call.actOn,Call.effect]
    split
    · exact .stays (h.force status error)
    · exact Settles.keep h _
  | release name obligation blocked =>
    dsimp only [Call.actOn,Call.effect,Option.toList]
    rw [List.append_nil]
    split
    · exact h.release rfl obligation
    · exact .stays h
  | releaseAll names obligation blocked =>
    dsimp only [Call.actOn,Call.effect,Option.toList]
    rw [List.append_nil]
    split
    · exact h.release rfl obligation
    · exact .stays h
  | recheck name blocked =>
    dsimp only [Call.actOn,Call.effect,Option.toList]
    rw [List.append_nil]
    split
    · exact h.recheck rfl
    · exact .stays h
  | recheckAll blocked =>
    dsimp only [Call.actOn,Call.effect,Option.toList]
    rw [List.append_nil]
    exact h.recheck rfl
  | authorityLost error => exact h.authorityLost error

/-- No call changes a completed request, and nothing more is emitted for it. -/
theorem Call.actOn_completed (call : Call) (hcompleted : request.completed = true) :
    call.actOn id (some request) = (some request,[]) := by
  have hrecheck (blocked : Bool) : request.recheck blocked = (request,[]) := by
    unfold Request.recheck
    split
    · rfl
    · rw [if_pos (Or.inl hcompleted)]
  have hrelease (obligation : String) (blocked : Bool) : request.release obligation blocked = (request,[]) := by
    unfold Request.release
    rw [if_pos (Or.inl hcompleted)]
  cases call <;> dsimp only [actOn] <;> try split
  all_goals simp [accepting,onSome,Request.acquire,Request.setTerminal,Request.recordOutcome,Request.force,
    Request.authorityLost,hrecheck,hrelease,hcompleted]

theorem copyIds_ne {names : List String} (h : id ∈ copyIds names) : id ≠ "" := by
  unfold copyIds at h
  rw [List.mem_reverse,List.mem_dedup,List.mem_reverse,List.mem_filter] at h
  simpa using h.2

/-- A call on a request that is not there accepts it, or does nothing to it. -/
theorem Call.actOn_absent (call : Call) :
    call.accepts id = false ∧ call.actOn id none = (none,[]) ∨
      call.accepts id = true ∧ call.effect id = none ∧ ∃ request : Request, request.Open [] ∧ call.actOn id none = (some request,[]) := by
  cases call with
  | accept name sessionId =>
    by_cases h : name = id ∧ id ≠ ""
    · refine Or.inr ⟨by simp [accepts,h],rfl,_,Request.open_new id sessionId,?_⟩
      simp [actOn,accepting,h.1,h.2]
    · refine Or.inl ⟨by simpa [accepts] using h,?_⟩
      simp only [actOn]
      split
      · next heq =>
        have hempty : id = "" := not_not.mp fun hne => h ⟨heq,hne⟩
        subst hempty
        rfl
      · rfl
  | acquire name obligation sessionId =>
    by_cases h : name = id ∧ id ≠ ""
    · refine Or.inr ⟨by simp [accepts,h],rfl,_,(Request.open_new id sessionId).acquire obligation,?_⟩
      simp [actOn,accepting,onSome,h.1,h.2]
    · refine Or.inl ⟨by simpa [accepts] using h,?_⟩
      simp only [actOn,accepting]
      split
      · next heq =>
        have hempty : id = "" := not_not.mp fun hne => h ⟨heq,hne⟩
        subst hempty
        rfl
      · rfl
  | acquireAll names obligation sessionId =>
    by_cases h : id ∈ copyIds names
    · refine Or.inr ⟨by simp [accepts,h],rfl,_,(Request.open_new id sessionId).acquire obligation,?_⟩
      simp [actOn,accepting,onSome,h,copyIds_ne h]
    · exact Or.inl ⟨by simp [accepts,h],by simp [actOn,h]⟩
  | _ =>
    refine Or.inl ⟨rfl,?_⟩
    dsimp only [actOn]
    try split
    all_goals rfl

theorem effects_append (calls : List Call) (call : Call) :
    effects id (calls ++ [call]) =
      if calls.any fun call => call.accepts id then effects id calls ++ (call.effect id).toList
      else if call.accepts id then (call.effect id).toList else [] := by
  have hempty : (calls.dropWhile fun call => !call.accepts id).isEmpty = !calls.any fun call => call.accepts id := by
    induction calls with
    | nil => rfl
    | cons first rest ih =>
      rw [List.dropWhile_cons]
      by_cases h : first.accepts id <;> simp [h,ih]
  have hlast : [call].filterMap (Call.effect id) = (call.effect id).toList := by
    cases heffect : call.effect id <;> simp [heffect]
  unfold effects
  rw [List.dropWhile_append,hempty]
  cases hany : calls.any fun call => call.accepts id with
  | true => simp [hlast]
  | false => cases hcall : call.accepts id <;> simp [hcall,hlast]

end

/-- Where a request stands after some calls. -/
inductive Stage (id : String) (calls : List Call) : Option Request × List RequestCompleted → Prop
  | absent (haccepts : (calls.any fun call => call.accepts id) = false) : Stage id calls (none,[])
  | opened {request : Request} (haccepts : (calls.any fun call => call.accepts id) = true)
      (h : request.Open (effects id calls)) : Stage id calls (some request,[])
  | completed {request : Request} (completed : RequestCompleted) (h : request.completed = true) :
      Stage id calls (some request,[completed])

theorem Named.runs (calls : List Call) : (Lifecycle.runs calls).Named := by
  induction calls using List.reverseRecOn with
  | nil => exact fun id request h => by simp [Lifecycle.runs,Lifecycle.new] at h
  | append_singleton calls call ih =>
    rw [Lifecycle.runs,List.foldl_append]
    exact (call.becomes ih).1

/-- What a run leaves of a request. -/
def Lifecycle.of (lifecycle : Lifecycle) (id : String) : Option Request × List RequestCompleted :=
  (lifecycle.requests.lookup id,lifecycle.emittedFor id)

theorem of_append (calls : List Call) (call : Call) (id : String) :
    (Lifecycle.runs (calls ++ [call])).of id =
      ((call.actOn id ((Lifecycle.runs calls).of id).1).1,
        ((Lifecycle.runs calls).of id).2 ++ (call.actOn id ((Lifecycle.runs calls).of id).1).2) := by
  obtain ⟨hlookup,hemitted⟩ := (call.becomes (Named.runs calls)).2 id
  rw [Lifecycle.runs,List.foldl_append]
  exact Prod.ext hlookup hemitted

/-- One more call, at each stage. -/
theorem Stage.step {id : String} {calls : List Call} {reached : Option Request × List RequestCompleted}
    (h : Stage id calls reached) (call : Call) :
    Stage id (calls ++ [call]) ((call.actOn id reached.1).1,reached.2 ++ (call.actOn id reached.1).2) := by
  have hany : ((calls ++ [call]).any fun call => call.accepts id) =
      ((calls.any fun call => call.accepts id) || call.accepts id) := by simp
  cases h with
  | absent haccepts =>
    obtain ⟨hcall,hact⟩ | ⟨hcall,heffect,request,hopen,hact⟩ := @Call.actOn_absent id call
    · rw [hact]
      exact .absent (by rw [hany,haccepts,hcall]; rfl)
    · rw [hact]
      refine .opened (by rw [hany,hcall,Bool.or_true]) ?_
      rw [effects_append,haccepts,heffect]
      simpa using hopen
  | opened haccepts hopen =>
    have hfacts : effects id (calls ++ [call]) = effects id calls ++ (call.effect id).toList := by
      rw [effects_append,if_pos haccepts]
    have hstep := @Request.Open.step id _ _ hopen call
    dsimp only
    generalize call.actOn id (some _) = after at hstep
    cases hstep with
    | stays h =>
      refine .opened (by rw [hany,haccepts]; rfl) ?_
      rwa [hfacts]
    | completes hcompleted => exact .completed _ hcompleted
  | completed completed hcompleted =>
    rw [call.actOn_completed hcompleted]
    exact .completed completed hcompleted

theorem Stage.runs (id : String) (calls : List Call) : Stage id calls ((Lifecycle.runs calls).of id) := by
  induction calls using List.reverseRecOn with
  | nil => exact .absent rfl
  | append_singleton calls call ih =>
    rw [of_append]
    exact ih.step call

theorem of_completed {id : String} {calls : List Call} {request : Request}
    (hlookup : ((Lifecycle.runs calls).of id).1 = some request) (hcompleted : request.completed = true) (later : List Call) :
    (Lifecycle.runs (calls ++ later)).of id = (Lifecycle.runs calls).of id := by
  induction later using List.reverseRecOn with
  | nil => rw [List.append_nil]
  | append_singleton later call ih =>
    rw [← List.append_assoc,of_append,ih,hlookup,call.actOn_completed hcompleted,List.append_nil]
    exact Prod.ext hlookup.symm rfl

/-- The call that completes a request finds it settled, and gives it the status of the recorded facts. -/
theorem completes {id : String} {calls : List Call} {call : Call} {completed : RequestCompleted}
    (h : (Lifecycle.runs (calls ++ [call])).emittedFor id = (Lifecycle.runs calls).emittedFor id ++ [completed]) :
    ∃ request terminal, (Lifecycle.runs (calls ++ [call])).requests.lookup id = some request ∧ request.completed = true ∧
      request.terminal = some terminal ∧ request.obligations = ∅ ∧ completed = request.completion terminal ∧
      verdict (effects id (calls ++ [call])) = some completed.status ∧
      (call.losesAuthority = false → call.answer id = some false) := by
  have hafter := of_append calls call id
  have hemitted : (call.actOn id ((Lifecycle.runs calls).of id).1).2 = [completed] := by
    have hsecond := congrArg Prod.snd hafter
    exact List.append_cancel_left (hsecond.symm.trans h)
  have hlookup := congrArg Prod.fst hafter
  have hstage := Stage.runs id calls
  generalize (Lifecycle.runs calls).of id = reached at hstage hemitted hlookup
  cases hstage with
  | absent haccepts =>
    obtain ⟨-,hact⟩ | ⟨-,-,request,-,hact⟩ := @Call.actOn_absent id call <;> simp [hact] at hemitted
  | opened haccepts hopen =>
    have hstep := @Request.Open.step id _ _ hopen call
    dsimp only at hemitted hlookup
    generalize call.actOn id (some _) = after at hstep hemitted hlookup
    cases hstep with
    | stays => cases hemitted
    | @completes after terminal hcompleted hterminal hobligations hverdict hanswer =>
      cases hemitted
      refine ⟨after,terminal,hlookup,hcompleted,hterminal,hobligations,rfl,?_,hanswer⟩
      rw [effects_append,if_pos haccepts,hverdict]
      rfl
  | completed found hcompleted =>
    rw [call.actOn_completed hcompleted] at hemitted
    cases hemitted

/-- Completion is emitted at most once, with the verdict of what was recorded, and freezes the request; the
verdict does not see how outcomes, terminals and forced statuses were interleaved. -/
theorem completed_once :
    (∀ calls id, ((Lifecycle.runs calls).emittedFor id).length ≤ 1) ∧
    (∀ calls call id completed,
      (Lifecycle.runs (calls ++ [call])).emittedFor id = (Lifecycle.runs calls).emittedFor id ++ [completed] →
      (∃ request terminal, (Lifecycle.runs (calls ++ [call])).requests.lookup id = some request ∧
        request.terminal = some terminal ∧ request.obligations = ∅ ∧ completed = request.completion terminal ∧
        verdict (effects id (calls ++ [call])) = some completed.status ∧
        (call.losesAuthority = false → call.answer id = some false)) ∧
      ∀ later, (Lifecycle.runs (calls ++ [call] ++ later)).of id = (Lifecycle.runs (calls ++ [call])).of id) ∧
    ∀ facts facts' : List Effect, facts.filterMap Effect.force? = facts'.filterMap Effect.force? →
      facts.filterMap Effect.outcome? = facts'.filterMap Effect.outcome? →
      facts.filterMap Effect.terminal? = facts'.filterMap Effect.terminal? → verdict facts = verdict facts' := by
  refine ⟨fun calls id => ?_,fun calls call id completed h => ?_,fun facts facts' hforce houtcome hterminal => ?_⟩
  · have hstage := Stage.runs id calls
    change ((Lifecycle.runs calls).of id).2.length ≤ 1
    generalize (Lifecycle.runs calls).of id = reached at hstage
    cases hstage with
    | absent => exact Nat.zero_le 1
    | opened => exact Nat.zero_le 1
    | completed => exact Nat.le_refl 1
  · obtain ⟨request,terminal,hlookup,hcompleted,hfacts⟩ := completes h
    exact ⟨⟨request,terminal,hlookup,hfacts⟩,of_completed hlookup hcompleted⟩
  · unfold verdict
    rw [hforce,houtcome,hterminal]

/-- An interruption that is recorded after the terminal decides the status, and the answer stays. -/
theorem completed_once_interrupted :
    let calls : List Call := [.acquire "request" "turn" .nil,.setTerminal ["request"] "completed" (.str "done") .nil,
      .recordOutcome ["request"] "interrupted" .nil]
    let completed : RequestCompleted := ⟨"request",.nil,"interrupted",.str "done",.nil⟩
    (Lifecycle.runs (calls ++ [.release "request" "turn" fun _ => false])).emittedFor "request" = [completed] ∧
    ∀ later, (Lifecycle.runs (calls ++ [.release "request" "turn" fun _ => false] ++ later)).of "request" =
      (Lifecycle.runs (calls ++ [.release "request" "turn" fun _ => false])).of "request" := by
  intro calls completed
  exact ⟨rfl,(completed_once.2.1 calls (.release "request" "turn" fun _ => false) "request" completed rfl).2⟩

end Nefor.AgenticLoop
