import Mathlib.Tactic.Common

/-! Stateful computations that can fail half-way. Unlike a transaction, a failure keeps
whatever was written before it, which is what code mutating a shared table does. -/
namespace Nefor

/-- A computation over `σ` that ends with a value or an error and always leaves a state. -/
def Action (σ ε α : Type) := σ → Except ε α × σ

namespace Action
variable {σ ε α β : Type}

instance : Monad (Action σ ε) where
  pure a := fun s => (.ok a,s)
  bind m k := fun s => match m s with
    | (.ok a,s') => k a s'
    | (.error e,s') => (.error e,s')

def fail (e : ε) : Action σ ε α := fun s => (.error e,s)
def read : Action σ ε σ := fun s => (.ok s,s)
def update (f : σ → σ) : Action σ ε Unit := fun s => (.ok (),f s)

/-- Stop with `e` unless the condition holds. -/
def require (b : Bool) (e : ε) : Action σ ε Unit := if b then pure () else fail e

/-- Stop with `e` unless a value is present. -/
def need (o : Option α) (e : ε) : Action σ ε α := match o with
  | some a => pure a
  | none => fail e

/-- Run a computation and hand its ending on as a value. -/
def attempt (m : Action σ ε α) : Action σ ε (Except ε α) := fun s => match m s with
  | (r,s') => (.ok r,s')

@[simp] theorem pure_apply (a : α) (s : σ) : (pure a : Action σ ε α) s = (.ok a,s) := rfl
@[simp] theorem fail_apply (e : ε) (s : σ) : (fail e : Action σ ε α) s = (.error e,s) := rfl
@[simp] theorem read_apply (s : σ) : (read : Action σ ε σ) s = (.ok s,s) := rfl
@[simp] theorem update_apply (f : σ → σ) (s : σ) :
    (update f : Action σ ε Unit) s = (.ok (),f s) := rfl

theorem bind_apply (m : Action σ ε α) (k : α → Action σ ε β) (s : σ) :
    (m >>= k) s = match m s with
      | (.ok a,s') => k a s'
      | (.error e,s') => (.error e,s') := rfl

theorem bind_ok {m : Action σ ε α} {k : α → Action σ ε β} {s s' : σ} {a : α}
    (h : m s = (.ok a,s')) : (m >>= k) s = k a s' := by rw [bind_apply,h]

theorem bind_error {m : Action σ ε α} {k : α → Action σ ε β} {s s' : σ} {e : ε}
    (h : m s = (.error e,s')) : (m >>= k) s = (.error e,s') := by rw [bind_apply,h]

@[simp] theorem attempt_apply (m : Action σ ε α) (s : σ) : attempt m s = (.ok (m s).1,(m s).2) := rfl

@[simp] theorem require_true (e : ε) (s : σ) :
    (require true e : Action σ ε Unit) s = (.ok (),s) := rfl
@[simp] theorem require_false (e : ε) (s : σ) :
    (require false e : Action σ ε Unit) s = (.error e,s) := rfl
@[simp] theorem need_some (a : α) (e : ε) (s : σ) :
    (need (some a) e : Action σ ε α) s = (.ok a,s) := rfl
@[simp] theorem need_none (e : ε) (s : σ) :
    (need none e : Action σ ε α) s = (.error e,s) := rfl

/-- Postconditions for both endings: `ok` for a value, `err` for a failure. -/
def Ends (m : Action σ ε α) (ok : α → σ → Prop) (err : ε → σ → Prop) (s : σ) : Prop :=
  match m s with
  | (.ok a,s') => ok a s'
  | (.error e,s') => err e s'

section Rules
variable {ok : α → σ → Prop} {err : ε → σ → Prop} {s : σ}

@[simp] theorem ends_pure (a : α) : Ends (pure a : Action σ ε α) ok err s ↔ ok a s := Iff.rfl
@[simp] theorem ends_fail (e : ε) : Ends (fail e : Action σ ε α) ok err s ↔ err e s := Iff.rfl
@[simp] theorem ends_read {ok : σ → σ → Prop} : Ends read ok err s ↔ ok s s := Iff.rfl
@[simp] theorem ends_update {ok : Unit → σ → Prop} (f : σ → σ) :
    Ends (update f) ok err s ↔ ok () (f s) := Iff.rfl

@[simp] theorem ends_require {ok : Unit → σ → Prop} (b : Bool) (e : ε) :
    Ends (require b e) ok err s ↔ (b = true → ok () s) ∧ (b = false → err e s) := by
  cases b <;> simp [require]

@[simp] theorem ends_need (o : Option α) (e : ε) :
    Ends (need o e) ok err s ↔ (∀ a, o = some a → ok a s) ∧ (o = none → err e s) := by
  cases o <;> simp [need]

/-- The second part starts where the first one ends. -/
@[simp] theorem ends_bind {ok : β → σ → Prop} (m : Action σ ε α) (k : α → Action σ ε β) :
    Ends (m >>= k) ok err s ↔ Ends m (fun a s' => Ends (k a) ok err s') err s := by
  unfold Ends
  rw [bind_apply]
  rcases m s with ⟨e | a,s'⟩ <;> rfl

@[simp] theorem ends_ite (p : Prop) [Decidable p] (m n : Action σ ε α) :
    Ends (if p then m else n) ok err s ↔
      (p → Ends m ok err s) ∧ (¬p → Ends n ok err s) := by
  by_cases h : p <;> simp [h]

/-- The rule of consequence. -/
theorem Ends.mono {ok' : α → σ → Prop} {err' : ε → σ → Prop} {m : Action σ ε α}
    (h : Ends m ok err s) (hok : ∀ a s', ok a s' → ok' a s')
    (herr : ∀ e s', err e s' → err' e s') : Ends m ok' err' s := by
  unfold Ends at h ⊢
  rcases hm : m s with ⟨e | a,s'⟩ <;> rw [hm] at h
  · exact herr e s' h
  · exact hok a s' h

theorem Ends.and {ok' : α → σ → Prop} {err' : ε → σ → Prop} {m : Action σ ε α}
    (h : Ends m ok err s) (h' : Ends m ok' err' s) :
    Ends m (fun a s' => ok a s' ∧ ok' a s') (fun e s' => err e s' ∧ err' e s') s := by
  unfold Ends at h h' ⊢
  rcases hm : m s with ⟨e | a,s'⟩ <;> rw [hm] at h h' <;> exact ⟨h,h'⟩

theorem Ends.of_ok {m : Action σ ε α} (h : Ends m ok err s) {a : α} {s' : σ}
    (hm : m s = (.ok a,s')) : ok a s' := by
  unfold Ends at h; rwa [hm] at h

theorem Ends.of_error {m : Action σ ε α} (h : Ends m ok err s) {e : ε} {s' : σ}
    (hm : m s = (.error e,s')) : err e s' := by
  unfold Ends at h; rwa [hm] at h

end Rules

/-- A failure leaves the state it started from. -/
def Keeps (m : Action σ ε α) (s : σ) : Prop :=
  Ends m (fun _ _ => True) (fun _ s' => s' = s) s

/-- A failure is of the kind `P`. -/
def FailsAs (P : ε → Prop) (m : Action σ ε α) (s : σ) : Prop :=
  Ends m (fun _ _ => True) (fun e _ => P e) s

/-- There is no failure. -/
def Passes (m : Action σ ε α) (s : σ) : Prop :=
  Ends m (fun _ _ => True) (fun _ _ => False) s

section Outcomes
variable {P : ε → Prop} {m : Action σ ε α} {s s' : σ}

theorem keeps_ok {a : α} (h : m s = (.ok a,s')) : Keeps m s := by
  unfold Keeps Ends; rw [h]; trivial

theorem keeps_error {e : ε} (h : m s = (.error e,s')) : Keeps m s ↔ s' = s := by
  unfold Keeps Ends; rw [h]

theorem failsAs_ok {a : α} (h : m s = (.ok a,s')) : FailsAs P m s := by
  unfold FailsAs Ends; rw [h]; trivial

theorem failsAs_error {e : ε} (h : m s = (.error e,s')) : FailsAs P m s ↔ P e := by
  unfold FailsAs Ends; rw [h]

theorem passes_ok {a : α} (h : m s = (.ok a,s')) : Passes m s := by
  unfold Passes Ends; rw [h]; trivial

theorem not_passes_error {e : ε} (h : m s = (.error e,s')) : ¬Passes m s := by
  unfold Passes Ends; rw [h]; exact id

end Outcomes

/-- The computation only looks at the state, and its failures are of the kind `P`. -/
def Inspects (P : ε → Prop) (m : Action σ ε α) (s : σ) : Prop :=
  Ends m (fun _ s' => s' = s) (fun e s' => s' = s ∧ P e) s

theorem Inspects.cases {P : ε → Prop} {m : Action σ ε α} {s : σ} (h : Inspects P m s) :
    (∃ a, m s = (.ok a,s)) ∨ ∃ e, P e ∧ m s = (.error e,s) := by
  unfold Inspects Ends at h
  rcases hm : m s with ⟨e | a,s'⟩ <;> rw [hm] at h
  · obtain ⟨rfl,he⟩ := h
    exact .inr ⟨e,he,rfl⟩
  · exact .inl ⟨a,by rw [h]⟩

/-- The state left behind satisfies `Q`, whatever the ending. -/
def Leaves (Q : σ → Prop) (m : Action σ ε α) (s : σ) : Prop :=
  Ends m (fun _ => Q) (fun _ => Q) s

theorem leaves_iff (Q : σ → Prop) (m : Action σ ε α) (s : σ) : Leaves Q m s ↔ Q (m s).2 := by
  unfold Leaves Ends
  rcases m s with ⟨e | a,s'⟩ <;> rfl

end Action
end Nefor
