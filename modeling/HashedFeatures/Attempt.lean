import HashedFeatures.Fault

/-! Steps on a state that may stop with a fault, and scopes that restore part of the state.

A step that stops leaves the state it had reached. A guard saves a part of the state when its
scope opens and writes it back when the scope closes, whichever way the scope ends.
-/

set_option autoImplicit false

namespace HashedFeatures

/-- A step: the outcome comes together with the state that was reached. -/
abbrev Attempt (σ α : Type) : Type := ExceptT Fault (StateM σ) α

namespace Attempt

variable {σ τ α β : Type}

def run (step : Attempt σ α) (state : σ) : Except Fault α × σ :=
  StateT.run (ExceptT.run step) state

def make (step : σ → Except Fault α × σ) : Attempt σ α :=
  ExceptT.mk step

@[simp] theorem run_make (step : σ → Except Fault α × σ) (state : σ) :
    (make step).run state = step state := rfl

@[simp] theorem run_pure (a : α) (state : σ) :
    (pure a : Attempt σ α).run state = (.ok a, state) := rfl

@[simp] theorem run_throw (fault : Fault) (state : σ) :
    (throw fault : Attempt σ α).run state = (.error fault, state) := rfl

@[simp] theorem run_get (state : σ) : (get : Attempt σ σ).run state = (.ok state, state) := rfl

@[simp] theorem run_set (next state : σ) :
    (set next : Attempt σ PUnit).run state = (.ok ⟨⟩, next) := rfl

@[simp] theorem run_modify (f : σ → σ) (state : σ) :
    (modify f : Attempt σ PUnit).run state = (.ok ⟨⟩, f state) := rfl

/-- What follows runs from the state that was reached, unless the first step stopped. -/
theorem run_bind (step : Attempt σ α) (next : α → Attempt σ β) (state : σ) :
    (step >>= next).run state =
      match step.run state with
      | (.ok a, reached) => (next a).run reached
      | (.error fault, reached) => (.error fault, reached) := by
  unfold Attempt.run ExceptT.run StateT.run
  simp only [bind, ExceptT.bind, ExceptT.mk, StateT.bind, ExceptT.bindCont]
  cases step state with
  | mk outcome reached => cases outcome <;> rfl

theorem run_map (f : α → β) (step : Attempt σ α) (state : σ) :
    (f <$> step).run state =
      ((step.run state).1.map f, (step.run state).2) := by
  unfold Attempt.run ExceptT.run StateT.run
  simp only [Functor.map, ExceptT.map, ExceptT.mk, bind, StateT.bind]
  cases step state with
  | mk outcome reached => cases outcome <;> rfl

/-- A change that fails before it has touched anything. -/
def change (f : σ → Except Fault σ) : Attempt σ Unit :=
  make fun state =>
    match f state with
    | .ok next => (.ok (), next)
    | .error fault => (.error fault, state)

def settle (step : Attempt σ α) : Attempt σ (Except Fault α) :=
  make fun state =>
    match step.run state with
    | (.error .aborted, reached) => (.error .aborted, reached)
    | (outcome, reached) => (.ok outcome, reached)

def focus (part : τ → σ) (put : σ → τ → τ) (step : Attempt σ α) : Attempt τ α :=
  make fun whole =>
    let (outcome, reached) := step.run (part whole)
    (outcome, put reached whole)

theorem run_focus (part : τ → σ) (put : σ → τ → τ) (step : Attempt σ α) (whole : τ) :
    (step.focus part put).run whole =
      ((step.run (part whole)).1, put (step.run (part whole)).2 whole) := rfl

end Attempt

structure Guard (σ : Type) where
  Saved : Type
  save : σ → Saved
  opened : σ → σ
  closed : Saved → σ → σ

namespace Guard

variable {σ τ α : Type}

/-- Run `body` inside the scope; it closes on both exits. -/
def scope (guard : Guard σ) (body : Attempt σ α) : Attempt σ α :=
  .make fun state =>
    let (outcome, reached) := body.run (guard.opened state)
    (outcome, guard.closed (guard.save state) reached)

def focus (part : τ → σ) (put : σ → τ → τ) (guard : Guard σ) : Guard τ where
  Saved := guard.Saved
  save := fun whole => guard.save (part whole)
  opened := fun whole => put (guard.opened (part whole)) whole
  closed := fun saved whole => put (guard.closed saved (part whole)) whole

theorem run_scope (guard : Guard σ) (body : Attempt σ α) (state : σ) :
    (guard.scope body).run state =
      ((body.run (guard.opened state)).1,
        guard.closed (guard.save state) (body.run (guard.opened state)).2) := rfl

end Guard

end HashedFeatures
