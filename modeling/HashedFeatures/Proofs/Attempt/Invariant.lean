import HashedFeatures.Attempt

/-! Properties of the state that a step keeps, however it ends. -/

set_option autoImplicit false

namespace HashedFeatures.Attempt

variable {σ α β : Type} {P : σ → Prop}

theorem run_tryCatch (body : Attempt σ α) (handler : Fault → Attempt σ α) (state : σ) :
    (tryCatch body handler).run state =
      match body.run state with
      | (.ok a, reached) => (.ok a, reached)
      | (.error fault, reached) => (handler fault).run reached := by
  unfold Attempt.run ExceptT.run StateT.run
  simp only [tryCatch, tryCatchThe, MonadExceptOf.tryCatch, ExceptT.tryCatch, ExceptT.mk, bind, StateT.bind]
  cases body state with
  | mk outcome reached => cases outcome <;> rfl

theorem run_change_of_ok {f : σ → Except Fault σ} {state next : σ} (changed : f state = .ok next) :
    (change f).run state = (.ok (), next) := by
  unfold change
  rw [run_make, changed]

theorem run_change_of_error {f : σ → Except Fault σ} {state : σ} {fault : Fault} (failed : f state = .error fault) :
    (change f).run state = (.error fault, state) := by
  unfold change
  rw [run_make, failed]

theorem run_bind_ok {step : Attempt σ α} {next : α → Attempt σ β} {state reached : σ} {a : α}
    (done : step.run state = (.ok a, reached)) : (step >>= next).run state = (next a).run reached := by
  rw [run_bind, done]

/-- A sequence yields a result exactly if both of its steps do. -/
theorem run_bind_eq_ok {step : Attempt σ α} {next : α → Attempt σ β} {state reached : σ} {b : β} :
    (step >>= next).run state = (.ok b, reached) ↔
      ∃ a middle, step.run state = (.ok a, middle) ∧ (next a).run middle = (.ok b, reached) := by
  rw [run_bind]
  constructor
  · intro run
    split at run
    case h_1 a middle first => exact ⟨a, middle, first, run⟩
    case h_2 => cases run
  · rintro ⟨a, middle, first, run⟩
    rw [first]
    exact run

theorem run_foldlM {items : List β} {step : α → β → Attempt σ α} {state : σ} (next : α → β → α)
    (each : ∀ item ∈ items, ∀ a, (step a item).run state = (.ok (next a item), state)) (a : α) :
    (items.foldlM step a).run state = (.ok (items.foldl next a), state) := by
  induction items generalizing a with
  | nil => rfl
  | cons item items ih =>
    rw [List.foldlM_cons, run_bind_ok (each item List.mem_cons_self a)]
    exact ih (fun item member => each item (List.mem_cons_of_mem _ member)) _

theorem run_forM_cons {item : β} {items : List β} {step : β → Attempt σ PUnit} {state reached : σ}
    (done : (step item).run state = (.ok ⟨⟩, reached)) :
    ((item :: items).forM step).run state = (items.forM step).run reached :=
  run_bind_ok done

/-- Steps that each append to what was made so far append everything together. -/
theorem run_forM_append {γ : Type} {items : List β} {step : β → Attempt σ PUnit} (state : List γ → σ)
    (made : β → List γ)
    (each : ∀ item ∈ items, ∀ done, (step item).run (state done) = (.ok ⟨⟩, state (done ++ made item)))
    (done : List γ) : (items.forM step).run (state done) = (.ok ⟨⟩, state (done ++ items.flatMap made)) := by
  induction items generalizing done with
  | nil => rw [List.flatMap_nil, List.append_nil]; rfl
  | cons item items ih =>
    rw [run_forM_cons (each item List.mem_cons_self done), List.flatMap_cons, ← List.append_assoc]
    exact ih (fun item member => each item (List.mem_cons_of_mem _ member)) _

/-- A step that starts with the property ends with it, also when it stops. -/
def Keeps (P : σ → Prop) (step : Attempt σ α) : Prop :=
  ∀ state, P state → P (step.run state).2

theorem Keeps.pure (a : α) : Keeps P (pure a : Attempt σ α) := fun _ holds => holds

theorem Keeps.throw (fault : Fault) : Keeps P (throw fault : Attempt σ α) := fun _ holds => holds

theorem Keeps.get : Keeps P (get : Attempt σ σ) := fun _ holds => holds

theorem Keeps.modify {f : σ → σ} (kept : ∀ state, P state → P (f state)) :
    Keeps P (modify f : Attempt σ PUnit) := kept

theorem Keeps.bind {step : Attempt σ α} {next : α → Attempt σ β} (first : Keeps P step)
    (second : ∀ a, Keeps P (next a)) : Keeps P (step >>= next) := by
  intro state holds
  have reached := first state holds
  rw [run_bind]
  -- What follows runs only if the first step did not stop.
  match step.run state, reached with
  | (.ok a, middle), reached => exact second a middle reached
  | (.error fault, middle), reached => exact reached

theorem Keeps.forM {items : List β} {step : β → Attempt σ PUnit} (each : ∀ item, Keeps P (step item)) :
    Keeps P (items.forM step) := by
  induction items with
  | nil => exact Keeps.pure _
  | cons item items ih => exact (each item).bind fun _ => ih

theorem Keeps.tryCatch {body : Attempt σ α} {handler : Fault → Attempt σ α} (kept : Keeps P body)
    (handled : ∀ fault, Keeps P (handler fault)) : Keeps P (tryCatch body handler) := by
  intro state holds
  have reached := kept state holds
  rw [run_tryCatch]
  match body.run state, reached with
  | (.ok a, middle), reached => exact reached
  | (.error fault, middle), reached => exact handled fault middle reached

theorem Keeps.scope {guard : Guard σ} {body : Attempt σ α} (opened : ∀ state, P state → P (guard.opened state))
    (closed : ∀ saved state, P state → P (guard.closed saved state)) (kept : Keeps P body) :
    Keeps P (guard.scope body) := by
  intro state holds
  rw [Guard.run_scope]
  exact closed _ _ (kept _ (opened state holds))

end HashedFeatures.Attempt
