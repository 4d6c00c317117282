import HashedFeatures.Proofs.Weights.Agreement

/-! Handles in one memory, and the commands that go through them.

A handle is made by copying another one. A shallow copy has the storage of its original, a deep copy has one of
its own. Sharing moves a handle to a storage of its own, and leaves the others where they are.
-/

set_option autoImplicit false

namespace HashedFeatures

namespace Weights

structure Effect where
  answer : Option (Option Float32)
  handle : Weights
  made : Option Weights

inductive Command where
  | operate (operation : Operation)
  | setDefault (init : Initialiser)
  | shallowCopy
  /-- Only dense weights have a deep copy. -/
  | deepCopy
  | share

/-- A command through a handle. Copying answers nothing but a handle. -/
def Command.attempt (weights : Weights) : Command → Attempt Memory Effect
  | .operate operation => do return ⟨some (← weights.perform operation), weights, none⟩
  | .setDefault init => do return ⟨some none, ← weights.setDefault init, none⟩
  | .shallowCopy => return ⟨none, weights, some weights.shallowCopy⟩
  | .deepCopy =>
    match weights with
    | .dense array => do return ⟨none, weights, some (.dense (← array.deepCopy))⟩
    | .sparse _ => return ⟨none, weights, none⟩
  | .share => do return ⟨some none, ← weights.share, none⟩

abbrev Answer : Type := Except Fault (Option Float32)

structure Family where
  memory : Memory
  handles : List Weights

namespace Family

/-- A command through the handle of a number. The handle stays as it is when the command stops; where there is no
handle, nothing happens. -/
def step (family : Family) (number : Nat) (command : Command) : Option Answer × Family :=
  match family.handles[number]? with
  | none => (none, family)
  | some weights =>
    match (command.attempt weights).run family.memory with
    | (.ok effect, memory) =>
      (effect.answer.map .ok, ⟨memory, family.handles.set number effect.handle ++ effect.made.toList⟩)
    | (.error fault, memory) => (some (.error fault), { family with memory })

def after (family : Family) (steps : List (Nat × Command)) : Family :=
  steps.foldl (fun family (number, command) => (family.step number command).2) family

def answers : Family → List (Nat × Command) → List Answer
  | _, [] => []
  | family, (number, command) :: rest =>
    (family.step number command).1.toList ++ answers (family.step number command).2 rest

variable {family : Family} {number : Nat} {command : Command} {rest : List (Nat × Command)}

theorem after_cons : family.after ((number, command) :: rest) = (family.step number command).2.after rest := rfl

theorem step_of_none (missing : family.handles[number]? = none) : family.step number command = (none, family) := by
  rw [step, missing]

theorem step_of_ok {weights : Weights} {effect : Effect} {memory : Memory}
    (named : family.handles[number]? = some weights)
    (run : (command.attempt weights).run family.memory = (.ok effect, memory)) :
    family.step number command =
      (effect.answer.map .ok, ⟨memory, family.handles.set number effect.handle ++ effect.made.toList⟩) := by
  rw [step, named]
  simp only [run]

theorem step_of_error {weights : Weights} {fault : Fault} {memory : Memory}
    (named : family.handles[number]? = some weights)
    (run : (command.attempt weights).run family.memory = (.error fault, memory)) :
    family.step number command = (some (.error fault), { family with memory }) := by
  rw [step, named]
  simp only [run]

end Family

end Weights

end HashedFeatures
