import HashedFeatures.Proofs.Weights.Family
import HashedFeatures.Proofs.Weights.Reading
import Mathlib.Data.List.Basic

/-! Shallow copies are one handle.

The handles that come from one another by shallow copies stay equal, whatever is done through any of them: dense
weights keep their handle when they are initialised, and sparse ones are initialised before there are copies.
-/

set_option autoImplicit false

namespace HashedFeatures

namespace Weights

/-- Commands through `count` handles and their shallow copies. The handle of sparse weights gets an initialiser
only while it is the only one. -/
def Aliasing (sparse : Bool) : Nat → List (Nat × Command) → Prop
  | _, [] => True
  | count, (number, .operate _) :: rest => number < count ∧ Aliasing sparse count rest
  | count, (number, .setDefault _) :: rest =>
    number < count ∧ (sparse = true → count = 1) ∧ Aliasing sparse count rest
  | count, (number, .shallowCopy) :: rest => number < count ∧ Aliasing sparse (count + 1) rest
  | _, (_, .deepCopy) :: _ => False
  | _, (_, .share) :: _ => False

def onOne : List (Nat × Command) → List (Nat × Command)
  | [] => []
  | (_, .shallowCopy) :: rest => onOne rest
  | (_, command) :: rest => (0, command) :: onOne rest

theorem setDefault_run_ok {weights installed : Weights} {init : Initialiser} {memory after : Memory}
    (run : (weights.setDefault init).run memory = (.ok installed, after)) :
    installed.isSparse = weights.isSparse ∧ (weights.isSparse = false → installed = weights) := by
  cases weights with
  | dense array =>
    rw [setDefault, Attempt.run_bind] at run
    split at run
    · cases run
      exact ⟨rfl, fun _ => rfl⟩
    · cases run
  | sparse blocks =>
    cases run
    exact ⟨rfl, nofun⟩

namespace Family

def copies (memory : Memory) (count : Nat) (weights : Weights) : Family :=
  ⟨memory, List.replicate count weights⟩

variable {memory : Memory} {weights : Weights} {count number : Nat}

theorem copies_handle (memory : Memory) (weights : Weights) (inside : number < count) :
    (copies memory count weights).handles[number]? = some weights := by
  rw [copies, List.getElem?_replicate, if_pos inside]

theorem step_operate (memory : Memory) (weights : Weights) (inside : number < count) (operation : Operation) :
    (copies memory count weights).step number (.operate operation) =
      (some ((weights.perform operation).run memory).1,
        copies ((weights.perform operation).run memory).2 count weights) := by
  have named := copies_handle memory weights inside
  cases run : (weights.perform operation).run memory with
  | mk outcome after =>
    cases outcome with
    | ok answer =>
      rw [step_of_ok named (Attempt.run_bind_ok run)]
      simp [copies]
    | error fault =>
      have stopped : ((Command.operate operation).attempt weights).run memory = (.error fault, after) := by
        rw [Command.attempt, Attempt.run_bind, run]
      rw [step_of_error named stopped]
      rfl

theorem step_shallowCopy (inside : number < count) :
    (copies memory count weights).step number .shallowCopy = (none, copies memory (count + 1) weights) := by
  rw [step_of_ok (copies_handle memory weights inside) (Attempt.run_pure _ _)]
  simp [copies, shallowCopy, List.replicate_succ']

/-- Initialising one of the copies is initialising the only handle: dense copies stay equal, a sparse handle has
none. -/
theorem step_setDefault (memory : Memory) (inside : number < count) (init : Initialiser)
    (alone : weights.isSparse = true → count = 1) :
    ∃ (answer : Answer) (after : Memory) (installed : Weights), installed.isSparse = weights.isSparse ∧
      (copies memory count weights).step number (.setDefault init) = (some answer, copies after count installed) ∧
      (copies memory 1 weights).step 0 (.setDefault init) = (some answer, copies after 1 installed) := by
  have named := copies_handle memory weights inside
  have first := copies_handle memory weights Nat.one_pos
  cases run : (weights.setDefault init).run memory with
  | mk outcome after =>
    cases outcome with
    | ok installed =>
      obtain ⟨kind, same⟩ := setDefault_run_ok run
      refine ⟨.ok none, after, installed, kind, ?_, ?_⟩
      · rw [step_of_ok named (Attempt.run_bind_ok run)]
        cases sparse : weights.isSparse with
        | false => simp [copies, same sparse]
        | true =>
          obtain rfl := alone sparse
          obtain rfl : number = 0 := by omega
          simp [copies]
      · rw [step_of_ok first (Attempt.run_bind_ok run)]
        simp [copies]
    | error fault =>
      have stopped : ((Command.setDefault init).attempt weights).run memory = (.error fault, after) := by
        rw [Command.attempt, Attempt.run_bind, run]
      exact ⟨.error fault, after, weights, rfl, step_of_error named stopped, step_of_error first stopped⟩

/-- Commands through some copies answer as they do through one handle, and leave copies of the handle it becomes. -/
theorem run_copies (memory : Memory) {steps : List (Nat × Command)}
    (aliasing : Aliasing weights.isSparse count steps) :
    (copies memory count weights).answers steps = (copies memory 1 weights).answers (onOne steps) ∧
      ∃ (after : Memory) (copied : Nat) (final : Weights),
        (copies memory count weights).after steps = copies after copied final ∧
        (copies memory 1 weights).after (onOne steps) = copies after 1 final := by
  induction steps generalizing memory count weights with
  | nil => exact ⟨rfl, memory, count, weights, rfl, rfl⟩
  | cons first rest ih =>
    obtain ⟨number, command⟩ := first
    cases command with
    | operate operation =>
      obtain ⟨inside, aliasing⟩ := aliasing
      have one := step_operate memory weights Nat.one_pos operation
      simp only [onOne, answers, after_cons, step_operate memory weights inside, one]
      exact ⟨congrArg _ (ih _ aliasing).1, (ih _ aliasing).2⟩
    | setDefault init =>
      obtain ⟨inside, alone, aliasing⟩ := aliasing
      obtain ⟨answer, after, installed, kind, many, one⟩ := step_setDefault memory inside init alone
      rw [← kind] at aliasing
      simp only [onOne, answers, after_cons, many, one]
      exact ⟨congrArg _ (ih _ aliasing).1, (ih _ aliasing).2⟩
    | shallowCopy =>
      obtain ⟨inside, aliasing⟩ := aliasing
      simp only [onOne, answers, after_cons, step_shallowCopy inside]
      exact ih _ aliasing
    | deepCopy | share => exact aliasing.elim

theorem peek_copies {steps : List (Nat × Command)} (aliasing : Aliasing weights.isSparse 1 steps) :
    ∃ handle, (after ⟨memory, [weights]⟩ (onOne steps)).handles = [handle] ∧
      ∀ copy ∈ (after ⟨memory, [weights]⟩ steps).handles, ∀ index,
        copy.peek (after ⟨memory, [weights]⟩ steps).memory index =
          handle.peek (after ⟨memory, [weights]⟩ (onOne steps)).memory index := by
  obtain ⟨-, reached, count, final, many, one⟩ := run_copies memory aliasing
  have manyEq : after ⟨memory, [weights]⟩ steps = copies reached count final := many
  have oneEq : after ⟨memory, [weights]⟩ (onOne steps) = copies reached 1 final := one
  rw [manyEq, oneEq]
  refine ⟨final, rfl, fun copy member index => ?_⟩
  rw [List.eq_of_mem_replicate member]
  rfl

end Family

end Weights

end HashedFeatures
