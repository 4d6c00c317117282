import HashedFeatures.Proofs.Weights.Alias
import HashedFeatures.Proofs.Weights.Descent
import Mathlib.Logic.Function.Basic

/-! Handles share their storage, or they have nothing to do with each other.

Shallow copies are one handle. A deep copy starts with the cells of its original, but whatever is done through it
and through the handles that come from it changes no read through the others, nor the other way round; and
this is so of a handle that was moved into shared memory.
-/

set_option autoImplicit false

namespace HashedFeatures

namespace Weights

structure Sides where
  memory : Memory
  handles : Bool → List Weights

namespace Sides

def family (sides : Sides) (side : Bool) : Family := ⟨sides.memory, sides.handles side⟩

/-- A command through a handle of one side; the handles that it makes are on that side too. -/
def step (sides : Sides) (side : Bool) (number : Nat) (command : Command) : Sides :=
  let family := ((sides.family side).step number command).2
  ⟨family.memory, Function.update sides.handles side family.handles⟩

def after (sides : Sides) (steps : List (Bool × Nat × Command)) : Sides :=
  steps.foldl (fun sides (side, number, command) => sides.step side number command) sides

/-- From now on and at any time, no command through a handle of one side changes what is read on the other. -/
def Isolated (sides : Sides) : Prop :=
  ∀ (steps : List (Bool × Nat × Command)) (side : Bool) (number : Nat) (command : Command),
    let reached := sides.after steps
    ∀ handle ∈ reached.handles (!side), ∀ index,
      handle.peek (reached.step side number command).memory index = handle.peek reached.memory index

structure Apart (sides : Sides) : Prop where
  lives : ∀ side, ∀ handle ∈ sides.handles side, handle.storage.Lives sides.memory
  disjoint : ∀ side, ∀ handle ∈ sides.handles side, ∀ other ∈ sides.handles (!side), handle.storage ≠ other.storage

variable {sides : Sides} {side : Bool} {number : Nat} {command : Command}

theorem handles_step_self : (sides.step side number command).handles side =
    ((sides.family side).step number command).2.handles := Function.update_self ..

theorem handles_step_of_ne {other : Bool} (different : other ≠ side) :
    (sides.step side number command).handles other = sides.handles other := Function.update_of_ne different ..

-- What a command leaves on its side comes from that side or is new, so it stays apart.
theorem Apart.step (apart : sides.Apart) (side : Bool) (number : Nat) (command : Command) :
    (sides.step side number command).Apart := by
  have own := (sides.family side).step_descends number command (apart.lives side)
  have grown : ∀ place : Storage, place.Lives sides.memory → place.Lives (sides.step side number command).memory :=
    fun place => (sides.family side).step_keeps fun _ _ => keeps_attempt (Storage.spares_lives _ _) command
  have lives : ∀ which, ∀ handle ∈ (sides.step side number command).handles which,
      handle.storage.Lives (sides.step side number command).memory := by
    intro which handle member
    by_cases same : which = side
    · subst same
      rw [handles_step_self] at member
      obtain ⟨_, _, descends⟩ := own handle member
      exact descends.lives
    · rw [handles_step_of_ne same] at member
      exact grown _ (apart.lives which handle member)
  have separate : ∀ handle ∈ ((sides.family side).step number command).2.handles,
      ∀ other ∈ sides.handles (!side), handle.storage ≠ other.storage := by
    intro handle member other elsewhere
    obtain ⟨weights, present, descends⟩ := own handle member
    rcases descends.origin with same | new
    · exact same ▸ apart.disjoint side weights present other elsewhere
    · intro same
      exact new (same ▸ apart.lives (!side) other elsewhere)
  refine ⟨lives, fun which handle member other elsewhere => ?_⟩
  by_cases same : which = side
  · subst same
    rw [handles_step_self] at member
    rw [handles_step_of_ne (Bool.not_ne_self which)] at elsewhere
    exact separate handle member other elsewhere
  · obtain rfl : which = !side := Bool.eq_not_of_ne same
    rw [handles_step_of_ne same] at member
    rw [Bool.not_not, handles_step_self] at elsewhere
    exact (separate other elsewhere handle member).symm

theorem Apart.after (apart : sides.Apart) (steps : List (Bool × Nat × Command)) : (sides.after steps).Apart := by
  induction steps generalizing sides with
  | nil => exact apart
  | cons first rest ih => exact ih (apart.step first.1 first.2.1 first.2.2)

theorem Apart.peek_step (apart : sides.Apart) (side : Bool) (number : Nat) (command : Command) {handle : Weights}
    (elsewhere : handle ∈ sides.handles (!side)) (index : UInt64) :
    handle.peek (sides.step side number command).memory index = handle.peek sides.memory index := by
  apply peek_of_kept
  refine (sides.family side).step_keeps (fun weights present => ?_) (apart.lives _ handle elsewhere).kept
  exact keeps_attempt (Storage.spares_kept _ (apart.disjoint side weights present handle elsewhere)) command

theorem Apart.isolated (apart : sides.Apart) : sides.Isolated :=
  fun steps side number command _ elsewhere index => (apart.after steps).peek_step side number command elsewhere index

theorem apart_of_new {memory after : Memory} {handles : List Weights} {made : Weights}
    (lives : ∀ handle ∈ handles, handle.storage.Lives memory)
    (grown : ∀ place : Storage, place.Lives memory → place.Lives after)
    (new : ¬ made.storage.Lives memory) (madeLives : made.storage.Lives after) :
    Apart ⟨after, fun side => if side then [made] else handles⟩ where
  lives := by
    intro side handle member
    cases side with
    | false => exact grown _ (lives handle member)
    | true => exact List.mem_singleton.1 member ▸ madeLives
  disjoint := by
    intro side handle member other elsewhere same
    cases side with
    | false => exact new (List.mem_singleton.1 elsewhere ▸ same ▸ lives handle member)
    | true => exact new (List.mem_singleton.1 member ▸ same ▸ lives other elsewhere)

end Sides

/-- A step makes a handle on cells of its own: they are those of the source, nothing that is read changes, and from
then on the new handle has nothing to do with those that were there. -/
def Separates (handles : List Weights) (source : DenseWeights) (memory : Memory) (step : Attempt Memory DenseWeights) :
    Prop :=
  ∃ made after, step.run memory = (.ok made, after) ∧
    (made.cells.run after).1 = (source.cells.run memory).1 ∧
    (∀ index, (Weights.dense made).peek after index = (Weights.dense source).peek memory index) ∧
    (∀ handle ∈ handles, ∀ index, handle.peek after index = handle.peek memory index) ∧
    Sides.Isolated ⟨after, fun side => if side then [.dense made] else handles⟩

theorem separates_of_push {handles : List Weights} {source : DenseWeights} {memory : Memory} {array : DenseArray}
    (lives : ∀ handle ∈ handles, handle.storage.Lives memory)
    (found : memory.arrays[source.address]? = some array) {step : Attempt Memory DenseWeights} (shared : Bool)
    (records : Array Record)
    (run : step.run memory = (.ok { source with address := memory.arrays.size },
      { memory with arrays := memory.arrays.push ⟨array.cells, shared⟩, records })) :
    Separates handles source memory step := by
  have pushed : ({ memory with arrays := memory.arrays.push ⟨array.cells, shared⟩, records } : Memory).arrays[
      memory.arrays.size]? = some ⟨array.cells, shared⟩ := Array.getElem?_push_size
  have grown {P : Memory → Prop} (grows : Storage.Grows P) (holds : P memory) :
      P { memory with arrays := memory.arrays.push ⟨array.cells, shared⟩, records } :=
    grows.log _ records (grows.push memory _ holds)
  refine ⟨_, _, run, ?_, ?_, ?_, ?_⟩
  · rw [DenseWeights.run_cells pushed, DenseWeights.run_cells found]
  · exact peek_dense_congr found pushed rfl rfl
  · intro handle member index
    exact peek_of_kept (grown (Storage.grows_kept _ _) (lives handle member).kept) index
  · refine (Sides.apart_of_new lives (fun place => grown (Storage.spares_lives place place).toGrows) ?_ ?_).isolated
    · exact Nat.lt_irrefl memory.arrays.size
    · exact Nat.lt_of_lt_of_eq (Nat.lt_succ_self _) (Array.size_push _).symm

/-- Whatever is done through shallow copies reads as through one handle. A deep copy has the same cells and is
isolated from then on; so is a handle that is moved into shared memory, and one that is there already stays. -/
theorem handles_alias_or_separate (memory : Memory) :
    (∀ (weights : Weights) (steps : List (Nat × Command)), Aliasing weights.isSparse 1 steps →
      let copied := Family.after ⟨memory, [weights]⟩ steps
      let alone := Family.after ⟨memory, [weights]⟩ (onOne steps)
      Family.answers ⟨memory, [weights]⟩ steps = Family.answers ⟨memory, [weights]⟩ (onOne steps) ∧
        ∃ handle, alone.handles = [handle] ∧
          ∀ copy ∈ copied.handles, ∀ index, copy.peek copied.memory index = handle.peek alone.memory index) ∧
    ∀ (handles : List Weights) (source : DenseWeights), (∀ handle ∈ handles, handle.storage.Lives memory) →
      .dense source ∈ handles →
      ∃ array, memory.arrays[source.address]? = some array ∧
        Separates handles source memory source.deepCopy ∧
        (array.shared = false → array.cells ≠ #[] → Separates handles source memory source.share) ∧
        (array.shared = true → source.share.run memory = (.ok source, memory)) := by
  constructor
  · intro weights steps aliasing copied alone
    exact ⟨(Family.run_copies memory aliasing).1, Family.peek_copies aliasing⟩
  · intro handles source lives member
    obtain ⟨array, found, -⟩ := (lives _ member).kept
    refine ⟨array, found, ?_, ?_, ?_⟩
    · exact separates_of_push lives found false memory.records (source.run_deepCopy found)
    · exact fun unshared some => separates_of_push lives found true _ (source.run_share found unshared some)
    · exact source.run_share_of_shared found

/-- Two cells, read and written through two copies; then they are copied, and moved into shared memory. -/
theorem handles_alias_or_separate_pair :
    let source : DenseWeights := ⟨⟨1, 0, 0, by decide⟩, 0⟩
    let memory : Memory := ⟨#[⟨#[1, 2], false⟩], #[], #[]⟩
    let steps : List (Nat × Command) :=
      [(0, .shallowCopy), (1, .operate (.set 3 5)), (0, .operate (.get 1))]
    (Aliasing (Weights.dense source).isSparse 1 steps ∧
      (∀ handle ∈ [Weights.dense source], handle.storage.Lives memory)) ∧
      Family.answers ⟨memory, [.dense source]⟩ steps = [.ok none, .ok (some 5)] ∧
      Separates [.dense source] source memory source.deepCopy ∧
      Separates [.dense source] source memory source.share := by
  intro source memory steps
  have aliasing : Aliasing (Weights.dense source).isSparse 1 steps := by simp [steps, Aliasing]
  have lives : ∀ handle ∈ [Weights.dense source], handle.storage.Lives memory := by
    intro handle member
    rw [List.mem_singleton.1 member]
    exact Nat.one_pos
  obtain ⟨copies, separate⟩ := handles_alias_or_separate memory
  obtain ⟨array, found, copied, moved, -⟩ := separate _ source lives (List.mem_singleton.2 rfl)
  cases found
  refine ⟨⟨aliasing, lives⟩, ?_, copied, moved rfl (Array.ne_empty_of_size_pos Nat.two_pos)⟩
  rw [(copies _ steps aliasing).1]
  decide

end Weights

end HashedFeatures
