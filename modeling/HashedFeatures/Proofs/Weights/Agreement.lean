import HashedFeatures.Proofs.Weights.Dense
import HashedFeatures.Proofs.Weights.Sparse
import HashedFeatures.Weights.Handle

/-! Runs of operations read the same from dense weights, sparse weights and one flat array. -/

set_option autoImplicit false

namespace HashedFeatures

namespace Weights

inductive Operation where
  | get (index : UInt64)
  | set (index : UInt64) (value : Float32)
  | add (index : UInt64) (delta : Float32)
  | update (index : UInt64) (f : Float32 → Float32)
  | setZero (place : Nat)

def Operation.zeroes : Operation → Bool
  | .setZero _ => true
  | _ => false

def perform (weights : Weights) : Operation → Attempt Memory (Option Float32)
  | .get index => do return some (← weights.get index)
  | .set index value => do
    weights.set index value
    return none
  | .add index delta => do
    weights.add index delta
    return none
  | .update index f => do
    weights.update index f
    return none
  | .setZero place => do
    weights.setZero place
    return none

def performAll (weights : Weights) : List Operation → Attempt Memory (List Float32)
  | [] => return []
  | first :: rest => do
    let answer ← weights.perform first
    let answers ← performAll weights rest
    return answer.toList ++ answers

def install (sparse : Bool) (layout : Layout) : Option Initialiser → Attempt Memory Weights
  | none => Weights.new sparse layout
  | some init => do
    let weights ← Weights.new sparse layout
    weights.setDefault init

end Weights

namespace Flat

variable {layout : Layout}

def perform (flat : Flat layout) : Weights.Operation → Option Float32 × Flat layout
  | .get index => (some (flat.read index), flat)
  | .set index value => (none, flat.update index fun _ => value)
  | .add index delta => (none, flat.update index (· + delta))
  | .update index f => (none, flat.update index f)
  | .setZero place => (none, flat.setZero place)

def reads (flat : Flat layout) : List Weights.Operation → List Float32
  | [] => []
  | first :: rest => (flat.perform first).1.toList ++ reads (flat.perform first).2 rest

end Flat

namespace Weights

def Holds : (weights : Weights) → Memory → Flat weights.layout → Prop
  | .dense weights => weights.Holds
  | .sparse weights => weights.Holds

/-- No initialiser would fill what a later step allocates. -/
def Plain : Weights → Prop
  | .dense _ => True
  | .sparse weights => weights.initialiser = none

variable {weights : Weights} {memory : Memory} {flat : Flat weights.layout}

theorem Holds.run_get (holds : weights.Holds memory flat) (narrow : weights.layout.total ≤ 48) (index : UInt64) :
    ∃ after, (weights.get index).run memory = (.ok (flat.read index), after) ∧ weights.Holds after flat := by
  cases weights with
  | dense weights => exact ⟨memory, DenseWeights.Holds.run_get holds index, holds⟩
  | sparse weights => exact SparseWeights.Holds.run_get holds narrow index

theorem Holds.run_update (holds : weights.Holds memory flat) (narrow : weights.layout.total ≤ 48) (index : UInt64)
    (f : Float32 → Float32) :
    ∃ after, (weights.update index f).run memory = (.ok (), after) ∧ weights.Holds after (flat.update index f) := by
  cases weights with
  | dense weights => exact DenseWeights.Holds.run_update holds index f
  | sparse weights => exact SparseWeights.Holds.run_update holds narrow index f

theorem Holds.run_setZero (holds : weights.Holds memory flat) (narrow : weights.layout.total ≤ 48)
    (plain : weights.Plain) (place : Nat) :
    ∃ after, (weights.setZero place).run memory = (.ok (), after) ∧ weights.Holds after (flat.setZero place) := by
  cases weights with
  | dense weights => exact DenseWeights.Holds.run_setZero holds (Nat.lt_of_le_of_lt narrow (by decide)) place
  | sparse weights => exact SparseWeights.Holds.run_setZero holds narrow plain place

theorem Holds.run_perform (holds : weights.Holds memory flat) (narrow : weights.layout.total ≤ 48)
    (operation : Operation) (plain : operation.zeroes = true → weights.Plain) :
    ∃ after, (weights.perform operation).run memory = (.ok (flat.perform operation).1, after) ∧
      weights.Holds after (flat.perform operation).2 := by
  cases operation with
  | get index =>
    obtain ⟨after, run, holds⟩ := holds.run_get narrow index
    exact ⟨after, Attempt.run_bind_ok run, holds⟩
  | set index value =>
    obtain ⟨after, run, holds⟩ := holds.run_update narrow index fun _ => value
    exact ⟨after, Attempt.run_bind_ok run, holds⟩
  | add index delta =>
    obtain ⟨after, run, holds⟩ := holds.run_update narrow index (· + delta)
    exact ⟨after, Attempt.run_bind_ok run, holds⟩
  | update index f =>
    obtain ⟨after, run, holds⟩ := holds.run_update narrow index f
    exact ⟨after, Attempt.run_bind_ok run, holds⟩
  | setZero place =>
    obtain ⟨after, run, holds⟩ := holds.run_setZero narrow (plain rfl) place
    exact ⟨after, Attempt.run_bind_ok run, holds⟩

theorem Holds.run_performAll (holds : weights.Holds memory flat) (narrow : weights.layout.total ≤ 48)
    (operations : List Operation) (plain : ∀ operation ∈ operations, operation.zeroes = true → weights.Plain) :
    ((weights.performAll operations).run memory).1 = .ok (flat.reads operations) := by
  induction operations generalizing memory flat with
  | nil => rfl
  | cons first rest ih =>
    obtain ⟨after, run, holds⟩ := holds.run_perform narrow first (plain first List.mem_cons_self)
    have onward := ih holds fun operation member => plain operation (List.mem_cons_of_mem first member)
    rw [performAll, Attempt.run_bind_ok run, Attempt.run_bind]
    revert onward
    cases (weights.performAll rest).run after with
    | mk outcome reached =>
      rintro rfl
      rfl

/-- Installed weights are the flat array of initial cells; only the initialiser is not plain. -/
theorem run_install (sparse : Bool) {layout : Layout} (narrow : layout.total ≤ 48) (initialiser : Option Initialiser)
    (memory : Memory) :
    ∃ (weights : Weights) (after : Memory), (install sparse layout initialiser).run memory = (.ok weights, after) ∧
      (initialiser = none → weights.Plain) ∧
      ∃ same : weights.layout = layout, weights.Holds after (same ▸ Flat.initial layout initialiser) := by
  cases sparse with
  | false =>
    obtain ⟨after, run, holds⟩ := DenseWeights.run_new narrow memory
    have made : (Weights.new false layout).run memory = (.ok (.dense ⟨layout, memory.arrays.size⟩), after) :=
      Attempt.run_bind_ok run
    cases initialiser with
    | none => exact ⟨_, after, made, fun _ => trivial, rfl, holds⟩
    | some init =>
      obtain ⟨filled, fill, holds⟩ := holds.run_setDefault narrow init
      refine ⟨_, filled, (Attempt.run_bind_ok made).trans (Attempt.run_bind_ok fill), fun _ => trivial, rfl, holds⟩
  | true =>
    obtain ⟨after, run, found⟩ := SparseWeights.run_new layout memory
    have made : (Weights.new true layout).run memory = (.ok (.sparse ⟨layout, memory.maps.size, none⟩), after) :=
      Attempt.run_bind_ok run
    cases initialiser with
    | none => exact ⟨_, after, made, fun _ => rfl, rfl, .empty, found, .empty _⟩
    | some init =>
      refine ⟨_, after, Attempt.run_bind_ok made, ?_, rfl, .empty, found, .empty _⟩
      intro none
      cases none

/-- Whatever is installed and done, dense and sparse weights read as one flat array. -/
theorem performAll_reads_flat (layout : Layout) (narrow : layout.total ≤ 48) (initialiser : Option Initialiser)
    (operations : List Operation)
    (plain : ∀ operation ∈ operations, operation.zeroes = true → initialiser = none) (memory : Memory) :
    ((install false layout initialiser >>= (·.performAll operations)).run memory).1 =
        .ok ((Flat.initial layout initialiser).reads operations) ∧
      ((install true layout initialiser >>= (·.performAll operations)).run memory).1 =
        .ok ((Flat.initial layout initialiser).reads operations) := by
  have either : ∀ sparse, ((install sparse layout initialiser >>= (·.performAll operations)).run memory).1 =
      .ok ((Flat.initial layout initialiser).reads operations) := by
    intro sparse
    obtain ⟨weights, after, run, plainWeights, same, holds⟩ := run_install sparse narrow initialiser memory
    subst same
    rw [Attempt.run_bind_ok run]
    exact holds.run_performAll narrow operations fun operation member zeroes =>
      plainWeights (plain operation member zeroes)
  exact ⟨either false, either true⟩

/-- With eight cells, the index eleven wraps around to the third cell, an odd place. -/
theorem performAll_reads_flat_wraps :
    (Layout.total ⟨1, 1, 1, by decide⟩ ≤ 48 ∧ ∀ operation ∈ [Operation.set 11 5, .get 3, .setZero 1, .get 3],
      operation.zeroes = true → (none : Option Initialiser) = none) ∧
    ((install true ⟨1, 1, 1, by decide⟩ none >>= (·.performAll [.set 11 5, .get 3, .setZero 1, .get 3])).run
      .empty).1 = .ok [5, 0] := by
  have narrow : Layout.total ⟨1, 1, 1, by decide⟩ ≤ 48 := by decide
  have plain : ∀ operation ∈ [Operation.set 11 5, .get 3, .setZero 1, .get 3], operation.zeroes = true →
      (none : Option Initialiser) = none := fun _ _ _ => rfl
  refine ⟨⟨narrow, plain⟩, ?_⟩
  rw [(performAll_reads_flat _ narrow none _ plain .empty).2]
  rfl

end Weights

end HashedFeatures
