import HashedFeatures.Proofs.Weights.Flat
import HashedFeatures.Proofs.Weights.Memory

/-! Dense weights are a flat array: every step on a handle is the step on the flat array. -/

set_option autoImplicit false

namespace HashedFeatures

namespace DenseWeights

variable {weights : DenseWeights} {memory : Memory} {flat : Flat weights.layout}

def Holds (weights : DenseWeights) (memory : Memory) (flat : Flat weights.layout) : Prop :=
  ∃ array, memory.arrays[weights.address]? = some array ∧ array.cells = Array.ofFn flat

theorem Holds.run_cells (holds : weights.Holds memory flat) :
    weights.cells.run memory = (.ok (Array.ofFn flat), memory) := by
  obtain ⟨array, found, cells⟩ := holds
  rw [DenseWeights.cells, Attempt.run_bind_ok (Memory.run_array found), Attempt.run_pure, cells]

theorem Holds.run_get (holds : weights.Holds memory flat) (index : UInt64) :
    (weights.get index).run memory = (.ok (flat.read index), memory) := by
  have cell : (Array.ofFn flat)[weights.place index]? = some (flat.read index) := by
    have place : weights.place index = (weights.layout.cell index).val := rfl
    rw [place, Array.getElem?_ofFn, dif_pos (weights.layout.cell index).isLt]
    rfl
  rw [get, Attempt.run_bind_ok holds.run_cells, cell]
  rfl

theorem Holds.updateCells (holds : weights.Holds memory flat) {f : Array Float32 → Array Float32}
    {changed : Flat weights.layout} (same : f (Array.ofFn flat) = Array.ofFn changed) :
    ∃ after, (Memory.updateCells weights.address f).run memory = (.ok (), after) ∧ weights.Holds after changed := by
  obtain ⟨array, found, cells⟩ := holds
  refine ⟨_, Memory.run_updateCells f, { array with cells := f array.cells }, ?_, ?_⟩
  · rw [Array.getElem?_modify, if_pos rfl, found]
    rfl
  · exact (congrArg f cells).trans same

theorem Holds.run_update (holds : weights.Holds memory flat) (index : UInt64) (f : Float32 → Float32) :
    ∃ after, (weights.update index f).run memory = (.ok (), after) ∧ weights.Holds after (flat.update index f) := by
  rw [update, Attempt.run_bind_ok (holds.run_get index)]
  exact holds.updateCells (Flat.modify_ofFn flat (weights.layout.cell index) f)

theorem Holds.run_setZero (holds : weights.Holds memory flat) (narrow : weights.layout.total < 64) (place : Nat) :
    ∃ after, (weights.setZero place).run memory = (.ok (), after) ∧ weights.Holds after (flat.setZero place) := by
  obtain ⟨stride, computed, width⟩ := Layout.stride_eq narrow
  rw [setZero, computed, Attempt.run_bind_ok (Attempt.run_lift (.ok stride) memory), width]
  by_cases inside : place < 2 ^ weights.layout.strideShift.toNat
  · rw [if_pos inside]
    exact holds.updateCells (Flat.zeroPlace_ofFn _ place flat)
  · rw [if_neg inside, flat.setZero_of_le (Nat.le_of_not_lt inside)]
    exact ⟨memory, rfl, holds⟩

theorem run_new {layout : Layout} (narrow : layout.total ≤ 48) (memory : Memory) :
    ∃ after, (DenseWeights.new layout).run memory = (.ok ⟨layout, memory.arrays.size⟩, after) ∧
      Holds ⟨layout, memory.arrays.size⟩ after (Flat.initial layout none) := by
  have count : cellCount layout = 2 ^ layout.total := Layout.toNat_rawLength (by omega)
  have room : 2 ^ layout.total < Memory.cellLimit := Memory.two_pow_lt_cellLimit (by omega)
  rw [new, count, Attempt.run_bind_ok (Memory.run_reserve room), Attempt.run_bind_ok (Memory.run_newArray _)]
  refine ⟨_, rfl, ⟨Array.replicate (2 ^ layout.total) 0, false⟩, ?_, ?_⟩
  · exact Array.getElem?_push_size
  · exact Array.ext (by simp) (by simp [Flat.initial])

theorem run_setDefault_eq (weights : DenseWeights) (narrow : weights.layout.total ≤ 48) (init : Initialiser)
    (memory : Memory) :
    (weights.setDefault init).run memory =
      (Memory.updateCells weights.address (mapSlots (2 ^ weights.layout.strideShift.toNat) fun slot =>
        init.run (UInt64.ofNat slot <<< UInt64.ofNat weights.layout.strideShift.toNat))).run memory := by
  obtain ⟨stride, computed, width⟩ := @Layout.stride_eq weights.layout (by omega)
  have fits : weights.layout.strideShift.toNat ≤ 48 :=
    Nat.le_trans weights.layout.strideShift_le (Nat.le_trans weights.layout.blockShift_le narrow)
  have room : 2 ^ weights.layout.strideShift.toNat < Memory.cellLimit := Memory.two_pow_lt_cellLimit (by omega)
  rw [setDefault, computed, Attempt.run_bind_ok (Attempt.run_lift (.ok stride) memory), width,
    Attempt.run_bind_ok (Memory.run_reserve room)]

theorem Holds.run_setDefault_of (holds : weights.Holds memory flat) (narrow : weights.layout.total ≤ 48)
    (init : Initialiser) {changed : Flat weights.layout}
    (same : mapSlots (2 ^ weights.layout.strideShift.toNat)
      (fun slot => init.run (UInt64.ofNat slot <<< UInt64.ofNat weights.layout.strideShift.toNat)) (Array.ofFn flat) =
        Array.ofFn changed) :
    ∃ after, (weights.setDefault init).run memory = (.ok (), after) ∧ weights.Holds after changed := by
  rw [run_setDefault_eq weights narrow]
  exact holds.updateCells same

theorem Holds.run_setDefault {weights : DenseWeights} {memory : Memory}
    (holds : weights.Holds memory (Flat.initial weights.layout none)) (narrow : weights.layout.total ≤ 48)
    (init : Initialiser) :
    ∃ after, (weights.setDefault init).run memory = (.ok (), after) ∧
      weights.Holds after (Flat.initial weights.layout (some init)) := by
  have zeros : Array.ofFn (Flat.initial weights.layout none) = Array.replicate (2 ^ weights.layout.total) 0 :=
    Array.ext (by simp) (by simp [Flat.initial])
  exact holds.run_setDefault_of narrow init (zeros ▸ Flat.mapSlots_eq_initial (by omega) init)

end DenseWeights

end HashedFeatures
