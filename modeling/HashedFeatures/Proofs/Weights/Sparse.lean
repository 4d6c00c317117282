import HashedFeatures.Proofs.Weights.Flat
import HashedFeatures.Proofs.Weights.Memory

/-! Sparse weights are a flat array of which some blocks are stored.

The allocated blocks are those of the flat array. On the others the flat array has its initial cells,
so that a block may be allocated at any time and by any step without a change to what is read.
-/

set_option autoImplicit false

namespace HashedFeatures

structure BlockMap.Stores {layout : Layout} (map : BlockMap) (initial flat : Flat layout) : Prop where
  allocated : ∀ (key : UInt64) (block : Array Float32), map.find? key = some block →
    key.toNat < 2 ^ layout.hashBits.toNat ∧ block = flat.block key.toNat
  missing : ∀ key : UInt64, key.toNat < 2 ^ layout.hashBits.toNat → map.find? key = none →
    flat.block key.toNat = initial.block key.toNat

namespace BlockMap.Stores

variable {layout : Layout} {map : BlockMap} {initial flat : Flat layout}

theorem empty (initial : Flat layout) : BlockMap.empty.Stores initial initial where
  allocated := fun key block found => by simp at found
  missing := fun _ _ _ => rfl

-- A block may be allocated at any time: it starts with the cells that the flat array has there.
theorem insert (stores : map.Stores initial flat) {key : UInt64} (inside : key.toNat < 2 ^ layout.hashBits.toNat)
    (absent : map.find? key = none) : (map.insert key (initial.block key.toNat)).Stores initial flat where
  allocated := by
    intro other block found
    rw [find?_insert] at found
    split at found
    case isTrue same =>
      subst same
      exact ⟨inside, (Option.some.inj found).symm.trans (stores.missing key inside absent).symm⟩
    case isFalse => exact stores.allocated other block found
  missing := by
    intro other otherInside none
    rw [find?_insert] at none
    split at none
    case isTrue => cases none
    case isFalse => exact stores.missing other otherInside none

theorem modify (stores : map.Stores initial flat) {index : UInt64} {f : Float32 → Float32} {key : UInt64}
    (same : key.toNat = (layout.cell index).val / 2 ^ layout.blockShift) (present : (map.find? key).isSome) :
    (map.modify key (·.modify ((layout.cell index).val % 2 ^ layout.blockShift) f)).Stores initial
      (flat.update index f) where
  allocated := by
    intro other block found
    rw [find?_modify] at found
    split at found
    case isTrue equal =>
      subst equal
      obtain ⟨before, foundBefore, rfl⟩ := Option.map_eq_some_iff.1 found
      obtain ⟨inside, rfl⟩ := stores.allocated key before foundBefore
      refine ⟨inside, ?_⟩
      rw [Flat.block_update flat index f inside, if_pos same.symm]
    case isFalse different =>
      obtain ⟨inside, rfl⟩ := stores.allocated other block found
      refine ⟨inside, ?_⟩
      rw [Flat.block_update flat index f inside, if_neg]
      exact fun equal => different (UInt64.toNat_inj.1 (same.trans equal))
  missing := by
    intro other inside none
    rw [find?_modify] at none
    split at none
    case isTrue equal =>
      subst equal
      rw [Option.map_eq_none_iff.1 none] at present
      cases present
    case isFalse different =>
      rw [Flat.block_update flat index f inside, if_neg]
      · exact stores.missing other inside none
      · exact fun equal => different (UInt64.toNat_inj.1 (same.trans equal))

-- Zeroing the allocated blocks zeroes the flat array, where the others are zero.
theorem mapBlocks (stores : map.Stores (Flat.initial layout none) flat) (place : Nat) :
    (map.mapBlocks (zeroPlace (2 ^ layout.strideShift.toNat) place)).Stores (Flat.initial layout none)
      (flat.setZero place) where
  allocated := by
    intro key block found
    rw [find?_mapBlocks] at found
    obtain ⟨before, foundBefore, rfl⟩ := Option.map_eq_some_iff.1 found
    obtain ⟨inside, rfl⟩ := stores.allocated key before foundBefore
    exact ⟨inside, (Flat.block_setZero flat place inside).symm⟩
  missing := by
    intro key inside none
    rw [find?_mapBlocks] at none
    have zeros := stores.missing key inside (Option.map_eq_none_iff.1 none)
    rw [Flat.block_setZero flat place inside, zeros]
    unfold Flat.block
    rw [Flat.zeroPlace_ofFn]
    congr 1
    funext i
    exact ite_self 0

end BlockMap.Stores

namespace SparseWeights

variable {weights : SparseWeights} {memory : Memory} {flat : Flat weights.layout}

/-- The blocks of a handle are those of a flat array that started as its initialiser says. -/
def Holds (weights : SparseWeights) (memory : Memory) (flat : Flat weights.layout) : Prop :=
  ∃ map, memory.maps[weights.address]? = some map ∧
    map.Stores (Flat.initial weights.layout weights.initialiser) flat

theorem run_block_of_some {map : BlockMap} (found : memory.maps[weights.address]? = some map) {key : UInt64}
    {cells : Array Float32} (present : map.find? key = some cells) :
    (weights.block key).run memory = (.ok cells, memory) := by
  rw [block, Attempt.run_bind_ok (Memory.run_map found), present]
  rfl

theorem run_block_of_none {map : BlockMap} (found : memory.maps[weights.address]? = some map) {key : UInt64}
    (absent : map.find? key = none) (room : weights.blockSize < Memory.cellLimit) :
    (weights.block key).run memory = (.ok (weights.freshBlock key), { memory with
      records := memory.records.push ⟨.trace, "Allocated sparse weight block " ++ toString key.toNat⟩
      maps := memory.maps.modify weights.address (·.insert key (weights.freshBlock key)) }) := by
  rw [block, Attempt.run_bind_ok (Memory.run_map found), absent]
  simp only [Attempt.run_bind_ok (Memory.run_reserve room)]
  rfl

-- Asking for a block allocates it, and yields the cells of the flat array.
theorem Holds.run_block (holds : weights.Holds memory flat) (narrow : weights.layout.total ≤ 48) {key : UInt64}
    (inside : key.toNat < 2 ^ weights.layout.hashBits.toNat) :
    ∃ after map, (weights.block key).run memory = (.ok (flat.block key.toNat), after) ∧
      after.maps[weights.address]? = some map ∧ (map.find? key).isSome ∧
      map.Stores (Flat.initial weights.layout weights.initialiser) flat := by
  obtain ⟨map, found, stores⟩ := holds
  cases lookup : map.find? key with
  | some cells =>
    obtain ⟨-, rfl⟩ := stores.allocated key cells lookup
    exact ⟨memory, map, run_block_of_some found lookup, found, by simp [lookup], stores⟩
  | none =>
    have room : weights.blockSize < Memory.cellLimit := by
      rw [blockSize_eq]
      exact Memory.two_pow_lt_cellLimit (by have := weights.layout.blockShift_le; omega)
    have fresh : weights.freshBlock key = flat.block key.toNat := by
      rw [freshBlock_eq (by omega) inside, stores.missing key inside lookup]
    have run := run_block_of_none found lookup room
    rw [fresh] at run
    refine ⟨_, map.insert key (flat.block key.toNat), run, ?_, ?_, ?_⟩
    · rw [Array.getElem?_modify, if_pos rfl, found]
      rfl
    · rw [BlockMap.find?_insert, if_pos rfl]
      rfl
    · rw [stores.missing key inside lookup]
      exact stores.insert inside lookup

theorem Holds.run_get (holds : weights.Holds memory flat) (narrow : weights.layout.total ≤ 48) (index : UInt64) :
    ∃ after, (weights.get index).run memory = (.ok (flat.read index), after) ∧ weights.Holds after flat := by
  obtain ⟨key, split, same⟩ := @Layout.split_eq weights.layout (by omega) index
  have inside : key.toNat < 2 ^ weights.layout.hashBits.toNat := same ▸ weights.layout.cell_div_lt _
  have cell := flat.block_getD index
  rw [← same] at cell
  obtain ⟨map, found, stores⟩ := holds
  rw [get, split, Attempt.run_bind_ok (Attempt.run_lift (.ok _) memory), Attempt.run_bind_ok (Memory.run_map found)]
  by_cases untouched : ((map.find? key).isNone && weights.initialiser.isNone) = true
  · -- Nothing was allocated and nothing would initialise it: the cell is zero.
    obtain ⟨absent, plain⟩ := Bool.and_eq_true_iff.1 untouched
    rw [Option.isNone_iff_eq_none] at absent plain
    have zero : flat.read index = 0 := by
      have place : (weights.layout.cell index).val % 2 ^ weights.layout.blockShift < 2 ^ weights.layout.blockShift :=
        Nat.mod_lt _ (Nat.two_pow_pos _)
      rw [← cell, stores.missing key inside absent, plain, Flat.block, Array.getD_eq_getD_getElem?,
        Array.getElem?_ofFn, dif_pos place]
      rfl
    rw [if_pos untouched, zero]
    exact ⟨memory, rfl, map, found, stores⟩
  · obtain ⟨after, map, run, found, -, stores⟩ := Holds.run_block ⟨map, found, stores⟩ narrow inside
    rw [if_neg untouched, Attempt.run_bind_ok run, cell]
    exact ⟨after, rfl, map, found, stores⟩

theorem Holds.run_update (holds : weights.Holds memory flat) (narrow : weights.layout.total ≤ 48) (index : UInt64)
    (f : Float32 → Float32) :
    ∃ after, (weights.update index f).run memory = (.ok (), after) ∧ weights.Holds after (flat.update index f) := by
  obtain ⟨key, split, same⟩ := @Layout.split_eq weights.layout (by omega) index
  have inside : key.toNat < 2 ^ weights.layout.hashBits.toNat := same ▸ weights.layout.cell_div_lt _
  obtain ⟨reached, map, run, found, present, stores⟩ := holds.run_block narrow inside
  rw [update, split, Attempt.run_bind_ok (Attempt.run_lift (.ok _) memory), Attempt.run_bind_ok run]
  refine ⟨_, Memory.run_updateMap _, _, ?_, stores.modify same present⟩
  rw [Array.getElem?_modify, if_pos rfl, found]
  rfl

theorem Holds.run_setZero (holds : weights.Holds memory flat) (narrow : weights.layout.total ≤ 48)
    (plain : weights.initialiser = none) (place : Nat) :
    ∃ after, (weights.setZero place).run memory = (.ok (), after) ∧ weights.Holds after (flat.setZero place) := by
  obtain ⟨stride, computed, width⟩ := @Layout.stride_eq weights.layout (by omega)
  rw [setZero, computed, Attempt.run_bind_ok (Attempt.run_lift (.ok stride) memory), width]
  by_cases inside : place < 2 ^ weights.layout.strideShift.toNat
  · obtain ⟨map, found, stores⟩ := holds
    rw [plain] at stores
    rw [if_pos inside]
    refine ⟨_, Memory.run_updateMap _, _, ?_, plain ▸ stores.mapBlocks place⟩
    rw [Array.getElem?_modify, if_pos rfl, found]
    rfl
  · rw [if_neg inside, flat.setZero_of_le (Nat.le_of_not_lt inside)]
    exact ⟨memory, rfl, holds⟩

theorem run_new (layout : Layout) (memory : Memory) :
    ∃ after, (SparseWeights.new layout).run memory = (.ok ⟨layout, memory.maps.size, none⟩, after) ∧
      after.maps[memory.maps.size]? = some .empty := by
  rw [new, Attempt.run_bind_ok (Memory.run_newMap _)]
  exact ⟨_, rfl, Array.getElem?_push_size⟩

end SparseWeights

end HashedFeatures
