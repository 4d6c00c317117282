import HashedFeatures.Proofs.Weights.Agreement
import HashedFeatures.Proofs.Weights.Reading

/-! What the operations on sparse weights do to the map of their blocks.

An operation allocates the block of the index that it touches, if it is missing, and writes to blocks that are
allocated. It never takes a block away nor initialises it again.
-/

set_option autoImplicit false

namespace HashedFeatures

/-! ## The block and the place of an index -/

namespace Layout

def blockOf (layout : Layout) (index : UInt64) : UInt64 :=
  (index &&& layout.weightMask) >>> UInt64.ofNat layout.blockShift

def placeOf (layout : Layout) (index : UInt64) : Nat := (layout.cell index).val % 2 ^ layout.blockShift

variable {layout : Layout}

theorem toNat_blockOf (narrow : layout.total < 64) (index : UInt64) :
    (layout.blockOf index).toNat = (layout.cell index).val / 2 ^ layout.blockShift :=
  Word.toNat_shiftRight (Nat.lt_of_le_of_lt layout.blockShift_le narrow) _

theorem blockOf_lt (layout : Layout) (narrow : layout.total < 64) (index : UInt64) :
    (layout.blockOf index).toNat < 2 ^ layout.hashBits.toNat := by
  rw [toNat_blockOf narrow]
  exact layout.cell_div_lt _

theorem split_eq_blockOf (layout : Layout) (narrow : layout.total < 64) (index : UInt64) :
    layout.split index = .ok (layout.blockOf index, layout.placeOf index) := by
  obtain ⟨key, split, same⟩ := split_eq narrow index
  rw [split, placeOf, UInt64.toNat_inj.1 (same.trans (toNat_blockOf narrow index).symm)]

theorem blockOf_placeOf {key index : UInt64} {place : Nat} (narrow : layout.total < 64)
    (inside : key.toNat < 2 ^ layout.hashBits.toNat) (bound : place < 2 ^ layout.blockShift)
    (same : index.toNat = key.toNat * 2 ^ layout.blockShift + place) :
    layout.blockOf index = key ∧ layout.placeOf index = place := by
  have cell : (layout.cell index).val = key.toNat * 2 ^ layout.blockShift + place := by
    rw [toNat_cell narrow, same, Nat.mod_eq_of_lt (join_lt inside bound)]
  constructor
  · rw [← UInt64.toNat_inj, toNat_blockOf narrow, cell, digits_div bound]
  · rw [placeOf, cell, digits_mod bound]

end Layout

/-! ## Operations -/

namespace Weights.Operation

/-- The index whose block must be allocated: that of a write, and that of a read if blocks are initialised. -/
def touches (initialised : Bool) : Operation → Option UInt64
  | .get index => if initialised then some index else none
  | .set index _ | .add index _ | .update index _ => some index
  | .setZero _ => none

def writes (layout : Layout) (key : UInt64) (cells : Array Float32) : Operation → Array Float32
  | .get _ => cells
  | .set index value => if layout.blockOf index = key then cells.modify (layout.placeOf index) fun _ => value else cells
  | .add index delta => if layout.blockOf index = key then cells.modify (layout.placeOf index) (· + delta) else cells
  | .update index f => if layout.blockOf index = key then cells.modify (layout.placeOf index) f else cells
  | .setZero place => zeroPlace (2 ^ layout.strideShift.toNat) place cells

end Weights.Operation

namespace BlockMap

def Fits (map : BlockMap) (layout : Layout) : Prop :=
  ∀ (key : UInt64) (block : Array Float32), map.find? key = some block →
    key.toNat < 2 ^ layout.hashBits.toNat ∧ block.size = 2 ^ layout.blockShift

/-- A step that allocates the block of at most one index and writes to the blocks that were there. -/
structure Becomes (before after : BlockMap) (layout : Layout) (touched : Option UInt64)
    (writes : UInt64 → Array Float32 → Array Float32) : Prop where
  allocated : ∀ key, (after.find? key).isSome ↔
    (before.find? key).isSome ∨ ∃ index ∈ touched, layout.blockOf index = key
  written : ∀ key cells, before.find? key = some cells → after.find? key = some (writes key cells)
  fits : before.Fits layout → after.Fits layout

theorem Becomes.refl (map : BlockMap) (layout : Layout) : map.Becomes map layout none fun _ cells => cells where
  allocated := fun key => by simp
  written := fun _ _ found => found
  fits := id

theorem fits_empty (layout : Layout) : empty.Fits layout := fun key block found => by simp at found

theorem mem_keys {map : BlockMap} {key : UInt64} : key ∈ map.keys ↔ (map.find? key).isSome := by
  rw [keys, Std.TreeMap.mem_keys, Std.TreeMap.mem_iff_isSome_getElem?]
  rfl

end BlockMap

theorem size_zeroPlace (stride place : Nat) (cells : Array Float32) :
    (zeroPlace stride place cells).size = cells.size := Array.size_mapIdx

-- There is nothing to zero behind the last place of a slot.
theorem zeroPlace_of_le {stride place : Nat} (positive : 0 < stride) (beyond : stride ≤ place) (cells : Array Float32) :
    zeroPlace stride place cells = cells := by
  apply Array.ext (size_zeroPlace _ _ _)
  intro i first second
  have := Nat.mod_lt i positive
  simp only [zeroPlace, Array.getElem_mapIdx]
  rw [if_neg (by omega)]

namespace SparseWeights

variable {weights : SparseWeights} {memory : Memory} {map : BlockMap} {key : UInt64}

theorem size_freshBlock (narrow : weights.layout.total < 64) (inside : key.toNat < 2 ^ weights.layout.hashBits.toNat) :
    (weights.freshBlock key).size = 2 ^ weights.layout.blockShift := by
  rw [freshBlock_eq narrow inside, Flat.block, Array.size_ofFn]

/-- Asking for a block yields the one that is there, or a fresh one that is there from then on. -/
theorem run_block (narrow : weights.layout.total ≤ 48) (found : memory.maps[weights.address]? = some map)
    (key : UInt64) :
    ∃ after now, (weights.block key).run memory = (.ok ((map.find? key).getD (weights.freshBlock key)), after) ∧
      after.maps[weights.address]? = some now ∧
      ∀ other, now.find? other =
        if key = other then some ((map.find? key).getD (weights.freshBlock key)) else map.find? other := by
  cases lookup : map.find? key with
  | some cells =>
    refine ⟨memory, map, run_block_of_some found lookup, found, fun other => ?_⟩
    split
    case isTrue same => exact same ▸ lookup
    case isFalse => rfl
  | none =>
    have room : weights.blockSize < Memory.cellLimit := by
      rw [blockSize_eq]
      exact Memory.two_pow_lt_cellLimit (by have := weights.layout.blockShift_le; omega)
    refine ⟨_, _, run_block_of_none found lookup room, ?_, map.find?_insert key _⟩
    rw [Array.getElem?_modify, if_pos rfl, found]
    rfl

theorem becomes_of_touched (narrow : weights.layout.total ≤ 48) {index : UInt64} {now : BlockMap}
    (looked : ∀ other, now.find? other =
      if weights.layout.blockOf index = other then
        some ((map.find? (weights.layout.blockOf index)).getD (weights.freshBlock (weights.layout.blockOf index)))
      else map.find? other) :
    map.Becomes now weights.layout (some index) fun _ cells => cells where
  allocated := fun key => by
    rw [looked]
    by_cases same : weights.layout.blockOf index = key <;> simp [same]
  written := fun key cells present => by
    rw [looked]
    split
    case isTrue same => rw [same, present, Option.getD_some]
    case isFalse => exact present
  fits := fun fits key block present => by
    rw [looked] at present
    split at present
    case isFalse => exact fits key block present
    case isTrue same =>
      subst same
      cases lookup : map.find? (weights.layout.blockOf index) with
      | some cells =>
        rw [lookup] at present
        cases present
        exact fits _ cells lookup
      | none =>
        rw [lookup] at present
        cases present
        have inside := weights.layout.blockOf_lt (by omega) index
        exact ⟨inside, size_freshBlock (by omega) inside⟩

/-- Without an initialiser a read leaves the memory as it is. -/
theorem run_get_plain (plain : weights.initialiser = none) (memory : Memory) (index : UInt64) :
    ((weights.get index).run memory).2 = memory := by
  cases split : weights.layout.split index with
  | error fault => rw [weights.run_get_of_error split]
  | ok parts =>
    obtain ⟨key, place⟩ := parts
    cases found : memory.maps[weights.address]? with
    | none => rw [weights.run_get_of_none split found]
    | some map =>
      rw [get, split, Attempt.run_bind_ok (Attempt.run_lift (.ok _) memory), Attempt.run_bind_ok (Memory.run_map found)]
      cases lookup : map.find? key with
      | none =>
        rw [if_pos (by simp [plain])]
        rfl
      | some cells =>
        rw [if_neg (by simp), Attempt.run_bind_ok (run_block_of_some found lookup)]
        rfl

theorem run_get_becomes (narrow : weights.layout.total ≤ 48) (found : memory.maps[weights.address]? = some map)
    (index : UInt64) :
    ∃ answer after now, (weights.get index).run memory = (.ok answer, after) ∧
      after.maps[weights.address]? = some now ∧
      map.Becomes now weights.layout (if weights.initialiser.isSome then some index else none)
        fun _ cells => cells := by
  have split := weights.layout.split_eq_blockOf (by omega) index
  rw [get, split, Attempt.run_bind_ok (Attempt.run_lift (.ok _) memory), Attempt.run_bind_ok (Memory.run_map found)]
  cases plain : weights.initialiser with
  | none =>
    -- What is missing stays missing, and what is there is found.
    cases lookup : map.find? (weights.layout.blockOf index) with
    | none => exact ⟨0, memory, map, rfl, found, .refl map _⟩
    | some cells =>
      rw [if_neg (by simp), Attempt.run_bind_ok (run_block_of_some found lookup)]
      exact ⟨_, memory, map, rfl, found, .refl map _⟩
  | some init =>
    obtain ⟨after, now, run, foundAfter, looked⟩ := run_block narrow found (weights.layout.blockOf index)
    rw [if_neg (by simp), Attempt.run_bind_ok run]
    exact ⟨_, after, now, rfl, foundAfter, becomes_of_touched narrow looked⟩

theorem run_update_becomes (narrow : weights.layout.total ≤ 48) (found : memory.maps[weights.address]? = some map)
    (index : UInt64) (f : Float32 → Float32) :
    ∃ after now, (weights.update index f).run memory = (.ok (), after) ∧
      after.maps[weights.address]? = some now ∧
      map.Becomes now weights.layout (some index) fun key cells =>
        if weights.layout.blockOf index = key then cells.modify (weights.layout.placeOf index) f else cells := by
  have split := weights.layout.split_eq_blockOf (by omega) index
  obtain ⟨reached, there, run, foundThere, looked⟩ := run_block narrow found (weights.layout.blockOf index)
  have touched := becomes_of_touched narrow looked
  rw [update, split, Attempt.run_bind_ok (Attempt.run_lift (.ok _) memory), Attempt.run_bind_ok run]
  refine ⟨_, there.modify (weights.layout.blockOf index) (·.modify (weights.layout.placeOf index) f),
    Memory.run_updateMap _, ?_, ?_⟩
  · rw [Array.getElem?_modify, if_pos rfl, foundThere]
    rfl
  · constructor
    · intro key
      rw [← touched.allocated, BlockMap.find?_modify]
      split <;> simp
    · intro key cells present
      rw [BlockMap.find?_modify, touched.written key cells present]
      split <;> rfl
    · intro fits key block present
      rw [BlockMap.find?_modify] at present
      split at present
      case isTrue =>
        obtain ⟨cells, old, rfl⟩ := Option.map_eq_some_iff.1 present
        rw [Array.size_modify]
        exact touched.fits fits key cells old
      case isFalse => exact touched.fits fits key block present

theorem run_setZero_becomes (narrow : weights.layout.total ≤ 48) (found : memory.maps[weights.address]? = some map)
    (place : Nat) :
    ∃ after now, (weights.setZero place).run memory = (.ok (), after) ∧
      after.maps[weights.address]? = some now ∧
      map.Becomes now weights.layout none fun _ cells =>
        zeroPlace (2 ^ weights.layout.strideShift.toNat) place cells := by
  obtain ⟨stride, computed, width⟩ := @Layout.stride_eq weights.layout (by omega)
  rw [setZero, computed, Attempt.run_bind_ok (Attempt.run_lift (.ok stride) memory), width]
  by_cases inside : place < 2 ^ weights.layout.strideShift.toNat
  · rw [if_pos inside]
    refine ⟨_, map.mapBlocks (zeroPlace (2 ^ weights.layout.strideShift.toNat) place), Memory.run_updateMap _, ?_, ?_⟩
    · rw [Array.getElem?_modify, if_pos rfl, found]
      rfl
    · constructor
      · intro key
        simp [BlockMap.find?_mapBlocks]
      · intro key cells present
        rw [BlockMap.find?_mapBlocks, present]
        rfl
      · intro fits key block present
        rw [BlockMap.find?_mapBlocks] at present
        obtain ⟨cells, old, rfl⟩ := Option.map_eq_some_iff.1 present
        rw [size_zeroPlace]
        exact fits key cells old
  · rw [if_neg inside]
    have none (cells : Array Float32) : zeroPlace (2 ^ weights.layout.strideShift.toNat) place cells = cells :=
      zeroPlace_of_le (Nat.two_pow_pos _) (Nat.le_of_not_lt inside) cells
    simp only [none]
    exact ⟨memory, map, rfl, found, .refl map _⟩

/-- An operation touches the block of one index, and writes to the blocks that are there. -/
theorem run_perform_becomes (weights : SparseWeights) (narrow : weights.layout.total ≤ 48)
    (found : memory.maps[weights.address]? = some map) (operation : Weights.Operation) :
    ∃ answer after now, ((Weights.sparse weights).perform operation).run memory = (.ok answer, after) ∧
      after.maps[weights.address]? = some now ∧
      map.Becomes now weights.layout (operation.touches weights.initialiser.isSome) fun key cells =>
        operation.writes weights.layout key cells := by
  cases operation with
  | get index =>
    obtain ⟨answer, after, now, run, foundAfter, becomes⟩ := run_get_becomes narrow found index
    exact ⟨some answer, after, now, Attempt.run_bind_ok run, foundAfter, becomes⟩
  | set index value =>
    obtain ⟨after, now, run, foundAfter, becomes⟩ := run_update_becomes narrow found index fun _ => value
    exact ⟨none, after, now, Attempt.run_bind_ok run, foundAfter, becomes⟩
  | add index delta =>
    obtain ⟨after, now, run, foundAfter, becomes⟩ := run_update_becomes narrow found index (· + delta)
    exact ⟨none, after, now, Attempt.run_bind_ok run, foundAfter, becomes⟩
  | update index f =>
    obtain ⟨after, now, run, foundAfter, becomes⟩ := run_update_becomes narrow found index f
    exact ⟨none, after, now, Attempt.run_bind_ok run, foundAfter, becomes⟩
  | setZero place =>
    obtain ⟨after, now, run, foundAfter, becomes⟩ := run_setZero_becomes narrow found place
    exact ⟨none, after, now, Attempt.run_bind_ok run, foundAfter, becomes⟩

end SparseWeights

end HashedFeatures
