import HashedFeatures.Proofs.Weights.Blocks
import Mathlib.Data.List.Basic

/-! The slots of the allocated blocks, in ascending order of their flat indices. -/

set_option autoImplicit false

namespace HashedFeatures

namespace SparseWeights

variable {weights : SparseWeights} {memory : Memory} {map : BlockMap}

def slotIndex (weights : SparseWeights) (key : UInt64) (slot : Nat) : UInt64 :=
  (key <<< UInt64.ofNat weights.layout.blockShift) + UInt64.ofNat (slot * 2 ^ weights.layout.strideShift.toNat)

def listed (weights : SparseWeights) (key : UInt64) (cells : Array Float32) : List (UInt64 × Float32) :=
  (List.range (2 ^ weights.layout.widthBits.toNat)).map fun slot =>
    (weights.slotIndex key slot, cells.getD (slot * 2 ^ weights.layout.strideShift.toNat) 0)

theorem slot_lt {slot : Nat} (bound : slot < 2 ^ weights.layout.widthBits.toNat) :
    slot * 2 ^ weights.layout.strideShift.toNat < 2 ^ weights.layout.blockShift := by
  rw [weights.layout.two_pow_blockShift]
  exact Nat.mul_lt_mul_of_pos_right bound (Nat.two_pow_pos _)

theorem toNat_slotIndex (narrow : weights.layout.total ≤ 48) {key : UInt64}
    (inside : key.toNat < 2 ^ weights.layout.hashBits.toNat) {slot : Nat}
    (bound : slot < 2 ^ weights.layout.widthBits.toNat) :
    (weights.slotIndex key slot).toNat =
      key.toNat * 2 ^ weights.layout.blockShift + slot * 2 ^ weights.layout.strideShift.toNat := by
  have total := Layout.join_lt inside (slot_lt bound)
  have span : 2 ^ weights.layout.total < 2 ^ 64 := Nat.pow_lt_pow_right (by decide) (by omega)
  have fits := weights.layout.blockShift_le
  rw [slotIndex, UInt64.toNat_add, Word.toNat_shiftLeft (by omega) (by omega), UInt64.toNat_ofNat',
    Nat.mod_eq_of_lt (a := slot * 2 ^ weights.layout.strideShift.toNat) (by omega), Nat.mod_eq_of_lt (by omega)]

theorem run_slots (narrow : weights.layout.total ≤ 48) (found : memory.maps[weights.address]? = some map)
    (fits : map.Fits weights.layout) :
    weights.slots.run memory = (.ok (map.toList.flatMap fun (key, cells) => weights.listed key cells), memory) := by
  obtain ⟨stride, computed, width⟩ := @Layout.stride_eq weights.layout (by omega)
  rw [slots, computed, Attempt.run_bind_ok (Attempt.run_lift (.ok stride) memory),
    Attempt.run_bind_ok (Memory.run_map found), Attempt.run_pure, width]
  congr 2
  apply List.flatMap_congr
  rintro ⟨key, cells⟩ member
  obtain ⟨-, size⟩ := fits key cells (Std.TreeMap.mem_toList_iff_getElem?_eq_some.1 member)
  have count : cells.size / 2 ^ weights.layout.strideShift.toNat = 2 ^ weights.layout.widthBits.toNat := by
    rw [size, weights.layout.two_pow_blockShift, Nat.mul_div_cancel _ (Nat.two_pow_pos _)]
  simp only [listed, slotIndex, count]

-- Slots ascend in a block, and a block ends before the next one starts.
theorem listed_ascending (narrow : weights.layout.total ≤ 48) (fits : map.Fits weights.layout) :
    (map.toList.flatMap fun (key, cells) => weights.listed key cells).Pairwise fun left right =>
      left.1 < right.1 := by
  have inside {entry : UInt64 × Array Float32} (member : entry ∈ map.toList) :
      entry.1.toNat < 2 ^ weights.layout.hashBits.toNat :=
    (fits entry.1 entry.2 (Std.TreeMap.mem_toList_iff_getElem?_eq_some.1 member)).1
  refine List.pairwise_flatMap.2 ⟨?_, ?_⟩
  · rintro ⟨key, cells⟩ member
    refine List.pairwise_map.2 (List.pairwise_lt_range.imp_of_mem ?_)
    intro left right leftBound rightBound before
    rw [UInt64.lt_iff_toNat_lt, toNat_slotIndex narrow (inside member) (List.mem_range.1 leftBound),
      toNat_slotIndex narrow (inside member) (List.mem_range.1 rightBound)]
    exact Nat.add_lt_add_left (Nat.mul_lt_mul_of_pos_right before (Nat.two_pow_pos _)) _
  · refine Std.TreeMap.ordered_keys_toList.imp_of_mem ?_
    rintro ⟨key, cells⟩ ⟨other, others⟩ member otherMember ascends entry first otherEntry second
    obtain ⟨slot, bound, rfl⟩ := List.mem_map.1 first
    obtain ⟨otherSlot, otherBound, rfl⟩ := List.mem_map.1 second
    have before : key.toNat < other.toNat := UInt64.lt_iff_toNat_lt.1 (Std.compare_eq_lt.1 ascends)
    rw [UInt64.lt_iff_toNat_lt, toNat_slotIndex narrow (inside member) (List.mem_range.1 bound),
      toNat_slotIndex narrow (inside otherMember) (List.mem_range.1 otherBound)]
    calc key.toNat * 2 ^ weights.layout.blockShift + slot * 2 ^ weights.layout.strideShift.toNat
        < (key.toNat + 1) * 2 ^ weights.layout.blockShift := by
          rw [Nat.succ_mul]
          exact Nat.add_lt_add_left (slot_lt (List.mem_range.1 bound)) _
      _ ≤ other.toNat * 2 ^ weights.layout.blockShift := Nat.mul_le_mul_right _ before
      _ ≤ _ := Nat.le_add_right _ _

theorem peek_slotIndex (narrow : weights.layout.total ≤ 48) (found : memory.maps[weights.address]? = some map)
    (fits : map.Fits weights.layout) {key : UInt64} {cells : Array Float32} (present : map.find? key = some cells)
    {slot : Nat} (bound : slot < 2 ^ weights.layout.widthBits.toNat) :
    (Weights.sparse weights).peek memory (weights.slotIndex key slot) =
      .ok (cells.getD (slot * 2 ^ weights.layout.strideShift.toNat) 0) := by
  obtain ⟨inside, -⟩ := fits key cells present
  have value := toNat_slotIndex narrow inside bound
  obtain ⟨block, place⟩ := Layout.blockOf_placeOf (by omega) inside (slot_lt bound) value
  have split := weights.layout.split_eq_blockOf (by omega) (weights.slotIndex key slot)
  rw [block, place] at split
  have shown : weights.seen map key = .ok cells := by rw [seen, present]
  exact (weights.run_get_cases found split).1.trans (by rw [shown]; rfl)

/-- The list has the first cell of every slot of the allocated blocks, with what a read of it finds. -/
theorem mem_listed_iff (narrow : weights.layout.total ≤ 48) (found : memory.maps[weights.address]? = some map)
    (fits : map.Fits weights.layout) (index : UInt64) (value : Float32) :
    (index, value) ∈ (map.toList.flatMap fun (key, cells) => weights.listed key cells) ↔
      (∃ key ∈ map.keys, ∃ slot < 2 ^ weights.layout.widthBits.toNat, index.toNat =
        key.toNat * 2 ^ weights.layout.blockShift + slot * 2 ^ weights.layout.strideShift.toNat) ∧
      (Weights.sparse weights).peek memory index = .ok value := by
  constructor
  · intro member
    obtain ⟨⟨key, cells⟩, entry, chosen⟩ := List.mem_flatMap.1 member
    obtain ⟨slot, bound, same⟩ := List.mem_map.1 chosen
    cases same
    have present : map.find? key = some cells := Std.TreeMap.mem_toList_iff_getElem?_eq_some.1 entry
    rw [List.mem_range] at bound
    have read := peek_slotIndex narrow found fits present bound
    refine ⟨⟨key, BlockMap.mem_keys.2 (by simp [present]), slot, bound, ?_⟩, read⟩
    exact toNat_slotIndex narrow (fits key cells present).1 bound
  · rintro ⟨⟨key, allocated, slot, bound, same⟩, read⟩
    obtain ⟨cells, present⟩ := Option.isSome_iff_exists.1 (BlockMap.mem_keys.1 allocated)
    have indexEq : weights.slotIndex key slot = index :=
      UInt64.toNat_inj.1 ((toNat_slotIndex narrow (fits key cells present).1 bound).trans same.symm)
    rw [← indexEq, peek_slotIndex narrow found fits present bound, Except.ok.injEq] at read
    refine List.mem_flatMap.2 ⟨(key, cells), Std.TreeMap.mem_toList_iff_getElem?_eq_some.2 present, ?_⟩
    exact List.mem_map.2 ⟨slot, List.mem_range.2 bound, by rw [indexEq, read]⟩

end SparseWeights

end HashedFeatures
