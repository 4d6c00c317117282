import HashedFeatures.Proofs.Weights.Layout
import HashedFeatures.Weights.Dense
import HashedFeatures.Weights.Sparse
import Mathlib.Data.List.Basic

/-! The content that weights start with: zeros, or an initialiser run on every slot of zeros.

Slot by slot over the whole span or over one block, an initialiser writes the same cells: the slots of
a block are those of the span, and their flat indices are rebuilt from the key of the block.
-/

set_option autoImplicit false

namespace HashedFeatures

theorem length_flatMap_range {α : Type} {g : Nat → List α} {stride : Nat} (sizes : ∀ s, (g s).length = stride)
    (count : Nat) : ((List.range count).flatMap g).length = count * stride := by
  induction count with
  | zero => simp
  | succ count ih => rw [List.range_succ, List.flatMap_append, List.length_append, ih]; simp [sizes, Nat.succ_mul]

-- Pieces of one size behind each other: the quotient finds the piece, the remainder the item.
theorem getElem?_flatMap_range {α : Type} {g : Nat → List α} {stride : Nat} (sizes : ∀ s, (g s).length = stride)
    {count i : Nat} (bound : i < count * stride) :
    ((List.range count).flatMap g)[i]? = (g (i / stride))[i % stride]? := by
  induction count with
  | zero => omega
  | succ count ih =>
    have before := length_flatMap_range sizes count
    rw [List.range_succ, List.flatMap_append]
    by_cases inside : i < count * stride
    · rw [List.getElem?_append_left (before ▸ inside), ih inside]
    · -- The item lies in the last piece.
      rw [Nat.succ_mul] at bound
      have rest : i = stride * count + (i - stride * count) := by rw [Nat.mul_comm]; omega
      have small : i - stride * count < stride := by rw [Nat.mul_comm]; omega
      have quotient : i / stride = count := by
        rw [rest, Nat.mul_add_div (by omega), Nat.div_eq_of_lt small, Nat.add_zero]
      have remainder : i % stride = i - stride * count := by
        rw [rest, Nat.mul_add_mod, Nat.mod_eq_of_lt small, ← rest]
      rw [List.getElem?_append_right (before ▸ Nat.le_of_not_lt inside), before, quotient, remainder,
        Nat.mul_comm stride]
      simp

namespace Initialiser

theorem size_run (init : Initialiser) (index : UInt64) (slot : Array Float32) :
    (init.run index slot).size = slot.size := by
  simp [run]

end Initialiser

-- Slot by slot over zeros, every cell comes from the slot that it lies in.
theorem mapSlots_replicate {stride count size : Nat} (positive : 0 < stride) (full : size = count * stride)
    {f : Nat → Array Float32 → Array Float32} (sizes : ∀ s, (f s (Array.replicate stride 0)).size = stride) :
    mapSlots stride f (Array.replicate size 0) =
      Array.ofFn fun i : Fin size => (f (i / stride) (Array.replicate stride 0)).getD (i % stride) 0 := by
  subst full
  have slots : (mapSlots stride f (Array.replicate (count * stride) 0)).toList =
      (List.range count).flatMap fun s => (f s (Array.replicate stride 0)).toList := by
    unfold mapSlots
    rw [Array.toList_flatMap, Array.toList_range, Array.size_replicate, Nat.mul_div_cancel count positive]
    apply List.flatMap_congr
    intro s member
    have inside : (s + 1) * stride ≤ count * stride := Nat.mul_le_mul_right _ (List.mem_range.1 member)
    have width : min (s * stride + stride) (count * stride) - s * stride = stride := by
      rw [Nat.succ_mul] at inside
      omega
    rw [Array.extract_replicate, width]
  -- The slots have one size, so each cell is found by quotient and remainder.
  apply Array.ext'
  rw [slots]
  apply List.ext_getElem?
  intro i
  by_cases bound : i < count * stride
  · have place : i % stride < (f (i / stride) (Array.replicate stride 0)).size :=
      (sizes _).symm ▸ Nat.mod_lt i positive
    rw [getElem?_flatMap_range sizes bound, Array.getElem?_toList, Array.getElem?_toList,
      Array.getElem?_eq_getElem place, Array.getElem?_ofFn, dif_pos bound, Array.getD, dif_pos place]
    rfl
  · have length := length_flatMap_range sizes count
    rw [List.getElem?_eq_none (by omega), List.getElem?_eq_none (by simp; omega)]

abbrev Flat (layout : Layout) : Type := Fin (2 ^ layout.total) → Float32

namespace Flat

variable {layout : Layout}

/-- Zero, or the initialiser run on every zeroed slot. -/
def initial (layout : Layout) : Option Initialiser → Flat layout
  | none => fun _ => 0
  | some init => fun i =>
    (init.run (UInt64.ofNat (i / 2 ^ layout.strideShift.toNat * 2 ^ layout.strideShift.toNat))
      (Array.replicate (2 ^ layout.strideShift.toNat) 0)).getD (i % 2 ^ layout.strideShift.toNat) 0

def block (flat : Flat layout) (key : Nat) : Array Float32 :=
  Array.ofFn fun place : Fin (2 ^ layout.blockShift) => flat (layout.join key place)

-- Over the whole span the initialiser writes the initial cells.
theorem mapSlots_eq_initial (narrow : layout.total < 64) (init : Initialiser) :
    mapSlots (2 ^ layout.strideShift.toNat)
        (fun slot => init.run (UInt64.ofNat slot <<< UInt64.ofNat layout.strideShift.toNat))
        (Array.replicate (2 ^ layout.total) 0) =
      Array.ofFn (initial layout (some init)) := by
  have fits : layout.strideShift.toNat ≤ layout.total := Nat.le_trans layout.strideShift_le layout.blockShift_le
  have span : 2 ^ layout.total < 2 ^ 64 := Nat.pow_lt_pow_right (by decide) narrow
  rw [mapSlots_replicate (Nat.two_pow_pos _) layout.two_pow_total_eq_slots fun s => (init.size_run _ _).trans Array.size_replicate]
  congr 1
  funext i
  have index : UInt64.ofNat (i.val / 2 ^ layout.strideShift.toNat) <<< UInt64.ofNat layout.strideShift.toNat =
      UInt64.ofNat (i.val / 2 ^ layout.strideShift.toNat * 2 ^ layout.strideShift.toNat) := by
    have upTo : i.val / 2 ^ layout.strideShift.toNat * 2 ^ layout.strideShift.toNat ≤ i.val :=
      Nat.div_mul_le_self _ _
    have inside := i.isLt
    rw [← UInt64.toNat_inj, Word.toNat_slotIndex (by omega) (by omega), UInt64.toNat_ofNat',
      Nat.mod_eq_of_lt (by omega)]
  rw [initial, index]

end Flat

theorem Memory.two_pow_lt_cellLimit {bits : Nat} (fits : bits < 61) : 2 ^ bits < cellLimit := by
  rw [cellLimit, Nat.one_shiftLeft]
  exact Nat.pow_lt_pow_right (by decide) fits

namespace SparseWeights

theorem blockSize_eq (weights : SparseWeights) : weights.blockSize = 2 ^ weights.layout.blockShift :=
  Nat.one_shiftLeft _

theorem strideSize_eq (weights : SparseWeights) : weights.strideSize = 2 ^ weights.layout.strideShift.toNat :=
  Nat.one_shiftLeft _

-- A fresh block has the initial cells of its key.
theorem freshBlock_eq {weights : SparseWeights} (narrow : weights.layout.total < 64) {key : UInt64}
    (inside : key.toNat < 2 ^ weights.layout.hashBits.toNat) :
    weights.freshBlock key = (Flat.initial weights.layout weights.initialiser).block key.toNat := by
  unfold freshBlock Flat.block
  rw [blockSize_eq, strideSize_eq]
  cases weights.initialiser with
  | none => exact Array.ext (by simp) (by simp [Flat.initial])
  | some init =>
    have span : 2 ^ weights.layout.total < 2 ^ 64 := Nat.pow_lt_pow_right (by decide) narrow
    have blockFits := weights.layout.blockShift_le
    have strideFits := weights.layout.strideShift_le
    simp only
    rw [mapSlots_replicate (Nat.two_pow_pos _) weights.layout.two_pow_blockShift fun s =>
      (init.size_run _ _).trans Array.size_replicate]
    congr 1
    funext place
    have bound := Layout.join_lt inside place.isLt
    have index : (key <<< UInt64.ofNat weights.layout.blockShift) +
        (UInt64.ofNat (place.val / 2 ^ weights.layout.strideShift.toNat) <<<
          UInt64.ofNat weights.layout.strideShift.toNat) =
        UInt64.ofNat ((weights.layout.join key.toNat place).val / 2 ^ weights.layout.strideShift.toNat *
          2 ^ weights.layout.strideShift.toNat) := by
      rw [← UInt64.toNat_inj, UInt64.toNat_add, Word.toNat_shiftLeft (by omega) (by omega),
        Word.toNat_slotIndex (by omega) (by omega), UInt64.toNat_ofNat', Layout.join_slot inside place.isLt]
    simp only [Flat.initial, index, Layout.join_mod inside place.isLt]

end SparseWeights

end HashedFeatures
