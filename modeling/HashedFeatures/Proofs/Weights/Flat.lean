import HashedFeatures.Proofs.Weights.Initial
import Mathlib.Logic.Function.Basic

/-! Reading and writing one flat array, and what that is block by block. -/

set_option autoImplicit false

namespace HashedFeatures

namespace Flat

variable {layout : Layout}

def read (flat : Flat layout) (index : UInt64) : Float32 := flat (layout.cell index)

def update (flat : Flat layout) (index : UInt64) (f : Float32 → Float32) : Flat layout :=
  Function.update flat (layout.cell index) (f (flat.read index))

def setZero (flat : Flat layout) (place : Nat) : Flat layout := fun i =>
  if i % 2 ^ layout.strideShift.toNat = place then 0 else flat i

-- No slot has a place behind its last one.
theorem setZero_of_le (flat : Flat layout) {place : Nat} (beyond : 2 ^ layout.strideShift.toNat ≤ place) :
    flat.setZero place = flat := by
  funext i
  have below := Nat.mod_lt i.val (Nat.two_pow_pos layout.strideShift.toNat)
  rw [setZero, if_neg (by omega)]

theorem modify_ofFn {size : Nat} (cells : Fin size → Float32) (i : Fin size) (f : Float32 → Float32) :
    (Array.ofFn cells).modify i f = Array.ofFn (Function.update cells i (f (cells i))) := by
  apply Array.ext
  · simp
  · intro j first second
    by_cases same : i.val = j
    · subst same
      simp [Array.getElem_modify]
    · have different : (⟨j, by simpa using second⟩ : Fin size) ≠ i := fun equal => same (congrArg Fin.val equal).symm
      simp [Array.getElem_modify, same, Function.update_of_ne different]

theorem zeroPlace_ofFn {size : Nat} (stride place : Nat) (cells : Fin size → Float32) :
    zeroPlace stride place (Array.ofFn cells) =
      Array.ofFn fun i : Fin size => if i % stride = place then 0 else cells i := by
  apply Array.ext
  · simp [zeroPlace]
  · intro j first second
    simp [zeroPlace]

theorem block_getD (flat : Flat layout) (index : UInt64) :
    (flat.block ((layout.cell index).val / 2 ^ layout.blockShift)).getD
      ((layout.cell index).val % 2 ^ layout.blockShift) 0 = flat.read index := by
  have inside : (layout.cell index).val % 2 ^ layout.blockShift < 2 ^ layout.blockShift :=
    Nat.mod_lt _ (Nat.two_pow_pos _)
  rw [Array.getD_eq_getD_getElem?, block, Array.getElem?_ofFn, dif_pos inside]
  exact congrArg flat (layout.join_div_mod (layout.cell index))

-- A write changes one place of one block.
theorem block_update (flat : Flat layout) (index : UInt64) (f : Float32 → Float32) {key : Nat}
    (inside : key < 2 ^ layout.hashBits.toNat) :
    (flat.update index f).block key =
      if (layout.cell index).val / 2 ^ layout.blockShift = key then
        (flat.block key).modify ((layout.cell index).val % 2 ^ layout.blockShift) f
      else flat.block key := by
  have placeInside : (layout.cell index).val % 2 ^ layout.blockShift < 2 ^ layout.blockShift :=
    Nat.mod_lt _ (Nat.two_pow_pos _)
  have cell := layout.join_div_mod (layout.cell index)
  split
  case isTrue same =>
    -- In the block of the cell, the other places keep their cells because places do not overlap.
    subst same
    have changed := modify_ofFn (fun place : Fin (2 ^ layout.blockShift) =>
      flat (layout.join ((layout.cell index).val / 2 ^ layout.blockShift) place)) ⟨_, placeInside⟩ f
    simp only [block] at changed ⊢
    rw [changed]
    congr 1
    funext place
    by_cases here : place = ⟨_, placeInside⟩
    · subst here
      simp [update, read, cell]
    · rw [Function.update_of_ne here, update, Function.update_of_ne]
      intro same
      apply here
      apply Fin.ext
      exact (Layout.join_inj inside place.isLt inside placeInside (same.trans cell.symm)).2
  case isFalse different =>
    unfold block
    congr 1
    funext place
    rw [update, Function.update_of_ne]
    intro same
    apply different
    exact (Layout.join_inj inside place.isLt (layout.cell_div_lt _) placeInside (same.trans cell.symm)).1.symm

theorem block_setZero (flat : Flat layout) (place : Nat) {key : Nat} (inside : key < 2 ^ layout.hashBits.toNat) :
    (flat.setZero place).block key = zeroPlace (2 ^ layout.strideShift.toNat) place (flat.block key) := by
  unfold block
  rw [zeroPlace_ofFn]
  congr 1
  funext i
  rw [setZero, Layout.join_mod inside i.isLt]

end Flat

end HashedFeatures
