import HashedFeatures.Weights.Layout
import HashedFeatures.Weights.Initialiser
import Mathlib.Data.Nat.Bitwise

/-! Arithmetic of the layout when its widths fit a word: masks are remainders, shifts are quotients.

An index wraps around to a cell; the high bits of the cell are its block, the low bits the place in the
block. Slots are runs of cells, so a block and the whole span consist of full slots.
-/

set_option autoImplicit false

namespace HashedFeatures

namespace Word

theorem toNat_lowMask {bits : Nat} (fits : bits < 64) : (lowMask bits).toNat = 2 ^ bits - 1 := by
  have below : 2 ^ bits < 2 ^ 64 := Nat.pow_lt_pow_right (by decide) fits
  unfold lowMask
  rw [if_neg (by omega), UInt64.toNat_ofNat', Nat.one_shiftLeft, Nat.mod_eq_of_lt (by omega)]

theorem toNat_and_lowMask {bits : Nat} (fits : bits < 64) (word : UInt64) :
    (word &&& lowMask bits).toNat = word.toNat % 2 ^ bits := by
  rw [UInt64.toNat_and, toNat_lowMask fits, Nat.and_two_pow_sub_one_eq_mod]

theorem shiftLeft_eq {amount : Nat} (fits : amount < 64) (word : UInt64) :
    shiftLeft word amount = .ok (word <<< UInt64.ofNat amount) := if_pos fits

theorem shiftRight_eq {amount : Nat} (fits : amount < 64) (word : UInt64) :
    shiftRight word amount = .ok (word >>> UInt64.ofNat amount) := if_pos fits

theorem toNat_shiftRight {amount : Nat} (fits : amount < 64) (word : UInt64) :
    (word >>> UInt64.ofNat amount).toNat = word.toNat / 2 ^ amount := by
  rw [UInt64.toNat_shiftRight, UInt64.toNat_ofNat', Nat.mod_eq_of_lt (show amount < 2 ^ 64 by omega),
    Nat.mod_eq_of_lt fits, Nat.shiftRight_eq_div_pow]

theorem toNat_shiftLeft {amount : Nat} (fits : amount < 64) {word : UInt64} (room : word.toNat * 2 ^ amount < 2 ^ 64) :
    (word <<< UInt64.ofNat amount).toNat = word.toNat * 2 ^ amount := by
  rw [UInt64.toNat_shiftLeft, UInt64.toNat_ofNat', Nat.mod_eq_of_lt (show amount < 2 ^ 64 by omega),
    Nat.mod_eq_of_lt fits, Nat.shiftLeft_eq, Nat.mod_eq_of_lt room]

-- The flat index of the slot that a small number lies in.
theorem toNat_slotIndex {amount i : Nat} (fits : amount < 64) (small : i < 2 ^ 64) :
    (UInt64.ofNat (i / 2 ^ amount) <<< UInt64.ofNat amount).toNat = i / 2 ^ amount * 2 ^ amount := by
  have upTo : i / 2 ^ amount * 2 ^ amount ≤ i := Nat.div_mul_le_self _ _
  have slotUpTo : i / 2 ^ amount ≤ i := Nat.div_le_self _ _
  have slot : (UInt64.ofNat (i / 2 ^ amount)).toNat = i / 2 ^ amount := by
    rw [UInt64.toNat_ofNat', Nat.mod_eq_of_lt (by omega)]
  rw [toNat_shiftLeft fits (by rw [slot]; omega), slot]

end Word

namespace Layout

variable {layout : Layout}

def cell (layout : Layout) (index : UInt64) : Fin (2 ^ layout.total) :=
  ⟨(index &&& layout.weightMask).toNat, by
    unfold weightMask
    by_cases fits : layout.total < 64
    · rw [Word.toNat_and_lowMask fits]
      exact Nat.mod_lt _ (Nat.two_pow_pos _)
    · exact Nat.lt_of_lt_of_le (UInt64.toNat_lt _) (Nat.pow_le_pow_right (by decide) (Nat.le_of_not_lt fits))⟩

def join (layout : Layout) (key place : Nat) : Fin (2 ^ layout.total) :=
  ⟨(key * 2 ^ layout.blockShift + place) % 2 ^ layout.total, Nat.mod_lt _ (Nat.two_pow_pos _)⟩

theorem total_eq (layout : Layout) : layout.total = layout.hashBits.toNat + layout.blockShift := by
  unfold total blockShift
  omega

theorem two_pow_total (layout : Layout) :
    2 ^ layout.total = 2 ^ layout.hashBits.toNat * 2 ^ layout.blockShift := by
  rw [total_eq, Nat.pow_add]

theorem blockShift_le (layout : Layout) : layout.blockShift ≤ layout.total := by
  have := layout.total_eq
  omega

theorem strideShift_le (layout : Layout) : layout.strideShift.toNat ≤ layout.blockShift := by
  unfold blockShift
  omega

theorem cell_div_lt (layout : Layout) (i : Fin (2 ^ layout.total)) :
    i.val / 2 ^ layout.blockShift < 2 ^ layout.hashBits.toNat := by
  rw [Nat.div_lt_iff_lt_mul (Nat.two_pow_pos _), ← two_pow_total]
  exact i.isLt

theorem join_lt {key place : Nat} (inside : key < 2 ^ layout.hashBits.toNat) (bound : place < 2 ^ layout.blockShift) :
    key * 2 ^ layout.blockShift + place < 2 ^ layout.total := by
  rw [two_pow_total]
  calc key * 2 ^ layout.blockShift + place
      < (key + 1) * 2 ^ layout.blockShift := by rw [Nat.succ_mul]; omega
    _ ≤ _ := Nat.mul_le_mul_right _ inside

theorem join_val {key place : Nat} (inside : key < 2 ^ layout.hashBits.toNat) (bound : place < 2 ^ layout.blockShift) :
    (layout.join key place).val = key * 2 ^ layout.blockShift + place :=
  Nat.mod_eq_of_lt (join_lt inside bound)

theorem join_div_mod (layout : Layout) (i : Fin (2 ^ layout.total)) :
    layout.join (i.val / 2 ^ layout.blockShift) (i.val % 2 ^ layout.blockShift) = i := by
  apply Fin.ext
  rw [join_val (layout.cell_div_lt i) (Nat.mod_lt _ (Nat.two_pow_pos _)), Nat.div_add_mod']

theorem digits_div {base high low : Nat} (small : low < base) : (high * base + low) / base = high := by
  rw [Nat.mul_comm, Nat.mul_add_div (Nat.zero_lt_of_lt small), Nat.div_eq_of_lt small, Nat.add_zero]

theorem digits_mod {base high low : Nat} (small : low < base) : (high * base + low) % base = low := by
  rw [Nat.mul_add_mod', Nat.mod_eq_of_lt small]

theorem digits_inj {base high low high' low' : Nat} (small : low < base) (small' : low' < base)
    (same : high * base + low = high' * base + low') : high = high' ∧ low = low' :=
  ⟨(digits_div small).symm.trans ((congrArg (· / base) same).trans (digits_div small')),
    (digits_mod small).symm.trans ((congrArg (· % base) same).trans (digits_mod small'))⟩

-- Blocks do not overlap.
theorem join_inj {key place other otherPlace : Nat} (inside : key < 2 ^ layout.hashBits.toNat)
    (bound : place < 2 ^ layout.blockShift) (otherInside : other < 2 ^ layout.hashBits.toNat)
    (otherBound : otherPlace < 2 ^ layout.blockShift)
    (same : layout.join key place = layout.join other otherPlace) : key = other ∧ place = otherPlace := by
  have values := congrArg Fin.val same
  rw [join_val inside bound, join_val otherInside otherBound] at values
  exact digits_inj bound otherBound values

theorem two_pow_blockShift (layout : Layout) :
    2 ^ layout.blockShift = 2 ^ layout.widthBits.toNat * 2 ^ layout.strideShift.toNat := by
  rw [← Nat.pow_add]
  rfl

theorem two_pow_total_eq_slots (layout : Layout) :
    2 ^ layout.total = 2 ^ (layout.total - layout.strideShift.toNat) * 2 ^ layout.strideShift.toNat := by
  rw [← Nat.pow_add, Nat.sub_add_cancel (Nat.le_trans layout.strideShift_le layout.blockShift_le)]

-- A block starts with a full slot, so the place in a slot is that of the place in the block.
theorem join_mod {key place : Nat} (inside : key < 2 ^ layout.hashBits.toNat) (bound : place < 2 ^ layout.blockShift) :
    (layout.join key place).val % 2 ^ layout.strideShift.toNat = place % 2 ^ layout.strideShift.toNat := by
  rw [join_val inside bound, two_pow_blockShift, ← Nat.mul_assoc, Nat.mul_comm _ (2 ^ layout.strideShift.toNat),
    Nat.mul_add_mod]

theorem join_slot {key place : Nat} (inside : key < 2 ^ layout.hashBits.toNat) (bound : place < 2 ^ layout.blockShift) :
    (layout.join key place).val / 2 ^ layout.strideShift.toNat * 2 ^ layout.strideShift.toNat =
      key * 2 ^ layout.blockShift + place / 2 ^ layout.strideShift.toNat * 2 ^ layout.strideShift.toNat := by
  rw [join_val inside bound, two_pow_blockShift, ← Nat.mul_assoc, Nat.add_comm,
    Nat.add_mul_div_right _ _ (Nat.two_pow_pos _), Nat.add_mul, Nat.add_comm]

theorem toNat_cell (narrow : layout.total < 64) (index : UInt64) :
    (layout.cell index).val = index.toNat % 2 ^ layout.total :=
  Word.toNat_and_lowMask narrow index

theorem cell_ofNat (narrow : layout.total < 64) {i : Nat} (inside : i < 2 ^ layout.total) :
    layout.cell (UInt64.ofNat i) = ⟨i, inside⟩ := by
  have span : 2 ^ layout.total < 2 ^ 64 := Nat.pow_lt_pow_right (by decide) narrow
  apply Fin.ext
  rw [toNat_cell narrow, UInt64.toNat_ofNat_of_lt' (Nat.lt_trans inside span), Nat.mod_eq_of_lt inside]

theorem split_eq (narrow : layout.total < 64) (index : UInt64) :
    ∃ key : UInt64, layout.split index = .ok (key, (layout.cell index).val % 2 ^ layout.blockShift) ∧
      key.toNat = (layout.cell index).val / 2 ^ layout.blockShift := by
  have fits : layout.blockShift < 64 := Nat.lt_of_le_of_lt layout.blockShift_le narrow
  refine ⟨(index &&& layout.weightMask) >>> UInt64.ofNat layout.blockShift, ?_, Word.toNat_shiftRight fits _⟩
  simp only [split, Word.shiftRight_eq fits, Word.toNat_and_lowMask fits, bind, Except.bind, pure, Except.pure]
  rfl

theorem stride_eq (narrow : layout.total < 64) :
    ∃ stride : UInt64, layout.stride = .ok stride ∧ stride.toNat = 2 ^ layout.strideShift.toNat := by
  have fits : layout.strideShift.toNat < 64 :=
    Nat.lt_of_le_of_lt (Nat.le_trans layout.strideShift_le layout.blockShift_le) narrow
  refine ⟨1 <<< UInt64.ofNat layout.strideShift.toNat, Word.shiftLeft_eq fits 1, ?_⟩
  have room : (1 : UInt64).toNat * 2 ^ layout.strideShift.toNat < 2 ^ 64 := by
    simpa using Nat.pow_lt_pow_right (show 1 < 2 by decide) fits
  rw [Word.toNat_shiftLeft fits room]
  simp

theorem toNat_rawLength (narrow : layout.total < 64) : layout.rawLength.toNat = 2 ^ layout.total := by
  have below : 2 ^ layout.total < 2 ^ 64 := Nat.pow_lt_pow_right (by decide) narrow
  have positive := Nat.two_pow_pos layout.total
  unfold rawLength weightMask
  rw [UInt64.toNat_add, Word.toNat_lowMask narrow, UInt64.toNat_one]
  omega

end Layout

end HashedFeatures
