import HashedFeatures.Proofs.Binary32.Product

/-! Rounding of binary32 numbers by amount.

Mantissas with exponents that have one amount are rounded alike, so that a number whose amount fits the
format is not changed by rounding. Integers up to 2 ^ 24 have such an amount.
-/

set_option autoImplicit false

namespace HashedFeatures.Binary32

open Float.Model (Format UnpackedFloat totalExponent)
open Float.Model.UnpackedFloat

/-! ## Amounts -/

def amount (mantissa exponent : Int) : ℚ := mantissa * 2 ^ exponent

theorem amount_shifted (mantissa exponent : Int) (shift : Nat) :
    amount (mantissa * 2 ^ shift) (exponent - shift) = amount mantissa exponent := by
  unfold amount
  rw [zpow_sub₀ two_ne_zero, zpow_natCast]
  push_cast
  field_simp

theorem amount_injective {mantissa other exponent : Int} (same : amount mantissa exponent = amount other exponent) :
    mantissa = other := by
  have unit : (2 : ℚ) ^ exponent ≠ 0 := zpow_ne_zero _ two_ne_zero
  exact_mod_cast mul_right_cancel₀ unit same

theorem amount_add (mantissa other exponent : Int) :
    amount (mantissa + other) exponent = amount mantissa exponent + amount other exponent := by
  simp only [amount, Int.cast_add, add_mul]

theorem amount_mul (mantissa other exponent second : Int) :
    amount (mantissa * other) (exponent + second) = amount mantissa exponent * amount other second := by
  simp only [amount, Int.cast_mul, zpow_add₀ (two_ne_zero (α := ℚ))]
  ring

@[simp] theorem amount_positive (mantissa exponent : Int) :
    amount (Sign.positive.apply mantissa) exponent = amount mantissa exponent := rfl

@[simp] theorem amount_negative (mantissa exponent : Int) :
    amount (Sign.negative.apply mantissa) exponent = -amount mantissa exponent := by
  simp only [amount, Sign.apply, Int.cast_neg, neg_mul]

theorem amount_pos {mantissa : Nat} (positive : 0 < mantissa) (exponent : Int) : 0 < amount mantissa exponent := by
  unfold amount
  positivity

theorem amount_ne_zero {sign : Sign} {mantissa : Nat} (positive : 0 < mantissa) (exponent : Int) :
    amount (sign.apply mantissa) exponent ≠ 0 := by
  have present := amount_pos positive exponent
  cases sign with
  | positive => exact present.ne'
  | negative => simpa using present.ne'

theorem sign_eq_of_amount_eq {s t : Sign} {mantissa other : Nat} {exponent second : Int} (positive : 0 < mantissa)
    (alsoPositive : 0 < other) (same : amount (s.apply mantissa) exponent = amount (t.apply other) second) :
    s = t ∧ amount mantissa exponent = amount other second := by
  have present := amount_pos positive exponent
  have alsoPresent := amount_pos alsoPositive second
  cases s with
  | positive =>
    cases t with
    | positive => exact ⟨rfl, same⟩
    | negative =>
      rw [amount_positive, amount_negative] at same
      linarith
  | negative =>
    cases t with
    | positive =>
      rw [amount_negative, amount_positive] at same
      linarith
    | negative =>
      rw [amount_negative, amount_negative] at same
      exact ⟨rfl, neg_injective same⟩

theorem apply_neg (sign : Sign) (n : Int) : (-sign).apply n = -sign.apply n := by
  cases sign with
  | positive => rfl
  | negative => exact (neg_neg n).symm

theorem amount_neg (mantissa exponent : Int) : amount (-mantissa) exponent = -amount mantissa exponent := by
  simp only [amount, Int.cast_neg, neg_mul]

theorem apply_mul (s t : Sign) (m n : Int) : (s * t).apply (m * n) = s.apply m * t.apply n := by
  cases s with
  | negative =>
    cases t with
    | negative => exact (neg_mul_neg m n).symm
    | positive => exact (neg_mul m n).symm
  | positive =>
    cases t with
    | negative => exact (mul_neg m n).symm
    | positive => rfl

theorem amount_decreaseExponent (sign : Sign) (mantissa : Nat) {exponent low : Int} (lower : low ≤ exponent) :
    amount (sign.apply (decreaseExponent mantissa exponent low).1) low = amount (sign.apply mantissa) exponent := by
  have down : exponent - ((exponent - low).toNat : Int) = low := by omega
  have shifted : sign.apply (mantissa * 2 ^ (exponent - low).toNat) =
      sign.apply mantissa * 2 ^ (exponent - low).toNat := by
    cases sign with
    | positive => rfl
    | negative => exact (neg_mul _ _).symm
  have same := amount_shifted (sign.apply mantissa) exponent (exponent - low).toNat
  rw [down] at same
  simpa only [decreaseExponent, Nat.shiftLeft_eq, Nat.cast_mul, Nat.cast_pow, Nat.cast_ofNat, shifted] using same

/-! ## Rounding to an amount that fits -/

theorem eq_shifted_of_amount_eq {mantissa other : Nat} {exponent low : Int} (lower : low ≤ exponent)
    (same : amount other low = amount mantissa exponent) : other = mantissa * 2 ^ (exponent - low).toNat := by
  have down : exponent - ((exponent - low).toNat : Int) = low := by omega
  rw [← amount_shifted mantissa exponent (exponent - low).toNat, down] at same
  exact_mod_cast amount_injective same

theorem totalExponent_of_amount_eq {mantissa other : Nat} {exponent second : Int} (positive : 0 < mantissa)
    (alsoPositive : 0 < other) (same : amount other second = amount mantissa exponent) :
    totalExponent other second = totalExponent mantissa exponent := by
  rcases le_total second exponent with lower | higher
  · have down : exponent - ((exponent - second).toNat : Int) = second := by omega
    rw [eq_shifted_of_amount_eq lower same]
    simpa only [down] using totalExponent_shifted exponent (exponent - second).toNat positive
  · have down : second - ((second - exponent).toNat : Int) = exponent := by omega
    rw [eq_shifted_of_amount_eq higher same.symm]
    simpa only [down] using (totalExponent_shifted second (second - exponent).toNat alsoPositive).symm

theorem roundWithAccuracy_of_amount_eq {spec : Format} (sign : Sign) {mantissa other : Nat} {exponent low : Int}
    (positive : 0 < mantissa) (fits : Fits spec mantissa exponent) (lower : low ≤ exponent)
    (same : amount other low = amount mantissa exponent) :
    roundWithAccuracy spec sign other low .exact = .finite sign mantissa exponent positive := by
  have down : exponent - ((exponent - low).toNat : Int) = low := by omega
  rw [eq_shifted_of_amount_eq lower same]
  simpa only [down] using round_shifted sign (exponent - low).toNat positive fits

theorem round_of_amount_eq {spec : Format} (sign : Sign) {mantissa other : Nat} {exponent second : Int}
    (positive : 0 < mantissa) (fits : Fits spec mantissa exponent) (alsoPositive : 0 < other)
    (same : amount other second = amount mantissa exponent) :
    UnpackedFloat.round spec sign other second = .finite sign mantissa exponent positive := by
  unfold UnpackedFloat.round
  rw [totalExponent_of_amount_eq positive alsoPositive same, fits]
  simp only [decreaseExponent, Nat.shiftLeft_eq]
  apply roundWithAccuracy_of_amount_eq sign positive fits (by omega)
  rw [← same]
  push_cast
  exact amount_shifted _ _ _

/-! ## Small integers fit -/

/-- The normal numbers on which packing loses nothing. -/
structure Normal (mantissa : Nat) (exponent : Int) : Prop where
  least : 2 ^ 23 ≤ mantissa
  most : mantissa < 2 ^ 24
  low : -149 ≤ exponent
  high : exponent ≤ 104

namespace Normal

variable {mantissa : Nat} {exponent : Int}

theorem log2 (normal : Normal mantissa exponent) : mantissa.log2 = 23 :=
  (Nat.log2_eq_iff (by have := normal.least; omega)).2 ⟨normal.least, normal.most⟩

theorem fits (normal : Normal mantissa exponent) : Fits Format.binary32 mantissa exponent := by
  have := normal.low
  unfold Fits totalExponent
  rw [targetExponent_eq, normal.log2]
  omega

end Normal

theorem unpack_pack_zero (sign : Sign) :
    unpack Format.binary32 (pack Format.binary32 (.zero sign)) = .zero sign := unpack_packedZero

theorem unpack_packComponents_normal (sign : Sign) (exponent : BitVec 8) (mantissa : BitVec 23)
    (least : exponent ≠ 0) (most : exponent ≠ -1) (positive : 0 < (1#1 ++ mantissa).toNat) :
    unpack Format.binary32 (packComponents Format.binary32 sign exponent mantissa) =
      .finite sign (1#1 ++ mantissa).toNat (exponent.toNat - 150) positive := by
  unfold unpack
  simp only [unpackExponent_packComponents, unpackMantissa_packComponents, unpackSign_packComponents,
    Sign.ofBitVec_toBitVec]
  rw [if_neg (show ¬ exponent = -1#8 from most), if_neg (show ¬ exponent = 0#8 from least)]
  rfl

theorem unpack_pack_normal (sign : Sign) {mantissa : Nat} {exponent : Int} (normal : Normal mantissa exponent)
    (positive : 0 < mantissa) :
    unpack Format.binary32 (pack Format.binary32 (.finite sign mantissa exponent positive)) =
      .finite sign mantissa exponent positive := by
  obtain ⟨least, most, low, high⟩ := normal
  obtain ⟨fraction, rfl⟩ : ∃ fraction : BitVec 23, mantissa = (1#1 ++ fraction).toNat := by
    refine ⟨.ofNat 23 mantissa, ?_⟩
    rw [toNat_one_append, BitVec.toNat_ofNat]
    omega
  obtain ⟨biased, rfl, bound⟩ : ∃ biased : BitVec 8, exponent = biased.toNat - 150 ∧ biased.toNat < 255 := by
    refine ⟨.ofNat 8 (exponent + 150).toNat, ?_⟩
    rw [BitVec.toNat_ofNat]
    omega
  have notLeast : biased ≠ 0 := by
    rintro rfl
    simp at low
  have notMost : biased ≠ -1 := by
    rintro rfl
    simp at bound
  rw [pack_normal sign biased fraction notMost positive,
    unpack_packComponents_normal sign biased fraction notLeast notMost positive]

theorem exists_normal {n : Nat} (positive : 0 < n) (small : n ≤ 2 ^ 24) :
    ∃ (mantissa : Nat) (exponent : Int), Normal mantissa exponent ∧ amount mantissa exponent = n := by
  have bounds := (Nat.log2_eq_iff positive.ne').1 rfl
  by_cases most : n = 2 ^ 24
  · subst most
    exact ⟨2 ^ 23, 1, ⟨by decide, by decide, by decide, by decide⟩, by norm_num [amount]⟩
  · have log : n.log2 < 24 := (Nat.log2_lt positive.ne').2 (by omega)
    refine ⟨n * 2 ^ (23 - n.log2), 0 - (23 - n.log2 : Nat), ⟨?_, ?_, by omega, by omega⟩, ?_⟩
    · calc 2 ^ 23 = 2 ^ n.log2 * 2 ^ (23 - n.log2) := by rw [← Nat.pow_add]; congr 1; omega
        _ ≤ n * 2 ^ (23 - n.log2) := Nat.mul_le_mul_right _ bounds.1
    · calc n * 2 ^ (23 - n.log2) < 2 ^ (n.log2 + 1) * 2 ^ (23 - n.log2) :=
          Nat.mul_lt_mul_of_pos_right bounds.2 (Nat.two_pow_pos _)
        _ = 2 ^ 24 := by rw [← Nat.pow_add]; congr 1; omega
    · push_cast
      rw [amount_shifted]
      simp [amount]

end HashedFeatures.Binary32
