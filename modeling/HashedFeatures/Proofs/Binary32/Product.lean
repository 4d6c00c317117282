import Mathlib

/-! Products of binary32 numbers: they commute, and one is neutral.

Unpacking a bit pattern gives a mantissa and an exponent that fit the format, and packing gives the
pattern back. A mantissa that fits loses nothing when it is first shifted to the left and then rounded;
this is what a product by one does.
-/

set_option autoImplicit false

namespace HashedFeatures.Binary32

open Float.Model (Format UnpackedFloat totalExponent)
open Float.Model.UnpackedFloat

theorem targetExponent_eq (total : Int) :
    Format.binary32.targetExponent total = max (total - 24) (-149) := rfl

def Fits (spec : Format) (mantissa : Nat) (exponent : Int) : Prop :=
  spec.targetExponent (totalExponent mantissa exponent) = exponent

/-! ## Rounding what fits -/

theorem totalExponent_shifted {mantissa : Nat} (exponent : Int) (shift : Nat) (positive : 0 < mantissa) :
    totalExponent (mantissa * 2 ^ shift) (exponent - shift) = totalExponent mantissa exponent := by
  have log : (mantissa * 2 ^ shift).log2 = mantissa.log2 + shift := by
    rw [Nat.log2_eq_iff (Nat.mul_pos positive (Nat.two_pow_pos _)).ne']
    have bounds := (Nat.log2_eq_iff positive.ne').1 rfl
    constructor
    · rw [Nat.pow_add]
      exact Nat.mul_le_mul_right _ bounds.1
    · rw [Nat.add_right_comm, Nat.pow_add]
      exact Nat.mul_lt_mul_of_pos_right bounds.2 (Nat.two_pow_pos _)
  unfold totalExponent
  omega

theorem shiftRight_exact (mantissa shift : Nat) :
    ExtendedMantissa.mk (mantissa * 2 ^ shift) false false >>> shift = ⟨mantissa, false, false⟩ := by
  induction shift generalizing mantissa with
  | zero => simp [HShiftRight.hShiftRight, Nat.repeat]
  | succ shift ih =>
    change ExtendedMantissa.shiftRightOne
      (ExtendedMantissa.mk (mantissa * 2 ^ (shift + 1)) false false >>> shift) = _
    have apart : mantissa * 2 ^ (shift + 1) = mantissa * 2 * 2 ^ shift := by ring
    rw [apart, ih]
    simp [ExtendedMantissa.shiftRightOne]

theorem shiftToTargetExponent_shifted {spec : Format} {mantissa : Nat} {exponent : Int} (shift : Nat)
    (positive : 0 < mantissa) (fits : Fits spec mantissa exponent) :
    shiftToTargetExponent spec (mantissa * 2 ^ shift) (exponent - shift) .exact =
      (⟨mantissa, false, false⟩, exponent) := by
  have distance : (exponent - (exponent - shift)).toNat = shift := by omega
  unfold shiftToTargetExponent shiftToExponent
  rw [totalExponent_shifted exponent shift positive, fits]
  simp only [distance, ExtendedMantissa.ofMantissaAndAccuracy, shiftRight_exact, Int.sub_add_cancel]

theorem round_shifted {spec : Format} (sign : Sign) {mantissa : Nat} {exponent : Int} (shift : Nat)
    (positive : 0 < mantissa) (fits : Fits spec mantissa exponent) :
    roundWithAccuracy spec sign (mantissa * 2 ^ shift) (exponent - shift) .exact =
      .finite sign mantissa exponent positive := by
  have again := shiftToTargetExponent_shifted 0 positive fits
  simp only [Nat.pow_zero, Nat.mul_one, Int.natCast_zero, Int.sub_zero] at again
  unfold roundWithAccuracy
  rw [shiftToTargetExponent_shifted shift positive fits]
  simp only [ExtendedMantissa.roundedMantissa, ExtendedMantissa.accuracy, Accuracy.roundToNearestEven, again]
  rw [dif_neg positive.ne']

/-! ## Bit patterns and the numbers they stand for -/

theorem toNat_one_append (mantissa : BitVec 23) : (1#1 ++ mantissa).toNat = 2 ^ 23 + mantissa.toNat := by
  rw [BitVec.toNat_append, ← Nat.shiftLeft_add_eq_or_of_lt mantissa.isLt]
  rfl

theorem log2_one_append (mantissa : BitVec 23) : (1#1 ++ mantissa).toNat.log2 = 23 := by
  rw [toNat_one_append, Nat.log2_eq_iff (by omega)]
  have := mantissa.isLt
  omega

theorem fits_normal (mantissa : BitVec 23) {exponent : Int} (least : -149 ≤ exponent) :
    Fits Format.binary32 (1#1 ++ mantissa).toNat exponent := by
  unfold Fits totalExponent
  rw [targetExponent_eq, log2_one_append]
  omega

theorem fits_subnormal {mantissa : BitVec 23} (positive : 0 < mantissa.toNat) :
    Fits Format.binary32 mantissa.toNat (-149) := by
  have log : mantissa.toNat.log2 < 23 := (Nat.log2_lt positive.ne').2 mantissa.isLt
  unfold Fits totalExponent
  rw [targetExponent_eq]
  omega

/-- The numbers that bit patterns stand for. -/
inductive Canonical : UnpackedFloat → Prop where
  | infinity (sign : Sign) : Canonical (.infinity sign)
  | notANumber : Canonical .notANumber
  | zero (sign : Sign) : Canonical (.zero sign)
  | finite (sign : Sign) {mantissa : Nat} {exponent : Int} (positive : 0 < mantissa)
      (fits : Fits Format.binary32 mantissa exponent) : Canonical (.finite sign mantissa exponent positive)

theorem canonical_unpack (bits : BitVec 32) : Canonical (unpack Format.binary32 bits) := by
  have bias : Format.binary32.exponentBias = 127 := rfl
  unfold unpack
  simp only
  split
  · split <;> constructor
  · split
    case isTrue least =>
      split
      · constructor
      case isFalse nonZero =>
        have positive : 0 < (@unpackMantissa Format.binary32 bits).toNat := by
          simpa [BitVec.toNat_pos, BitVec.pos_iff_ne_zero] using nonZero
        rw [least]
        exact .finite _ _ (fits_subnormal positive)
    case isFalse least =>
      have : 0 < (@unpackExponent Format.binary32 bits).toNat := by
        simpa [BitVec.toNat_pos, BitVec.pos_iff_ne_zero] using least
      exact .finite _ _ (fits_normal _ (by omega))

theorem pack_normal (sign : Sign) (exponent : BitVec 8) (mantissa : BitVec 23)
    (most : exponent ≠ -1) (positive : 0 < (1#1 ++ mantissa).toNat) :
    pack Format.binary32 (.finite sign (1#1 ++ mantissa).toNat (exponent.toNat - 150) positive) =
      packComponents Format.binary32 sign exponent mantissa := by
  have bound : exponent.toNat < 255 := by
    have different := BitVec.toNat_ne.1 most
    have : (-1 : BitVec 8).toNat = 255 := rfl
    omega
  have biased : ((exponent.toNat : Int) - 150 + Format.binary32.exponentBias +
      (Format.binary32.mantissaBitsWithoutImplicit : Nat)).toNat = exponent.toNat := by
    have : Format.binary32.exponentBias = 127 := rfl
    change ((exponent.toNat : Int) - 150 + Format.binary32.exponentBias + (23 : Nat)).toNat = _
    omega
  have implicit : BitVec.ofNat 23 (1#1 ++ mantissa).toNat = mantissa := by
    apply BitVec.eq_of_toNat_eq
    have := mantissa.isLt
    rw [toNat_one_append, BitVec.toNat_ofNat]
    omega
  unfold pack
  rw [biased, log2_one_append]
  rw [if_neg (show ¬ 2 ^ 8 ≤ exponent.toNat + 1 by omega),
    if_pos (show 23 + 1 = Format.binary32.mantissaBits from rfl), implicit]
  simp

/-- Packing gives a number back; of the patterns of NaN only the chosen one is valid. -/
theorem model_pack_unpack (x : Float32.Model) : Float32.Model.pack x.unpack = x := by
  cases x with
  | mk bits valid =>
    simp only [Float32.Model.pack, Float32.Model.mk.injEq]
    exact congrArg UInt32.ofBitVec (pack_unpack_of_valid valid)

/-! ## Products -/

theorem sign_mul_comm (s t : Sign) : s * t = t * s := by
  cases s <;> cases t <;> rfl

theorem unpacked_mul_comm (spec : Format) (x y : UnpackedFloat) :
    UnpackedFloat.mul spec x y = UnpackedFloat.mul spec y x := by
  cases x <;> cases y <;> simp only [UnpackedFloat.mul, sign_mul_comm, Nat.mul_comm, Int.add_comm]

theorem mul_comm (x y : Float32) : x * y = y * x :=
  congrArg (fun product => Float32.ofModel (.pack product)) (unpacked_mul_comm _ _ _)

theorem unpack_one : (1 : Float32).toModel.unpack = .finite .positive (2 ^ 23) (-23) (by decide) := by
  have bits : (1 : Float32).toModel.toBits.toBitVec = 0x3f800000#32 := by decide
  unfold Float32.Model.unpack
  rw [bits]
  rfl

theorem unpacked_one_mul {x : UnpackedFloat} (canonical : Canonical x) :
    UnpackedFloat.mul Format.binary32 (.finite .positive (2 ^ 23) (-23) (by decide)) x = x := by
  have keeps (sign : Sign) : Sign.positive * sign = sign := by cases sign <;> rfl
  cases canonical with
  | infinity sign => simp only [UnpackedFloat.mul, keeps]
  | notANumber => rfl
  | zero sign => simp only [UnpackedFloat.mul, keeps]
  | finite sign positive fits =>
    simp only [UnpackedFloat.mul, keeps]
    rw [Nat.mul_comm, Int.add_comm]
    exact round_shifted sign 23 positive fits

-- One is neutral, also for a NaN, of which there is only one.
theorem one_mul (x : Float32) : 1 * x = x := by
  change Float32.ofModel (.pack (UnpackedFloat.mul _ (1 : Float32).toModel.unpack x.toModel.unpack)) = x
  have canonical : Canonical x.toModel.unpack := canonical_unpack _
  rw [unpack_one, unpacked_one_mul canonical, model_pack_unpack]

theorem mul_one (x : Float32) : x * 1 = x := by
  rw [mul_comm, one_mul]

end HashedFeatures.Binary32
