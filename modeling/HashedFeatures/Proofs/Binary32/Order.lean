import Mathlib

/-! Comparing Binary32 numbers.

Numbers that are not NaN compare like their ranks, which are linearly ordered. Only the two zeros equal zero.
-/

set_option autoImplicit false

namespace HashedFeatures.Binary32

open Float.Model (Format UnpackedFloat)
open Float.Model.UnpackedFloat

/-- Where a number stands: its kind and sign, then its exponent, then its mantissa. -/
def unpackedRank : UnpackedFloat → Int ×ₗ Int ×ₗ Int
  | .infinity .negative => toLex (-2, toLex (0, 0))
  | .finite .negative mantissa exponent _ => toLex (-1, toLex (-exponent, -mantissa))
  | .zero _ => toLex (0, toLex (0, 0))
  | .finite .positive mantissa exponent _ => toLex (1, toLex (exponent, mantissa))
  | .infinity .positive => toLex (2, toLex (0, 0))
  | .notANumber => toLex (3, toLex (0, 0))

theorem compare_then_lt {m n : Nat} {e f : Int} :
    ((compare e f).then (compare m n) = .lt) ↔ e < f ∨ e = f ∧ m < n := by
  rw [Ordering.then_eq_lt, compare_lt_iff_lt, compare_eq_iff_eq, compare_lt_iff_lt]

theorem compare_then_gt {m n : Nat} {e f : Int} :
    ((compare e f).then (compare m n) = .gt) ↔ f < e ∨ e = f ∧ n < m := by
  rw [Ordering.then_eq_gt, compare_gt_iff_gt, compare_eq_iff_eq, compare_gt_iff_gt]

theorem unpacked_lt_iff {x y : UnpackedFloat} (number : x.isNaN = false) (other : y.isNaN = false) :
    x.lt y = true ↔ unpackedRank x < unpackedRank y := by
  -- Only two numbers of one kind and sign compare by exponent and mantissa.
  unfold UnpackedFloat.lt
  rw [beq_iff_eq]
  cases x with
  | notANumber => cases number
  | infinity s =>
    cases y with
    | notANumber => cases other
    | infinity t => cases s <;> cases t <;> simp [UnpackedFloat.compare, unpackedRank, Prod.Lex.toLex_lt_toLex, compare]
    | zero t => cases s <;> simp [UnpackedFloat.compare, unpackedRank, Prod.Lex.toLex_lt_toLex]
    | finite t => cases s <;> cases t <;> simp [UnpackedFloat.compare, unpackedRank, Prod.Lex.toLex_lt_toLex]
  | zero s =>
    cases y with
    | notANumber => cases other
    | infinity t => cases t <;> simp [UnpackedFloat.compare, unpackedRank, Prod.Lex.toLex_lt_toLex]
    | zero t => simp [UnpackedFloat.compare, unpackedRank]
    | finite t => cases t <;> simp [UnpackedFloat.compare, unpackedRank, Prod.Lex.toLex_lt_toLex]
  | finite s m e =>
    cases y with
    | notANumber => cases other
    | infinity t => cases s <;> cases t <;> simp [UnpackedFloat.compare, unpackedRank, Prod.Lex.toLex_lt_toLex]
    | zero t => cases s <;> simp [UnpackedFloat.compare, unpackedRank, Prod.Lex.toLex_lt_toLex]
    | finite t n f =>
      cases s with
      | positive =>
        cases t with
        | negative => simp [UnpackedFloat.compare, unpackedRank, Prod.Lex.toLex_lt_toLex]
        | positive =>
          simp [UnpackedFloat.compare, unpackedRank, Prod.Lex.toLex_lt_toLex, compare_then_lt]
      | negative =>
        cases t with
        | positive => simp [UnpackedFloat.compare, unpackedRank, Prod.Lex.toLex_lt_toLex]
        | negative =>
          simp [UnpackedFloat.compare, unpackedRank, Prod.Lex.toLex_lt_toLex, compare_then_gt]

theorem unpacked_beq_iff {x y : UnpackedFloat} (number : x.isNaN = false) (other : y.isNaN = false) :
    x.beq y = true ↔ unpackedRank x = unpackedRank y := by
  unfold UnpackedFloat.beq
  rw [beq_iff_eq]
  cases x with
  | notANumber => cases number
  | infinity s =>
    cases y with
    | notANumber => cases other
    | infinity t => cases s <;> cases t <;> simp [UnpackedFloat.compare, unpackedRank, compare]
    | zero t => cases s <;> simp [UnpackedFloat.compare, unpackedRank]
    | finite t => cases s <;> cases t <;> simp [UnpackedFloat.compare, unpackedRank]
  | zero s =>
    cases y with
    | notANumber => cases other
    | infinity t => cases t <;> simp [UnpackedFloat.compare, unpackedRank]
    | zero t => simp [UnpackedFloat.compare, unpackedRank]
    | finite t => cases t <;> simp [UnpackedFloat.compare, unpackedRank]
  | finite s m e =>
    cases y with
    | notANumber => cases other
    | infinity t => cases s <;> cases t <;> simp [UnpackedFloat.compare, unpackedRank]
    | zero t => cases s <;> simp [UnpackedFloat.compare, unpackedRank]
    | finite t n f =>
      cases s <;> cases t <;> simp [UnpackedFloat.compare, unpackedRank, Ordering.swap_eq_iff_eq_swap]

def rank (x : Float32) : Int ×ₗ Int ×ₗ Int := unpackedRank x.toModel.unpack

theorem lt_iff {x y : Float32} (number : x.isNaN = false) (other : y.isNaN = false) : x < y ↔ rank x < rank y :=
  decide_eq_true_iff.trans (unpacked_lt_iff number other)

theorem beq_iff {x y : Float32} (number : x.isNaN = false) (other : y.isNaN = false) :
    (x == y) = true ↔ rank x = rank y :=
  unpacked_beq_iff number other

/-! ## Zeros -/

theorem unpacked_beq_zero_iff {x : UnpackedFloat} {sign : Sign} :
    x.beq (.zero sign) = true ↔ ∃ own, x = .zero own := by
  unfold UnpackedFloat.beq
  cases x with
  | zero own => simp [UnpackedFloat.compare]
  | notANumber => simp [UnpackedFloat.compare]
  | infinity own | finite own => cases own <;> simp [UnpackedFloat.compare]

/-- A number that equals zero has one of two patterns. -/
theorem beq_zero_iff (x : Float32) : (x == 0) = true ↔ x.toBits = 0 ∨ x.toBits = 0x80000000 := by
  have compared : (x == 0) = x.toModel.unpack.beq (.zero .positive) := rfl
  have packed : pack Format.binary32 x.toModel.unpack = x.toBits.toBitVec := pack_unpack_of_valid x.toModel.valid
  rw [compared, unpacked_beq_zero_iff, ← UInt32.toBitVec_inj, ← UInt32.toBitVec_inj, ← packed]
  constructor
  · rintro ⟨sign, same⟩
    rw [same]
    cases sign with
    | positive => exact .inl rfl
    | negative => exact .inr rfl
  · intro pattern
    rw [packed] at pattern
    have opened : x.toModel.unpack = unpack Format.binary32 x.toBits.toBitVec := rfl
    rcases pattern with zero | negated
    · exact ⟨.positive, by rw [opened, zero]; rfl⟩
    · exact ⟨.negative, by rw [opened, negated]; rfl⟩

end HashedFeatures.Binary32
