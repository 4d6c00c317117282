import HashedFeatures.Proofs.Binary32.Integer
import HashedFeatures.Proofs.Binary32.Order

/-! Comparing and subtracting Binary32 numbers that are small integers.

A small integer is a normal number, so its sign, exponent and mantissa order it as its amount does, and it can be
packed with the other sign.
-/

set_option autoImplicit false

namespace HashedFeatures.Binary32

open Float.Model (Format UnpackedFloat)
open Float.Model.UnpackedFloat

/-! ## The form of a small integer -/

theorem normal_of_stands {sign : Sign} {mantissa : Nat} {exponent n : Int} (positive : 0 < mantissa)
    (fits : Fits Format.binary32 mantissa exponent) (small : Small n)
    (stands : amount (sign.apply mantissa) exponent = n) : Normal mantissa exponent := by
  obtain ⟨normalised, fitting, normal, same, -⟩ := exists_normal_of_stands positive small stands
  have present : 0 < normalised := by have := normal.least; omega
  have total := totalExponent_of_amount_eq present positive same
  have alsoFits := normal.fits
  unfold Fits at fits alsoFits
  -- The format wants one exponent for one amount.
  obtain rfl : exponent = fitting := by rw [← fits, total, alsoFits]
  obtain rfl : mantissa = normalised := Int.ofNat_inj.1 (amount_injective same)
  exact normal

/-! ## Order -/

-- Normal mantissas are less than one binary digit apart.
theorem before_of_amount_lt {mantissa other : Nat} {exponent second : Int} (normal : Normal mantissa exponent)
    (also : Normal other second) (below : amount mantissa exponent < amount other second) :
    exponent < second ∨ exponent = second ∧ mantissa < other := by
  rcases lt_trichotomy exponent second with lower | rfl | higher
  · exact .inl lower
  · refine .inr ⟨rfl, ?_⟩
    have unit : (0 : ℚ) < 2 ^ exponent := by positivity
    exact_mod_cast lt_of_mul_lt_mul_right below unit.le
  · have least : (2 : ℚ) ^ 23 ≤ mantissa := by exact_mod_cast normal.least
    have most : (other : ℚ) ≤ 2 ^ 24 := by exact_mod_cast also.most.le
    have step : (2 : ℚ) ^ (second + 1) ≤ 2 ^ exponent := zpow_le_zpow_right₀ one_le_two (by omega)
    have reversed : amount other second ≤ amount mantissa exponent := by
      unfold amount
      calc ((other : Int) : ℚ) * 2 ^ second ≤ 2 ^ 24 * 2 ^ second := by push_cast; gcongr
        _ = 2 ^ 23 * 2 ^ (second + 1) := by rw [zpow_add₀ two_ne_zero, zpow_one]; ring
        _ ≤ ((mantissa : Int) : ℚ) * 2 ^ exponent := by push_cast; gcongr
    exact absurd below reversed.not_gt

theorem unpackedRank_lt {x y : UnpackedFloat} {m n : Int} (canonical : Canonical x) (other : Canonical y)
    (first : UnpackedStands x m) (second : UnpackedStands y n) (small : Small m) (alsoSmall : Small n) (below : m < n) :
    unpackedRank x < unpackedRank y := by
  cases first with
  | zero sign =>
    cases second with
    | zero t => omega
    | @finite t mantissa exponent _ positive same =>
      cases t with
      | positive => simp [unpackedRank, Prod.Lex.toLex_lt_toLex]
      | negative =>
        have above := amount_pos positive exponent
        rw [amount_negative] at same
        have : (0 : ℚ) < n := by exact_mod_cast below
        linarith
  | @finite sign mantissa exponent _ positive same =>
    cases canonical with
    | finite _ _ fits =>
      have normal := normal_of_stands positive fits small same
      have above := amount_pos positive exponent
      cases second with
      | zero t =>
        cases sign with
        | negative => simp [unpackedRank, Prod.Lex.toLex_lt_toLex]
        | positive =>
          rw [amount_positive] at same
          have : (m : ℚ) < 0 := by exact_mod_cast below
          linarith
      | @finite t otherMantissa otherExponent _ present also =>
        cases other with
        | finite _ _ alsoFits =>
          have alsoNormal := normal_of_stands present alsoFits alsoSmall also
          have alsoAbove := amount_pos present otherExponent
          have apart : (m : ℚ) < n := by exact_mod_cast below
          rw [← same, ← also] at apart
          cases sign with
          | positive =>
            cases t with
            | positive =>
              have order := before_of_amount_lt normal alsoNormal apart
              simpa [unpackedRank, Prod.Lex.toLex_lt_toLex] using order
            | negative =>
              rw [amount_positive, amount_negative] at apart
              linarith
          | negative =>
            cases t with
            | positive => simp [unpackedRank, Prod.Lex.toLex_lt_toLex]
            | negative =>
              rw [amount_negative, amount_negative, neg_lt_neg_iff] at apart
              have order := before_of_amount_lt alsoNormal normal apart
              simpa [unpackedRank, Prod.Lex.toLex_lt_toLex, eq_comm] using order

-- Equal numbers are not in order.
theorem not_lt_of_beq {x y : Float32} (same : (x == y) = true) : ¬ x < y := by
  intro before
  have equal : x.toModel.unpack.compare y.toModel.unpack = some .eq := beq_iff_eq.1 same
  have less : x.toModel.unpack.compare y.toModel.unpack = some .lt :=
    beq_iff_eq.1 (decide_eq_true_iff.1 before)
  exact nomatch equal.symm.trans less

/-- Small integers compare as numbers the way they do as integers. -/
theorem Stands.lt_iff {x y : Float32} {m n : Int} (first : Stands x m) (second : Stands y n) (small : Small m)
    (alsoSmall : Small n) : x < y ↔ m < n := by
  have number := first.isInteger.isNaN
  have alsoNumber := second.isInteger.isNaN
  rcases lt_trichotomy m n with below | rfl | above
  · refine iff_of_true ?_ below
    rw [Binary32.lt_iff number alsoNumber]
    unfold Stands at first second
    exact unpackedRank_lt (canonical_unpack _) (canonical_unpack _) first second small alsoSmall below
  · exact iff_of_false (not_lt_of_beq (first.beq second)) (lt_irrefl m)
  · refine iff_of_false ?_ above.not_gt
    rw [Binary32.lt_iff number alsoNumber]
    unfold Stands at first second
    exact (unpackedRank_lt (canonical_unpack _) (canonical_unpack _) second first alsoSmall small above).asymm

/-! ## Differences -/

theorem unpacked_sub_stands {x y : UnpackedFloat} {m n : Int} (canonical : Canonical y)
    (kept : unpack Format.binary32 (pack Format.binary32 x) = x) (first : UnpackedStands x m)
    (second : UnpackedStands y n) (small : Small (m - n)) :
    UnpackedStands (unpack Format.binary32 (pack Format.binary32 (UnpackedFloat.sub Format.binary32 x y))) (m - n) := by
  cases first with
  | zero sign =>
    cases second with
    | zero t => cases sign <;> cases t <;> exact .zero _
    | @finite t mantissa exponent _ present also =>
      cases canonical with
      | finite _ _ fits =>
        have normal := normal_of_stands present fits (by unfold Small at *; omega) also
        simp only [UnpackedFloat.sub, Int.zero_sub, unpack_pack_normal (-t) normal present]
        refine .finite present ?_
        rw [apply_neg, amount_neg, also, Int.cast_neg]
  | @finite sign mantissa exponent _ positive same =>
    cases second with
    | zero t =>
      simp only [UnpackedFloat.sub, kept, Int.sub_zero]
      exact .finite positive same
    | @finite t otherMantissa otherExponent _ present also =>
      have total : amount (sign.apply (decreaseExponent mantissa exponent (min exponent otherExponent)).1 -
          t.apply (decreaseExponent otherMantissa otherExponent (min exponent otherExponent)).1)
          (min exponent otherExponent) = (m - n : Int) := by
        rw [sub_eq_add_neg, amount_add, amount_neg, amount_decreaseExponent sign mantissa (min_le_left _ _),
          amount_decreaseExponent t otherMantissa (min_le_right _ _), same, also, Int.cast_sub, sub_eq_add_neg]
      exact normalize_stands small total

theorem Stands.sub {x y : Float32} {m n : Int} (first : Stands x m) (second : Stands y n) (small : Small (m - n)) :
    Stands (x - y) (m - n) := by
  unfold Stands at *
  exact unpacked_sub_stands (canonical_unpack _) (unpack_pack_unpack x) first second small

end HashedFeatures.Binary32
