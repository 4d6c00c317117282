import HashedFeatures.Proofs.Binary32.Integer

/-! Sums of Binary32 numbers that are not rounded.

Such a sum less one of its summands is the other one: its amount is that of a number, so that nothing is rounded there
either. Only a minus zero may come back as zero.
-/

set_option autoImplicit false

namespace HashedFeatures.Binary32

open Float.Model (Format UnpackedFloat)
open Float.Model.UnpackedFloat

/-! ## The amount of a number -/

/-- Infinities and NaN have no amount. -/
def unpackedAmount? : UnpackedFloat → Option ℚ
  | .zero _ => some 0
  | .finite sign mantissa exponent _ => some (amount (sign.apply mantissa) exponent)
  | .infinity _ | .notANumber => none

def amount? (x : Float32) : Option ℚ := unpackedAmount? x.toModel.unpack

/-- The two numbers have an amount, and their sum is not rounded. -/
def ExactSum (x y : Float32) : Prop :=
  ∃ p q, amount? x = some p ∧ amount? y = some q ∧ amount? (x + y) = some (p + q)

/-- The same number, but for a minus zero that has become a zero. -/
def Regained (x again : Float32) : Prop := again = x ∨ x = -0.0 ∧ again = 0

instance (x again : Float32) : Decidable (Regained x again) := inferInstanceAs (Decidable (_ ∨ _))

theorem eq_of_unpack_eq {x y : Float32} (same : x.toModel.unpack = y.toModel.unpack) : x = y := by
  have models : x.toModel = y.toModel := by rw [← model_pack_unpack x.toModel, same, model_pack_unpack]
  exact congrArg Float32.ofModel models

theorem toModel_unpack_sub (x y : Float32) : (x - y).toModel.unpack =
    unpack Format.binary32 (pack Format.binary32 (UnpackedFloat.sub Format.binary32 x.toModel.unpack y.toModel.unpack)) :=
  rfl

theorem eq_zero_of_amount {x : UnpackedFloat} (none : unpackedAmount? x = some 0) : ∃ sign, x = .zero sign := by
  cases x with
  | zero sign => exact ⟨sign, rfl⟩
  | finite sign mantissa exponent positive =>
    exact absurd (Option.some.inj none) (amount_ne_zero positive exponent)
  | infinity | notANumber => cases none

theorem eq_finite_of_amount {x : UnpackedFloat} {sign : Sign} {mantissa : Nat} {exponent : Int} (canonical : Canonical x)
    (positive : 0 < mantissa) (fits : Fits Format.binary32 mantissa exponent)
    (same : unpackedAmount? x = some (amount (sign.apply mantissa) exponent)) :
    x = .finite sign mantissa exponent positive := by
  cases canonical with
  | infinity | notANumber => cases same
  | zero => exact absurd (Option.some.inj same).symm (amount_ne_zero positive exponent)
  | finite _ present alsoFits => exact finite_eq_of_amount_eq present alsoFits positive fits (Option.some.inj same)

theorem unpackedAmount_of_stands {x : UnpackedFloat} {n : Int} (stands : UnpackedStands x n) :
    unpackedAmount? x = some (n : ℚ) := by
  cases stands with
  | zero sign => rfl
  | finite positive same => rw [unpackedAmount?, same]

theorem amount_of_stands {x : Float32} {n : Int} (stands : Stands x n) : amount? x = some (n : ℚ) := by
  unfold Stands at stands
  exact unpackedAmount_of_stands stands

/-- A sum of integers that is small is not rounded. -/
theorem Stands.exactSum {x y : Float32} {m n : Int} (first : Stands x m) (second : Stands y n) (small : Small (m + n)) :
    ExactSum x y :=
  ⟨m, n, amount_of_stands first, amount_of_stands second,
    (amount_of_stands (first.add second small)).trans (congrArg some (Int.cast_add m n))⟩

/-! ## Differences that are not rounded -/

theorem round_of_amount {x : UnpackedFloat} {sign : Sign} {mantissa : Nat} {exponent : Int} (canonical : Canonical x)
    (positive : 0 < mantissa) (same : unpackedAmount? x = some (amount (sign.apply mantissa) exponent)) :
    UnpackedFloat.round Format.binary32 sign mantissa exponent = x := by
  cases canonical with
  | infinity | notANumber => cases same
  | zero => exact absurd (Option.some.inj same).symm (amount_ne_zero positive exponent)
  | finite _ present fits =>
    obtain ⟨rfl, equal⟩ := sign_eq_of_amount_eq present positive (Option.some.inj same)
    exact round_of_amount_eq _ present fits positive equal.symm

-- A total that is the amount of a number is that number, or else both are zero.
theorem normalize_of_amount {x : UnpackedFloat} {total exponent : Int} (canonical : Canonical x)
    (same : unpackedAmount? x = some (amount total exponent)) :
    UnpackedFloat.normalize Format.binary32 total exponent .positive = x ∨
      (∃ sign, x = .zero sign) ∧
        UnpackedFloat.normalize Format.binary32 total exponent .positive = .zero .positive := by
  unfold UnpackedFloat.normalize
  rcases lt_trichotomy total 0 with below | rfl | above
  · rw [Int.compare_eq_lt.2 below]
    have magnitude : Sign.negative.apply ((-total).toNat : Int) = total := by
      change -((-total).toNat : Int) = total
      omega
    exact .inl (round_of_amount canonical (by omega) (by rw [magnitude, same]))
  · rw [show compare (0 : Int) 0 = .eq from rfl]
    have none : unpackedAmount? x = some 0 := by rw [same]; simp [amount]
    exact .inr ⟨eq_zero_of_amount none, rfl⟩
  · rw [Int.compare_eq_gt.2 above]
    have magnitude : Sign.positive.apply (total.toNat : Int) = total := by
      change (total.toNat : Int) = total
      omega
    exact .inl (round_of_amount canonical (by omega) (by rw [magnitude, same]))

-- A sum less one of its summands that is not zero is the other one, or else both are zero.
theorem unpacked_sub_of_amount {x y sum : UnpackedFloat} {p q : ℚ} (canonical : Canonical x) (also : Canonical y)
    (first : unpackedAmount? x = some p) (second : unpackedAmount? y = some q) (present : q ≠ 0)
    (whole : unpackedAmount? sum = some (p + q)) :
    UnpackedFloat.sub Format.binary32 sum y = x ∨
      (∃ sign, x = .zero sign) ∧ UnpackedFloat.sub Format.binary32 sum y = .zero .positive := by
  cases y with
  | infinity | notANumber => cases second
  | zero => exact absurd (Option.some.inj second).symm present
  | finite t other low positive =>
    have opposite : amount (t.apply other) low = q := Option.some.inj second
    cases sum with
    | infinity | notANumber => cases whole
    | zero sign =>
      cases also with
      | finite _ _ fits =>
        have less : p = -q := eq_neg_of_add_eq_zero_left (Option.some.inj whole).symm
        refine .inl (eq_finite_of_amount canonical positive fits ?_).symm
        rw [first, less, ← opposite, apply_neg, amount_neg]
    | finite s mantissa exponent _ =>
      have together : amount (s.apply mantissa) exponent = p + q := Option.some.inj whole
      have total : amount (s.apply (decreaseExponent mantissa exponent (min exponent low)).1 -
          t.apply (decreaseExponent other low (min exponent low)).1) (min exponent low) = p := by
        rw [sub_eq_add_neg, amount_add, amount_neg, amount_decreaseExponent s mantissa (min_le_left _ _),
          amount_decreaseExponent t other (min_le_right _ _), together, opposite, add_neg_cancel_right]
      exact normalize_of_amount canonical (first.trans (congrArg some total.symm))

/-! ## Taking a summand away again -/

theorem eq_zero_or_of_amount {x : Float32} (none : amount? x = some 0) : x = 0 ∨ x = -0.0 := by
  obtain ⟨sign, zero⟩ := eq_zero_of_amount none
  cases sign with
  | positive => exact .inl (eq_of_unpack_eq zero)
  | negative => exact .inr (eq_of_unpack_eq zero)

theorem eq_of_amount {x y : Float32} {p : ℚ} (present : p ≠ 0) (first : amount? x = some p) (second : amount? y = some p) :
    x = y := by
  apply eq_of_unpack_eq
  have canonical : Canonical y.toModel.unpack := canonical_unpack _
  unfold amount? at first second
  cases opened : y.toModel.unpack with
  | infinity | notANumber =>
    rw [opened] at second
    cases second
  | zero =>
    rw [opened] at second
    exact absurd (Option.some.inj second).symm present
  | finite sign mantissa exponent positive =>
    rw [opened] at second canonical
    cases canonical with
    | finite _ _ fits => exact eq_finite_of_amount (canonical_unpack _) positive fits (first.trans second.symm)

theorem sub_eq_of_unpack {x y r : Float32}
    (same : UnpackedFloat.sub Format.binary32 r.toModel.unpack y.toModel.unpack = x.toModel.unpack) : r - y = x := by
  apply eq_of_unpack_eq
  rw [toModel_unpack_sub, same, unpack_pack_unpack]

theorem sub_zero_of_amount {x y : Float32} {p : ℚ} (present : p ≠ 0) (first : amount? x = some p)
    (none : amount? y = some 0) : x - y = x := by
  obtain ⟨sign, zero⟩ := eq_zero_of_amount none
  apply sub_eq_of_unpack
  unfold amount? at first
  rw [zero]
  cases opened : x.toModel.unpack with
  | infinity | notANumber =>
    rw [opened] at first
    cases first
  | zero =>
    rw [opened] at first
    exact absurd (Option.some.inj first).symm present
  | finite => rfl

-- The sum of two zeros is minus zero only if both are.
theorem regained_zeros : ∀ x ∈ [(0 : Float32), -0.0], ∀ y ∈ [(0 : Float32), -0.0],
    ∀ r ∈ [(0 : Float32), -0.0], Regained (x + y) r → Regained x (r - y) := by
  decide +kernel

theorem mem_zeros {x : Float32} (none : amount? x = some 0) : x ∈ [(0 : Float32), -0.0] := by
  rcases eq_zero_or_of_amount none with rfl | rfl
  · exact List.mem_cons_self
  · exact List.mem_cons_of_mem _ List.mem_cons_self

/-- What was added without rounding is taken away without rounding, also from a sum that was itself regained. -/
theorem ExactSum.regained_sub {x y r : Float32} (exact : ExactSum x y) (regained : Regained (x + y) r) :
    Regained x (r - y) := by
  obtain ⟨p, q, first, second, whole⟩ := exact
  have again : amount? r = some (p + q) := by
    rcases regained with rfl | ⟨minus, rfl⟩
    · exact whole
    · rw [minus] at whole
      exact whole
  by_cases none : q = 0
  · subst none
    rw [add_zero] at again
    by_cases alsoNone : p = 0
    · subst alsoNone
      exact regained_zeros x (mem_zeros first) y (mem_zeros second) r (mem_zeros again) regained
    · left
      rw [sub_zero_of_amount alsoNone again second, eq_of_amount alsoNone again first]
  · rcases unpacked_sub_of_amount (canonical_unpack _) (canonical_unpack _) first second none again with
      same | ⟨⟨sign, zero⟩, difference⟩
    · exact .inl (sub_eq_of_unpack same)
    · have cancelled : r - y = 0 := sub_eq_of_unpack difference
      have zeros : amount? x = some 0 := congrArg unpackedAmount? zero
      rcases eq_zero_or_of_amount zeros with rfl | minus
      · exact .inl cancelled
      · exact .inr ⟨minus, cancelled⟩

end HashedFeatures.Binary32
