import HashedFeatures.Proofs.Binary32.Rounding

/-! Binary32 numbers that are integers.

A sum or a product of integers that is an integer of magnitude at most 2 ^ 24 is not rounded. A
computation all of whose results are small is then the same computation on integers.
-/

set_option autoImplicit false

namespace HashedFeatures.Binary32

open Float.Model (Format UnpackedFloat totalExponent)
open Float.Model.UnpackedFloat

/-- Up to this magnitude every integer has a pattern. -/
def Small (n : Int) : Prop := n.natAbs ≤ 2 ^ 24

instance (n : Int) : Decidable (Small n) := inferInstanceAs (Decidable (_ ≤ _))

theorem Small.mono {m n : Int} (small : Small n) (nonneg : 0 ≤ m) (below : m ≤ n) : Small m := by
  unfold Small at *
  omega

theorem amount_eq_iff {mantissa exponent n : Int} :
    amount mantissa exponent = n ↔ n * 2 ^ (-exponent).toNat = mantissa * 2 ^ exponent.toNat := by
  unfold amount
  obtain ⟨k, rfl | rfl⟩ := exponent.eq_nat_or_neg
  · have none : (-(k : Int)).toNat = 0 := by omega
    rw [none, Int.toNat_natCast, zpow_natCast, eq_comm, pow_zero, Int.mul_one]
    norm_cast
  · have none : (-(k : Int)).toNat = 0 := by omega
    rw [none, neg_neg, Int.toNat_natCast, zpow_neg, zpow_natCast, ← div_eq_mul_inv,
      div_eq_iff (by positivity), eq_comm, pow_zero, Int.mul_one]
    norm_cast

inductive UnpackedStands : UnpackedFloat → Int → Prop where
  | zero (sign : Sign) : UnpackedStands (.zero sign) 0
  | finite {sign : Sign} {mantissa : Nat} {exponent n : Int} (positive : 0 < mantissa)
      (same : amount (sign.apply mantissa) exponent = n) : UnpackedStands (.finite sign mantissa exponent positive) n

instance : (x : UnpackedFloat) → (n : Int) → Decidable (UnpackedStands x n)
  | .infinity _, _ => .isFalse nofun
  | .notANumber, _ => .isFalse nofun
  | .zero sign, n =>
    decidable_of_iff (n = 0) ⟨fun none => none ▸ .zero sign, fun stands => by cases stands; rfl⟩
  | .finite sign mantissa exponent positive, n =>
    decidable_of_iff (n * 2 ^ (-exponent).toNat = sign.apply mantissa * 2 ^ exponent.toNat)
      ⟨fun same => .finite positive (amount_eq_iff.2 same),
        fun stands => by cases stands with | finite _ same => exact amount_eq_iff.1 same⟩

def Stands (x : Float32) (n : Int) : Prop := UnpackedStands x.toModel.unpack n

instance (x : Float32) (n : Int) : Decidable (Stands x n) := inferInstanceAs (Decidable (UnpackedStands _ _))

def unpackedInteger : UnpackedFloat → Int
  | .finite sign mantissa exponent _ => sign.apply mantissa * 2 ^ exponent.toNat / 2 ^ (-exponent).toNat
  | _ => 0

/-- The integer that a number is; of a number that is none it says nothing. -/
def integer (x : Float32) : Int := unpackedInteger x.toModel.unpack

def IsInteger (x : Float32) : Prop := Stands x (integer x)

instance (x : Float32) : Decidable (IsInteger x) := inferInstanceAs (Decidable (Stands _ _))

theorem UnpackedStands.isNaN {x : UnpackedFloat} {n : Int} (stands : UnpackedStands x n) : x.isNaN = false := by
  cases stands <;> rfl

theorem IsInteger.isNaN {x : Float32} (integral : IsInteger x) : x.isNaN = false := UnpackedStands.isNaN integral

theorem unpackedInteger_eq {x : UnpackedFloat} {n : Int} (stands : UnpackedStands x n) : unpackedInteger x = n := by
  cases stands with
  | zero sign => rfl
  | finite positive same =>
    rw [unpackedInteger, ← amount_eq_iff.1 same]
    exact Int.mul_ediv_cancel n (by positivity)

-- The sign keeps its place: only the magnitude is brought into the form that fits.
theorem exists_normal_of_stands {sign : Sign} {mantissa : Nat} {exponent n : Int} (positive : 0 < mantissa)
    (small : Small n) (stands : amount (sign.apply mantissa) exponent = n) :
    ∃ (normalised : Nat) (fitting : Int), Normal normalised fitting ∧
      amount mantissa exponent = amount normalised fitting ∧ amount (sign.apply normalised) fitting = n := by
  have present : n ≠ 0 := by
    rintro rfl
    exact amount_ne_zero positive exponent (stands.trans Int.cast_zero)
  obtain ⟨normalised, fitting, normal, magnitude⟩ := exists_normal (Int.natAbs_pos.2 present) small
  refine ⟨normalised, fitting, normal, ?_⟩
  have above := amount_pos positive exponent
  cases sign with
  | positive =>
    rw [amount_positive] at stands ⊢
    have nonneg : 0 ≤ n := by
      rw [stands] at above
      exact_mod_cast above.le
    rw [stands, magnitude, ← Int.cast_natCast, Int.natAbs_of_nonneg nonneg]
    exact ⟨rfl, rfl⟩
  | negative =>
    rw [amount_negative] at stands ⊢
    have nonpos : n ≤ 0 := by
      rw [neg_eq_iff_eq_neg.1 stands] at above
      exact_mod_cast (neg_pos.1 above).le
    rw [neg_eq_iff_eq_neg.1 stands, magnitude, ← Int.cast_natCast, Int.ofNat_natAbs_of_nonpos nonpos]
    simp

/-! ## Sums and products of integers -/

theorem round_stands {sign : Sign} {mantissa : Nat} {exponent n : Int} (positive : 0 < mantissa) (small : Small n)
    (stands : amount (sign.apply mantissa) exponent = n) :
    UnpackedStands (unpack Format.binary32 (pack Format.binary32
      (UnpackedFloat.round Format.binary32 sign mantissa exponent))) n := by
  obtain ⟨normalised, fitting, normal, same, again⟩ := exists_normal_of_stands positive small stands
  have present : 0 < normalised := by have := normal.least; omega
  rw [round_of_amount_eq sign present normal.fits positive same, unpack_pack_normal sign normal present]
  exact .finite present again

-- A product of wide mantissas is never shifted to the left.
theorem roundWithAccuracy_stands {sign : Sign} {mantissa : Nat} {exponent n : Int} (wide : 2 ^ 24 ≤ mantissa)
    (small : Small n) (stands : amount (sign.apply mantissa) exponent = n) :
    UnpackedStands (unpack Format.binary32 (pack Format.binary32
      (roundWithAccuracy Format.binary32 sign mantissa exponent .exact))) n := by
  obtain ⟨normalised, fitting, normal, same, again⟩ := exists_normal_of_stands (by omega) small stands
  have present : 0 < normalised := by have := normal.least; omega
  have lower : exponent ≤ fitting := by
    by_contra higher
    have shifted := eq_shifted_of_amount_eq (by omega : fitting ≤ exponent) same.symm
    have := normal.most
    have := Nat.le_mul_of_pos_right mantissa (Nat.two_pow_pos (exponent - fitting).toNat)
    omega
  rw [roundWithAccuracy_of_amount_eq sign present normal.fits lower same, unpack_pack_normal sign normal present]
  exact .finite present again

theorem normalize_stands {total exponent n : Int} (small : Small n) (stands : amount total exponent = n) :
    UnpackedStands (unpack Format.binary32 (pack Format.binary32
      (UnpackedFloat.normalize Format.binary32 total exponent .positive))) n := by
  unfold UnpackedFloat.normalize
  rcases lt_trichotomy total 0 with below | rfl | above
  · rw [Int.compare_eq_lt.2 below]
    apply round_stands (by omega) small
    have magnitude : Sign.negative.apply ((-total).toNat : Int) = total := by
      change -((-total).toNat : Int) = total
      omega
    rw [magnitude, stands]
  · rw [show compare (0 : Int) 0 = .eq from rfl, unpack_pack_zero]
    have none : (n : ℚ) = 0 := by rw [← stands]; simp [amount]
    obtain rfl : n = 0 := by exact_mod_cast none
    exact .zero _
  · rw [Int.compare_eq_gt.2 above]
    apply round_stands (by omega) small
    have magnitude : Sign.positive.apply (total.toNat : Int) = total := by
      change (total.toNat : Int) = total
      omega
    rw [magnitude, stands]

-- An integer is not below the least normal number.
theorem wide_of_fits {sign : Sign} {mantissa : Nat} {exponent n : Int} (positive : 0 < mantissa)
    (fits : Fits Format.binary32 mantissa exponent) (stands : amount (sign.apply mantissa) exponent = n) :
    2 ^ 23 ≤ mantissa := by
  unfold Fits totalExponent at fits
  rw [targetExponent_eq] at fits
  by_contra narrow
  have log : mantissa.log2 < 23 := (Nat.log2_lt positive.ne').2 (by omega)
  obtain rfl : exponent = -149 := by omega
  have apart : n * 2 ^ 149 = sign.apply mantissa := by
    have unit : ((2 : ℚ) ^ (-149 : Int)) = (2 ^ 149)⁻¹ := by norm_num
    rw [amount, unit, ← div_eq_mul_inv, div_eq_iff (by norm_num)] at stands
    exact_mod_cast stands.symm
  cases sign <;> simp only [Sign.apply] at apart <;> omega

theorem unpacked_mul_stands {x y : UnpackedFloat} {m n : Int} (canonical : Canonical x) (other : Canonical y)
    (first : UnpackedStands x m) (second : UnpackedStands y n) (small : Small (m * n)) :
    UnpackedStands (unpack Format.binary32 (pack Format.binary32 (UnpackedFloat.mul Format.binary32 x y))) (m * n) := by
  cases first with
  | zero sign =>
    cases second <;>
    · simp only [UnpackedFloat.mul, unpack_pack_zero, Int.zero_mul]
      exact .zero _
  | finite positive same =>
    cases second with
    | zero t =>
      simp only [UnpackedFloat.mul, unpack_pack_zero, Int.mul_zero]
      exact .zero _
    | finite present also =>
      cases canonical with
      | finite _ _ fits =>
        cases other with
        | finite _ _ alsoFits =>
          have wide := Nat.mul_le_mul (wide_of_fits positive fits same) (wide_of_fits present alsoFits also)
          apply roundWithAccuracy_stands (by omega) small
          rw [Nat.cast_mul, apply_mul, amount_mul, same, also, Int.cast_mul]

theorem unpacked_add_stands {x y : UnpackedFloat} {m n : Int}
    (kept : unpack Format.binary32 (pack Format.binary32 x) = x)
    (alsoKept : unpack Format.binary32 (pack Format.binary32 y) = y) (first : UnpackedStands x m)
    (second : UnpackedStands y n) (small : Small (m + n)) :
    UnpackedStands (unpack Format.binary32 (pack Format.binary32 (UnpackedFloat.add Format.binary32 x y))) (m + n) := by
  cases first with
  | zero sign =>
    cases second with
    | zero t =>
      cases sign <;> cases t <;> exact .zero _
    | finite present also =>
      simp only [UnpackedFloat.add, alsoKept, Int.zero_add]
      exact .finite present also
  | @finite sign mantissa exponent _ positive same =>
    cases second with
    | zero t =>
      simp only [UnpackedFloat.add, kept, Int.add_zero]
      exact .finite positive same
    | @finite t otherMantissa otherExponent _ present also =>
      have total : amount (sign.apply (decreaseExponent mantissa exponent (min exponent otherExponent)).1 +
          t.apply (decreaseExponent otherMantissa otherExponent (min exponent otherExponent)).1)
          (min exponent otherExponent) = (m + n : Int) := by
        rw [amount_add, amount_decreaseExponent sign mantissa (min_le_left _ _),
          amount_decreaseExponent t otherMantissa (min_le_right _ _), same, also, Int.cast_add]
      exact normalize_stands small total

-- The format wants one exponent for one amount, and then one mantissa.
theorem finite_eq_of_amount_eq {s t : Sign} {mantissa other : Nat} {exponent second : Int} (positive : 0 < mantissa)
    (fits : Fits Format.binary32 mantissa exponent) (present : 0 < other) (alsoFits : Fits Format.binary32 other second)
    (same : amount (s.apply mantissa) exponent = amount (t.apply other) second) :
    UnpackedFloat.finite s mantissa exponent positive = .finite t other second present := by
  obtain ⟨rfl, equal⟩ := sign_eq_of_amount_eq positive present same
  have total := totalExponent_of_amount_eq present positive equal
  unfold Fits at fits alsoFits
  obtain rfl := fits.symm.trans ((congrArg Format.binary32.targetExponent total).trans alsoFits)
  obtain rfl : _ = _ := Int.ofNat_inj.1 (amount_injective equal)
  rfl

-- An integer has one pattern, but for the two zeros, which are equal.
theorem unpacked_beq_of_stands {x y : UnpackedFloat} {n : Int} (canonical : Canonical x) (other : Canonical y)
    (first : UnpackedStands x n) (second : UnpackedStands y n) : x.beq y = true := by
  cases first with
  | zero sign =>
    cases second with
    | zero t => rfl
    | finite present also => exact absurd also (by simpa using amount_ne_zero present _)
  | @finite sign _ _ _ positive same =>
    cases second with
    | zero t => exact absurd same (by simpa using amount_ne_zero positive _)
    | @finite t _ _ _ present also =>
      cases canonical with
      | finite _ _ fits =>
        cases other with
        | finite _ _ alsoFits =>
          rw [finite_eq_of_amount_eq positive fits present alsoFits (same.trans also.symm)]
          cases t <;> simp [UnpackedFloat.beq, UnpackedFloat.compare]

theorem unpack_pack_unpack (x : Float32) :
    unpack Format.binary32 (pack Format.binary32 x.toModel.unpack) = x.toModel.unpack :=
  congrArg (unpack Format.binary32) (pack_unpack_of_valid x.toModel.valid)

theorem forall_mem_tail_scanl_cons {α β : Type} {f : β → α → β} {start : β} {item : α} {items : List α}
    {P : β → Prop} :
    (∀ result ∈ ((item :: items).scanl f start).tail, P result) ↔
      P (f start item) ∧ ∀ result ∈ (items.scanl f (f start item)).tail, P result := by
  rw [List.scanl_cons, List.tail_cons]
  cases items <;> simp

namespace Stands

variable {x y : Float32} {m n : Int}

theorem integer_eq (stands : Stands x n) : integer x = n := unpackedInteger_eq stands

theorem isInteger (stands : Stands x n) : IsInteger x := by
  unfold IsInteger
  rwa [stands.integer_eq]

theorem mul (first : Stands x m) (second : Stands y n) (small : Small (m * n)) : Stands (x * y) (m * n) :=
  unpacked_mul_stands (canonical_unpack _) (canonical_unpack _) first second small

theorem add (first : Stands x m) (second : Stands y n) (small : Small (m + n)) : Stands (x + y) (m + n) :=
  unpacked_add_stands (unpack_pack_unpack x) (unpack_pack_unpack y) first second small

theorem zero : Stands 0 0 := by decide

theorem negZero : Stands (-0.0) 0 := by decide

theorem one : Stands 1 1 := by decide

theorem beq (first : Stands x n) (second : Stands y n) : (x == y) = true :=
  unpacked_beq_of_stands (canonical_unpack _) (canonical_unpack _) first second

/-- A fold whose results are all small is the fold over integers. -/
theorem foldl {α : Type} {op : Float32 → α → Float32} {exact : Int → α → Int} {items : List α}
    (step : ∀ item ∈ items, ∀ {x : Float32} {n : Int}, Stands x n → Small (exact n item) →
      Stands (op x item) (exact n item))
    (start : Stands x n) (small : ∀ result ∈ (items.scanl exact n).tail, Small result) :
    Stands (items.foldl op x) (items.foldl exact n) := by
  induction items generalizing x n with
  | nil => exact start
  | cons item items ih =>
    obtain ⟨first, others⟩ := forall_mem_tail_scanl_cons.1 small
    exact ih (fun other member => step other (List.mem_cons_of_mem _ member))
      (step item List.mem_cons_self start first) others

/-- A sum of integers that are not negative is small from its first step to its last. -/
theorem foldl_add {α : Type} {summand : α → Float32} {exact : α → Int} {items : List α}
    (each : ∀ item ∈ items, Stands (summand item) (exact item)) (nonneg : ∀ item ∈ items, 0 ≤ exact item)
    (start : Stands x n) (startNonneg : 0 ≤ n) (small : Small (n + (items.map exact).sum)) :
    Stands (items.foldl (fun sum item => sum + summand item) x) (n + (items.map exact).sum) := by
  induction items generalizing x n with
  | nil => simpa using start
  | cons item items ih =>
    have present := nonneg item List.mem_cons_self
    have others : 0 ≤ (items.map exact).sum :=
      List.sum_nonneg (by simpa using fun other member => nonneg other (List.mem_cons_of_mem _ member))
    rw [List.map_cons, List.sum_cons, ← Int.add_assoc] at small ⊢
    have next : Small (n + exact item) := small.mono (by omega) (by omega)
    exact ih (fun other member => each other (List.mem_cons_of_mem _ member))
      (fun other member => nonneg other (List.mem_cons_of_mem _ member))
      (start.add (each item List.mem_cons_self) next) (by omega) small

end Stands

-- Opening these runs the unpacking of a bit pattern.
attribute [irreducible] Stands integer

end HashedFeatures.Binary32
