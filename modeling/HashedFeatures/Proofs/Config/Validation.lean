import HashedFeatures.Config.Text
import Mathlib.Algebra.Group.Nat.Defs

/-! Which configurations are accepted.

The widths are added as 32-bit numbers before any of them is bounded. Where the sum is such a number, a configuration is
accepted or refused as invalid. Where it is not, the check stops before it has decided anything.
-/

set_option autoImplicit false

namespace HashedFeatures.Config

def totalBits (config : Config) : Nat :=
  config.bitPrecision.toNat + config.featureWidthBits.toNat + config.strideShift.toNat

structure Sound (config : Config) : Prop where
  hashed : 1 ≤ config.bitPrecision.toNat
  narrow : config.totalBits ≤ 48
  filled : ∀ term ∈ config.interactions, term ≠ ""

/-- A sound configuration is accepted, any other one is refused as invalid. -/
structure Decides (config : Config) (outcome : Except Fault Unit) : Prop where
  accepts : config.Sound → outcome = .ok ()
  refuses : ¬ config.Sound → ∃ fault, outcome = .error fault ∧ fault.kind = .invalidConfig

def denoted? (text : String) : Option Config :=
  Json.Value.ofText text >>= slots? >>= ofSlots?

variable {config : Config}

theorem bitPrecision_eq_zero_iff : config.bitPrecision = 0 ↔ config.bitPrecision.toNat = 0 :=
  UInt32.toNat_inj.symm

theorem any_isEmpty_iff : config.interactions.any String.isEmpty = true ↔ "" ∈ config.interactions := by
  simp [List.any_eq_true, String.isEmpty_iff]

theorem validate_of_le (wide : 2 ^ 32 ≤ config.totalBits) : config.validate = .error .overflow := by
  have overflows :
      ¬ config.bitPrecision.toNat + config.featureWidthBits.toNat + config.strideShift.toNat < UInt32.size :=
    Nat.not_lt.2 wide
  unfold validate Layout.make
  rw [dif_neg overflows]
  rfl

theorem validate_of_lt (fits : config.totalBits < 2 ^ 32) :
    config.validate =
      if config.bitPrecision.toNat = 0 ∨ 48 < config.totalBits then
        .error (.widths config.bitPrecision config.featureWidthBits config.strideShift)
      else if "" ∈ config.interactions then .error .emptyTerm
      else .ok () := by
  have adds : config.bitPrecision.toNat + config.featureWidthBits.toNat + config.strideShift.toNat < UInt32.size := fits
  unfold validate Layout.make
  rw [dif_pos adds]
  simp only [← bitPrecision_eq_zero_iff, ← any_isEmpty_iff]
  by_cases bounded : config.bitPrecision = 0 ∨ 48 < config.totalBits
  · rw [if_pos bounded]
    exact if_pos bounded
  · rw [if_neg bounded]
    exact (if_neg bounded).trans rfl

theorem sound_iff : config.Sound ↔
    ¬ (config.bitPrecision.toNat = 0 ∨ 48 < config.totalBits) ∧ "" ∉ config.interactions := by
  rw [not_or, Nat.not_lt]
  constructor
  · rintro ⟨hashed, narrow, filled⟩
    exact ⟨⟨Nat.one_le_iff_ne_zero.1 hashed, narrow⟩, fun empty => filled "" empty rfl⟩
  · rintro ⟨⟨hashed, narrow⟩, filled⟩
    exact ⟨Nat.one_le_iff_ne_zero.2 hashed, narrow, fun term member empty => filled (empty ▸ member)⟩

instance : Decidable config.Sound := decidable_of_iff' _ sound_iff

theorem Sound.fits (sound : config.Sound) : config.totalBits < 2 ^ 32 :=
  Nat.lt_of_le_of_lt sound.narrow (by decide)

/-- Where the widths can be added, a configuration is accepted exactly if it is sound, and otherwise it is said what is
wrong with it: first with the widths, then with the terms. -/
theorem validate_cases (config : Config) :
    (config.Sound ∧ config.validate = .ok ()) ∨
      (¬ config.Sound ∧ config.totalBits < 2 ^ 32 ∧ (config.bitPrecision.toNat = 0 ∨ 48 < config.totalBits) ∧
        config.validate = .error (.widths config.bitPrecision config.featureWidthBits config.strideShift)) ∨
      (¬ config.Sound ∧ config.totalBits < 2 ^ 32 ∧ ¬ (config.bitPrecision.toNat = 0 ∨ 48 < config.totalBits) ∧
        config.validate = .error .emptyTerm) ∨
      (¬ config.Sound ∧ 2 ^ 32 ≤ config.totalBits ∧ config.validate = .error .overflow) := by
  rcases Nat.lt_or_ge config.totalBits (2 ^ 32) with fits | wide
  · rw [validate_of_lt fits, sound_iff]
    by_cases bounded : config.bitPrecision.toNat = 0 ∨ 48 < config.totalBits
    · exact .inr (.inl ⟨fun sound => sound.1 bounded, fits, bounded, if_pos bounded⟩)
    · by_cases empty : "" ∈ config.interactions
      · exact .inr (.inr (.inl ⟨fun sound => sound.2 empty, fits, bounded, by rw [if_neg bounded, if_pos empty]⟩))
      · exact .inl ⟨⟨bounded, empty⟩, by rw [if_neg bounded, if_neg empty]⟩
  · exact .inr (.inr (.inr ⟨fun sound => Nat.not_le.2 sound.fits wide, wide, validate_of_le wide⟩))

theorem validate_eq_ok_iff : config.validate = .ok () ↔ config.Sound := by
  rcases validate_cases config with ⟨sound, valid⟩ | ⟨unsound, -, -, refused⟩ | ⟨unsound, -, -, refused⟩ |
    ⟨unsound, -, refused⟩
  · exact iff_of_true valid sound
  all_goals exact iff_of_false (by rw [refused]; nofun) unsound

theorem exists_invalidConfig_iff :
    (∃ fault, config.validate = .error fault ∧ fault.kind = .invalidConfig) ↔
      ¬ config.Sound ∧ config.totalBits < 2 ^ 32 := by
  rcases validate_cases config with ⟨sound, valid⟩ | ⟨unsound, fits, -, refused⟩ | ⟨unsound, fits, -, refused⟩ |
    ⟨-, wide, refused⟩
  · exact iff_of_false (by rw [valid]; nofun) fun ⟨unsound, _⟩ => unsound sound
  · exact iff_of_true ⟨_, refused, rfl⟩ ⟨unsound, fits⟩
  · exact iff_of_true ⟨_, refused, rfl⟩ ⟨unsound, fits⟩
  · refine iff_of_false ?_ fun ⟨_, fits⟩ => Nat.not_le.2 fits wide
    rw [refused]
    rintro ⟨fault, same, invalid⟩
    cases same
    cases invalid

theorem validate_eq_overflow_iff : config.validate = .error .overflow ↔ 2 ^ 32 ≤ config.totalBits := by
  refine ⟨fun stopped => Nat.not_lt.1 fun fits => ?_, validate_of_le⟩
  rw [validate_of_lt fits] at stopped
  repeat' split at stopped
  all_goals cases stopped

theorem decides_iff : config.Decides config.validate ↔ config.totalBits < 2 ^ 32 := by
  constructor
  · intro decides
    rcases Decidable.em config.Sound with sound | unsound
    · exact sound.fits
    · exact (exists_invalidConfig_iff.1 (decides.refuses unsound)).2
  · exact fun fits => ⟨validate_eq_ok_iff.2, fun unsound => exists_invalidConfig_iff.2 ⟨unsound, fits⟩⟩

/-! ## Texts -/

/-- A reading ends with a sound configuration, or with an error that its caller can act on. -/
def Ends (outcome : Except Fault Config) : Prop :=
  (∃ config, outcome = .ok config ∧ config.Sound) ∨
    ∃ fault, outcome = .error fault ∧ (fault = .malformedText ∨ fault.kind = .invalidConfig)

theorem ofText_of_none {text : String} (malformed : denoted? text = none) : ofText text = .error .malformedText := by
  unfold denoted? at malformed
  rw [ofText, malformed]

theorem ofText_of_some {text : String} (read : denoted? text = some config) :
    ofText text = config.validate.map fun _ => config := by
  unfold denoted? at read
  rw [ofText, read]

theorem sound_of_ofText_eq_ok {text : String} (read : ofText text = .ok config) : config.Sound := by
  cases known : denoted? text with
  | none =>
    rw [ofText_of_none known] at read
    cases read
  | some denoted =>
    rw [ofText_of_some known] at read
    cases valid : denoted.validate with
    | error fault =>
      rw [valid] at read
      cases read
    | ok =>
      rw [valid] at read
      obtain rfl : denoted = config := Except.ok.inj read
      exact validate_eq_ok_iff.1 valid

theorem ends_ofText_iff (text : String) :
    Ends (ofText text) ↔ ∀ config, denoted? text = some config → config.totalBits < 2 ^ 32 := by
  cases known : denoted? text with
  | none =>
    rw [ofText_of_none known]
    exact iff_of_true (.inr ⟨_, rfl, .inl rfl⟩) (by nofun)
  | some config =>
    rw [ofText_of_some known]
    simp only [Option.some.injEq, forall_eq']
    rcases validate_cases config with ⟨sound, valid⟩ | ⟨-, fits, -, refused⟩ | ⟨-, fits, -, refused⟩ |
      ⟨-, wide, refused⟩
    · rw [valid]
      exact iff_of_true (.inl ⟨config, rfl, sound⟩) sound.fits
    · rw [refused]
      exact iff_of_true (.inr ⟨_, rfl, .inr rfl⟩) fits
    · rw [refused]
      exact iff_of_true (.inr ⟨_, rfl, .inr rfl⟩) fits
    · rw [refused]
      refine iff_of_false ?_ (Nat.not_lt.2 wide)
      rintro (⟨config, read, -⟩ | ⟨fault, stopped, action⟩)
      · cases read
      · cases stopped
        rcases action with malformed | invalid
        · cases malformed
        · cases invalid

/-- A configuration is accepted exactly if it is sound. Any other one is refused as invalid, unless the sum of its
widths exceeds a 32-bit number: then the check breaks off. So the reading of a text ends with a sound configuration or
an error exactly if the text does not stand for a configuration with such widths. -/
theorem validate_decides_iff (config : Config) :
    (config.validate = .ok () ↔ config.Sound) ∧
    ((∃ fault, config.validate = .error fault ∧ fault.kind = .invalidConfig) ↔
      ¬ config.Sound ∧ config.totalBits < 2 ^ 32) ∧
    (config.validate = .error .overflow ↔ 2 ^ 32 ≤ config.totalBits) ∧
    (config.Decides config.validate ↔ config.totalBits < 2 ^ 32) ∧
    (∀ text read, ofText text = .ok read → read.Sound) ∧
    ∀ text, Ends (ofText text) ↔ ∀ read, denoted? text = some read → read.totalBits < 2 ^ 32 :=
  ⟨validate_eq_ok_iff, exists_invalidConfig_iff, validate_eq_overflow_iff, decides_iff,
    fun _ _ => sound_of_ofText_eq_ok, ends_ofText_iff⟩

/-- The widths may take up the whole limit, and one bit more is refused. -/
theorem validate_decides_iff_limit :
    let widest := { default with bitPrecision := 46, featureWidthBits := 1, strideShift := 1 }
    let wider := { widest with strideShift := 2 }
    widest.totalBits < 2 ^ 32 ∧ widest.Sound ∧ widest.validate = .ok () ∧ ¬ wider.Sound ∧
      wider.totalBits < 2 ^ 32 ∧ ∃ fault, wider.validate = .error fault ∧ fault.kind = .invalidConfig := by
  intro widest wider
  have sound : widest.Sound := by decide
  have unsound : ¬ wider.Sound := by decide
  exact ⟨by decide, sound, (validate_decides_iff widest).1.2 sound, unsound, by decide,
    (validate_decides_iff wider).2.1.2 ⟨unsound, by decide⟩⟩

/-- A sum that is no 32-bit number is not refused: the check breaks off, also when the widths come from a text. -/
theorem validate_overflows :
    let wide := { default with bitPrecision := 4294967295, featureWidthBits := 1 }
    let text := "\x7b\"bit_precision\": 4294967295, \"feature_width_bits\": 1\x7d"
    ¬ wide.Sound ∧ ¬ wide.Decides wide.validate ∧ wide.validate = .error .overflow ∧ denoted? text = some wide ∧
      ¬ Ends (ofText text) := by
  intro wide text
  have overflows : ¬ wide.totalBits < 2 ^ 32 := by decide
  have denoted : denoted? text = some wide := by decide +kernel
  exact ⟨by decide, mt decides_iff.1 overflows, validate_of_le (Nat.not_lt.1 overflows), denoted,
    fun ends => overflows ((ends_ofText_iff text).1 ends wide denoted)⟩

end HashedFeatures.Config
