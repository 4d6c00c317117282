import HashedFeatures.Hash.Murmur
import Mathlib.Data.Nat.ModEq
import Mathlib.Data.Nat.Prime.Basic

/-! Steps that mix a 32-bit word without losing any of it.

An odd factor is coprime to the number of words. A rotation only moves bits, and a word shifted over
itself can be read back from its highest bit on.
-/

set_option autoImplicit false

namespace HashedFeatures.Hash

theorem mul_injective {factor : UInt32} (odd : Odd factor.toNat) :
    Function.Injective fun word : UInt32 => word * factor := by
  intro left right same
  have coprime : Nat.gcd (2 ^ 32) factor.toNat = 1 := (Nat.coprime_two_left.2 odd).pow_left 32
  have products : left.toNat * factor.toNat ≡ right.toNat * factor.toNat [MOD 2 ^ 32] := by
    have values := congrArg UInt32.toNat same
    rwa [UInt32.toNat_mul, UInt32.toNat_mul] at values
  have words := Nat.ModEq.cancel_right_of_coprime coprime products
  exact UInt32.toNat_inj.1 (words.eq_of_lt_of_lt left.toNat_lt right.toNat_lt)

-- A shift to the right makes every word smaller but zero.
theorem eq_zero_of_shiftRight_eq {word amount : UInt32} (moves : 0 < amount.toNat % 32)
    (kept : word >>> amount = word) : word = 0 := by
  have value := congrArg UInt32.toNat kept
  rw [UInt32.toNat_shiftRight, Nat.shiftRight_eq_div_pow] at value
  apply UInt32.toNat_inj.1
  by_contra nonzero
  have smaller : word.toNat / 2 ^ (amount.toNat % 32) < word.toNat :=
    Nat.div_lt_self (Nat.pos_of_ne_zero nonzero) (Nat.one_lt_two_pow moves.ne')
  omega

theorem xorShift_injective {amount : UInt32} (moves : 0 < amount.toNat % 32) :
    Function.Injective fun word : UInt32 => word ^^^ (word >>> amount) := by
  intro left right same
  -- The difference of two words is mixed as the words are, so it is a word that mixes to zero.
  have kept : (left ^^^ right) >>> amount = left ^^^ right := by
    have cancelled : (left ^^^ (left >>> amount)) ^^^ (right ^^^ (right >>> amount)) = 0 :=
      UInt32.xor_eq_zero_iff.2 same
    rw [UInt32.shiftRight_xor, ← UInt32.xor_eq_zero_iff, ← cancelled]
    ac_rfl
  exact UInt32.xor_eq_zero_iff.1 (eq_zero_of_shiftRight_eq moves kept)

namespace Murmur

theorem two_pow_split {amount : Nat} (inside : amount ≤ 32) : 2 ^ 32 = 2 ^ (32 - amount) * 2 ^ amount := by
  rw [← Nat.pow_add, Nat.sub_add_cancel inside]

theorem toNat_div_lt {amount : Nat} (inside : amount ≤ 32) (word : UInt32) :
    word.toNat / 2 ^ (32 - amount) < 2 ^ amount :=
  Nat.div_lt_of_lt_mul (two_pow_split inside ▸ word.toNat_lt)

theorem toNat_rotateLeft {amount : UInt32} (inside : amount.toNat < 32) (moves : 0 < amount.toNat) (word : UInt32) :
    (rotateLeft word amount).toNat =
      2 ^ amount.toNat * (word.toNat % 2 ^ (32 - amount.toNat)) + word.toNat / 2 ^ (32 - amount.toNat) := by
  have down : (32 - amount).toNat % 32 = 32 - amount.toNat := by
    rw [UInt32.toNat_sub_of_le _ _ (UInt32.le_iff_toNat_le.2 inside.le)]
    exact Nat.mod_eq_of_lt (Nat.sub_lt (by decide) moves)
  have high : word.toNat <<< amount.toNat % 2 ^ 32 =
      2 ^ amount.toNat * (word.toNat % 2 ^ (32 - amount.toNat)) := by
    rw [Nat.shiftLeft_eq, two_pow_split inside.le, Nat.mul_mod_mul_right, Nat.mul_comm]
  rw [Nat.two_pow_add_eq_or_of_lt (toNat_div_lt inside.le word), ← high, rotateLeft, UInt32.toNat_or,
    UInt32.toNat_shiftLeft, UInt32.toNat_shiftRight, Nat.mod_eq_of_lt inside, down, Nat.shiftRight_eq_div_pow]

theorem rotateLeft_injective {amount : UInt32} (inside : amount.toNat < 32) (moves : 0 < amount.toNat) :
    Function.Injective fun word => rotateLeft word amount := by
  intro left right same
  have values := congrArg UInt32.toNat same
  simp only [toNat_rotateLeft inside moves] at values
  have upper := congrArg (· / 2 ^ amount.toNat) values
  have lower := congrArg (· % 2 ^ amount.toNat) values
  simp only [Nat.mul_add_div (Nat.two_pow_pos _), Nat.div_eq_of_lt (toNat_div_lt inside.le _), Nat.add_zero] at upper
  simp only [Nat.mul_add_mod, Nat.mod_eq_of_lt (toNat_div_lt inside.le _)] at lower
  apply UInt32.toNat_inj.1
  rw [← Nat.div_add_mod left.toNat (2 ^ (32 - amount.toNat)), upper, lower, Nat.div_add_mod]

theorem toNat_word (a b c d : UInt8) :
    (word a b c d).toNat = 2 ^ 24 * d.toNat + (2 ^ 16 * c.toNat + (2 ^ 8 * b.toNat + a.toNat)) := by
  have raised : ∀ (byte : UInt8) (amount : UInt32), amount.toNat ≤ 24 →
      (byte.toUInt32 <<< amount).toNat = 2 ^ amount.toNat * byte.toNat := by
    intro byte amount inside
    have room : byte.toNat * 2 ^ amount.toNat < 2 ^ 32 :=
      Nat.lt_of_lt_of_le (Nat.mul_lt_mul_of_pos_right byte.toNat_lt (Nat.two_pow_pos _))
        (Nat.mul_le_mul_left (2 ^ 8) (Nat.pow_le_pow_right (by decide) inside))
    rw [UInt32.toNat_shiftLeft, UInt8.toNat_toUInt32, Nat.mod_eq_of_lt (show amount.toNat < 32 by omega),
      Nat.shiftLeft_eq, Nat.mod_eq_of_lt room, Nat.mul_comm]
  have := a.toNat_lt
  have := b.toNat_lt
  have := c.toNat_lt
  rw [Nat.two_pow_add_eq_or_of_lt (by omega), Nat.two_pow_add_eq_or_of_lt (by omega),
    Nat.two_pow_add_eq_or_of_lt (by omega), word, UInt32.toNat_or, UInt32.toNat_or, UInt32.toNat_or,
    UInt8.toNat_toUInt32, raised b 8 (by decide), raised c 16 (by decide), raised d 24 (by decide)]
  simp only [UInt32.reduceToNat]
  ac_rfl

theorem word_inj {a b c d a' b' c' d' : UInt8} (same : word a b c d = word a' b' c' d') :
    [a, b, c, d] = [a', b', c', d'] := by
  have values := congrArg UInt32.toNat same
  rw [toNat_word, toNat_word] at values
  have := a.toNat_lt
  have := b.toNat_lt
  have := c.toNat_lt
  have := a'.toNat_lt
  have := b'.toNat_lt
  have := c'.toNat_lt
  simp only [List.cons.injEq, ← UInt8.toNat_inj, and_true]
  omega

end Murmur

end HashedFeatures.Hash
