import HashedFeatures.Hash.Name
import HashedFeatures.Proofs.Hash.Mixing
import Mathlib.Data.FinEnum

/-! The murmur hash loses neither its seed nor any single word of its data.

Every step is a bijection of the running word, and injective in the bytes that it takes in. So no seed
is confused with another one, and no difference inside one block of four bytes is lost on the way
through the blocks behind it.
-/

set_option autoImplicit false

namespace HashedFeatures.Hash

namespace Murmur

/-! ## One step -/

theorem scramble_injective : Function.Injective scramble := by
  have multiplied : Function.Injective fun word : UInt32 => word * 0xcc9e2d51 := mul_injective (by decide)
  have rotated : Function.Injective fun word => rotateLeft word 15 := rotateLeft_injective (by decide) (by decide)
  have again : Function.Injective fun word : UInt32 => word * 0x1b873593 := mul_injective (by decide)
  exact again.comp (rotated.comp multiplied)

theorem stir_injective : Function.Injective fun word => rotateLeft word 13 * 5 + 0xe6546b64 := by
  have rotated : Function.Injective fun word => rotateLeft word 13 := rotateLeft_injective (by decide) (by decide)
  have multiplied : Function.Injective fun word : UInt32 => word * 5 := mul_injective (by decide)
  have moved : Function.Injective fun word : UInt32 => word + 0xe6546b64 :=
    fun _ _ same => (UInt32.add_left_inj _).1 same
  exact moved.comp (multiplied.comp rotated)

theorem mixWord_injective (k : UInt32) : Function.Injective fun h => mixWord h k := by
  intro left right same
  exact (UInt32.xor_left_inj _).1 (stir_injective same)

theorem mixWord_inj_right {h k k' : UInt32} (same : mixWord h k = mixWord h k') : k = k' :=
  scramble_injective ((UInt32.xor_right_inj _).1 (stir_injective same))

theorem finish_injective : Function.Injective finish := by
  have first : Function.Injective fun word : UInt32 => word ^^^ (word >>> 16) := xorShift_injective (by decide)
  have second : Function.Injective fun word : UInt32 => word ^^^ (word >>> 13) := xorShift_injective (by decide)
  have multiplied : Function.Injective fun word : UInt32 => word * 0x85ebca6b := mul_injective (by decide)
  have again : Function.Injective fun word : UInt32 => word * 0xc2b2ae35 := mul_injective (by decide)
  exact first.comp (again.comp (second.comp (multiplied.comp first)))

/-! ## All steps -/

-- Unfolded once: a check of the two sides would compare the running words in front first.
theorem absorb_cons (h : UInt32) (a b c d : UInt8) (rest : List UInt8) :
    absorb h (a :: b :: c :: d :: rest) = absorb (mixWord h (word a b c d)) rest := by
  rw [absorb.eq_def]

theorem absorb_injective : (data : List UInt8) → Function.Injective fun h => absorb h data
  | a :: b :: c :: d :: rest => (absorb_injective rest).comp (mixWord_injective (word a b c d))
  | [_, _, _] | [_, _] | [_] => fun _ _ same => (UInt32.xor_left_inj _).1 same
  | [] => fun _ _ same => same

/-- The places at which two lists differ lie in one block of four, counted from the front; the block at
the end may be shorter. -/
def InOneBlock (data other : List UInt8) : Prop :=
  ∃ block, ∀ place < data.length, data[place]? ≠ other[place]? → place / 4 = block

-- Either the first block has all differences, or it has none and the rest has them in one block.
theorem InOneBlock.behind {a b c d a' b' c' d' : UInt8} {rest rest' : List UInt8}
    (length : rest.length = rest'.length)
    (close : InOneBlock (a :: b :: c :: d :: rest) (a' :: b' :: c' :: d' :: rest')) :
    rest = rest' ∨ [a, b, c, d] = [a', b', c', d'] ∧ InOneBlock rest rest' := by
  obtain ⟨block, inside⟩ := close
  have later : ∀ place < rest.length, rest[place]? ≠ rest'[place]? → place / 4 + 1 = block := by
    intro place bound differs
    have moved := inside (place + 4) (by simpa using bound) (by simpa using differs)
    omega
  cases block with
  | zero =>
    left
    refine List.ext_getElem?' fun place bound => ?_
    by_contra differs
    exact absurd (later place (by omega) differs) (Nat.succ_ne_zero _)
  | succ block =>
    right
    have first : ∀ place < 4, (a :: b :: c :: d :: rest)[place]? = (a' :: b' :: c' :: d' :: rest')[place]? := by
      intro place small
      by_contra differs
      have here := inside place (by simp only [List.length_cons]; omega) differs
      omega
    obtain rfl : a = a' := Option.some.inj (first 0 (by decide))
    obtain rfl : b = b' := Option.some.inj (first 1 (by decide))
    obtain rfl : c = c' := Option.some.inj (first 2 (by decide))
    obtain rfl : d = d' := Option.some.inj (first 3 (by decide))
    exact ⟨rfl, block, fun place bound differs => Nat.succ_injective (later place bound differs)⟩

theorem exists_block {length : Nat} {data : List UInt8} (full : data.length = length + 4) :
    ∃ a b c d rest, data = a :: b :: c :: d :: rest ∧ rest.length = length := by
  match data, full with
  | a :: b :: c :: d :: rest, full => exact ⟨a, b, c, d, rest, rfl, by simpa using full⟩

/-- A difference inside one block is taken into the running word, and stays there. -/
theorem absorb_inj_block {data other : List UInt8} (length : data.length = other.length)
    (close : InOneBlock data other) {h : UInt32} (same : absorb h data = absorb h other) : data = other := by
  fun_induction absorb h data generalizing other with
  | case1 h a b c d rest ih =>
    obtain ⟨a', b', c', d', rest', rfl, lengthRest⟩ := exists_block length.symm
    rw [absorb_cons] at same
    rcases close.behind lengthRest.symm with rfl | ⟨first, closeRest⟩
    · have mixed : mixWord h (word a b c d) = mixWord h (word a' b' c' d') := absorb_injective rest same
      simpa using word_inj (mixWord_inj_right mixed)
    · simp only [List.cons.injEq, and_true] at first
      obtain ⟨rfl, rfl, rfl, rfl⟩ := first
      rw [ih lengthRest.symm closeRest same]
  | case2 h a b c =>
    obtain ⟨a', b', c', rfl⟩ := List.length_eq_three.1 length.symm
    simpa using word_inj (scramble_injective ((UInt32.xor_right_inj _).1 same))
  | case3 h a b =>
    obtain ⟨a', b', rfl⟩ := List.length_eq_two.1 length.symm
    simpa using word_inj (scramble_injective ((UInt32.xor_right_inj _).1 same))
  | case4 h a =>
    obtain ⟨a', rfl⟩ := List.length_eq_one_iff.1 length.symm
    simpa using word_inj (scramble_injective ((UInt32.xor_right_inj _).1 same))
  | case5 h => exact (List.length_eq_zero_iff.1 length.symm).symm

theorem hash_injective (data : List UInt8) : Function.Injective (hash data) := by
  intro seed seed' same
  exact absorb_injective data ((UInt32.xor_left_inj _).1 (finish_injective same))

theorem hash_inj_block {data other : List UInt8} (length : data.length = other.length)
    (close : InOneBlock data other) {seed : UInt32} (same : hash data seed = hash other seed) : data = other := by
  rw [hash, hash, length] at same
  exact absorb_inj_block length close ((UInt32.xor_left_inj _).1 (finish_injective same))

end Murmur

/-! ## Names -/

theorem uniform_inj {data : List UInt8} {seed seed' : UInt64} :
    uniform data seed = uniform data seed' ↔ seed.toUInt32 = seed'.toUInt32 := by
  rw [uniform, uniform, UInt32.toUInt64_inj]
  exact (Murmur.hash_injective data).eq_iff

theorem toUInt64_toUInt32_feature (name : String) (ns : UInt64) :
    (feature name ns).toUInt32.toUInt64 = feature name ns := by
  rw [feature, uniform, UInt32.toUInt32_toUInt64]

/-- The seeds are permuted by every data, and a difference inside one block of the data shows in the hash. So a name
has one index for all namespaces whose hashes have one low half, and different indices for any others; and one text is
told apart as the value of different names. -/
theorem murmur_separates :
    (∀ data : List UInt8, Function.Bijective (Murmur.hash data)) ∧
    (∀ (data other : List UInt8) (seed : UInt32), data.length = other.length → Murmur.InOneBlock data other →
      data ≠ other → Murmur.hash data seed ≠ Murmur.hash other seed) ∧
    (∀ (name : String) (ns ns' : UInt64), feature name ns = feature name ns' ↔ ns.toUInt32 = ns'.toUInt32) ∧
    ∀ (name name' value : String) (ns ns' : UInt64),
      chain name value ns = chain name' value ns' ↔ feature name ns = feature name' ns' := by
  refine ⟨fun data => ?_, fun data other seed length close differ same => ?_, fun _ _ _ => uniform_inj,
    fun name name' value ns ns' => ?_⟩
  · exact Finite.injective_iff_bijective.1 (Murmur.hash_injective data)
  · exact differ (Murmur.hash_inj_block length close same)
  · rw [chain, chain, uniform_inj, ← UInt32.toUInt64_inj, toUInt64_toUInt32_feature, toUInt64_toUInt32_feature]

/-- Six bytes whose last two, behind the only full block, are changed around. -/
theorem murmur_separates_rest :
    Murmur.hash [1, 2, 3, 4, 5, 6] 7 ≠ Murmur.hash [1, 2, 3, 4, 6, 5] 7 :=
  murmur_separates.2.1 _ _ 7 rfl ⟨1, by decide⟩ (by decide)

end HashedFeatures.Hash
