import HashedFeatures.Expansion.Event
import HashedFeatures.Proofs.Hash.Mixing
import Mathlib.Data.List.Basic

/-! The running hash of several words tells apart lists that differ at one place.

Taking in a word is injective in the state and in the word, so a difference comes into the state where the
lists differ, and every later word keeps it.
-/

set_option autoImplicit false

namespace HashedFeatures

/-! ## Lists that differ at one place -/

/-- Two lists of one length that differ at exactly one place. -/
def Neighbours {α : Type} (left right : List α) : Prop :=
  left.length = right.length ∧ ∃! place : Nat, left[place]? ≠ right[place]?

theorem Neighbours.exists_split {α : Type} {left right : List α} (close : Neighbours left right) :
    ∃ front a b back, left = front ++ a :: back ∧ right = front ++ b :: back ∧ a ≠ b := by
  obtain ⟨length, place, differs, only⟩ := close
  have same : ∀ other, other ≠ place → left[other]? = right[other]? :=
    fun other apart => by_contra fun differs => apart (only other differs)
  have inside : place < left.length := by
    by_contra outside
    exact differs (by rw [List.getElem?_eq_none (by omega), List.getElem?_eq_none (by omega)])
  have inside' : place < right.length := length ▸ inside
  have front : left.take place = right.take place := by
    refine List.ext_getElem? fun other => ?_
    rw [List.getElem?_take, List.getElem?_take]
    by_cases before : other < place
    · rw [same other (by omega)]
    · rw [if_neg before, if_neg before]
  have back : left.drop (place + 1) = right.drop (place + 1) := by
    refine List.ext_getElem? fun other => ?_
    rw [List.getElem?_drop, List.getElem?_drop, same _ (by omega)]
  refine ⟨left.take place, left[place], right[place], left.drop (place + 1), ?_, ?_, fun equal => ?_⟩
  · rw [List.getElem_cons_drop, List.take_append_drop]
  · rw [front, back, List.getElem_cons_drop, List.take_append_drop]
  · exact differs (by rw [List.getElem?_eq_getElem inside, List.getElem?_eq_getElem inside', equal])

theorem neighbours_append {α : Type} (front : List α) {a b : α} (apart : a ≠ b) (back : List α) :
    Neighbours (front ++ a :: back) (front ++ b :: back) := by
  refine ⟨by simp, front.length, by simpa using apart, fun place differs => ?_⟩
  by_contra other
  rcases Nat.lt_or_gt_of_ne other with before | behind
  · exact differs (by rw [List.getElem?_append_left before, List.getElem?_append_left before])
  · obtain ⟨more, distance⟩ : ∃ more, place - front.length = more + 1 := ⟨place - front.length - 1, by omega⟩
    refine differs ?_
    rw [List.getElem?_append_right (by omega), List.getElem?_append_right (by omega), distance,
      List.getElem?_cons_succ, List.getElem?_cons_succ]

namespace Hash.Fold

/-! ## Taking in words -/

theorem push_injective (word : UInt32) : Function.Injective fun fold : Fold => fold.push word := by
  have multiplied : Function.Injective fun state : UInt32 => state * 16777619 := mul_injective (by decide)
  intro left right same
  have states : left.state = right.state := multiplied ((UInt32.xor_left_inj word).1 (congrArg state same))
  exact congrArg Fold.mk states

theorem push_inj_right {fold : Fold} {word other : UInt32} (same : fold.push word = fold.push other) : word = other :=
  (UInt32.xor_right_inj _).1 (congrArg state same)

theorem foldl_push_injective (words : List UInt32) : Function.Injective fun fold : Fold => words.foldl push fold := by
  induction words with
  | nil => exact fun _ _ same => same
  | cons word words ih => exact ih.comp (push_injective word)

theorem ofWords_ne {words others : List UInt32} (close : Neighbours words others) : ofWords words ≠ ofWords others := by
  obtain ⟨front, a, b, back, rfl, rfl, apart⟩ := close.exists_split
  intro same
  rw [ofWords, ofWords, List.foldl_append, List.foldl_append, List.foldl_cons, List.foldl_cons] at same
  exact apart (push_inj_right (foldl_push_injective back same))

theorem foldl_pushIndex (indices : List UInt64) :
    indices.foldl pushIndex start = ofWords (indices.map UInt64.toUInt32) := by
  rw [ofWords, List.foldl_map]
  rfl

/-! ## Cutting the state -/

theorem truncated_lt (fold : Fold) (bits : UInt32) : (fold.truncated bits).toNat < 2 ^ min bits.toNat 32 := by
  unfold truncated
  split
  case isTrue wide =>
    have most : 32 ≤ bits.toNat := UInt32.le_iff_toNat_le.1 wide
    rw [Nat.min_eq_right most]
    exact fold.state.toNat_lt
  case isFalse narrow =>
    have inside : bits.toNat < 32 := Nat.lt_of_not_le fun wide => narrow (UInt32.le_iff_toNat_le.2 wide)
    have below : 2 ^ bits.toNat < 2 ^ 32 := Nat.pow_lt_pow_right (by decide) inside
    have positive : 0 < 2 ^ bits.toNat := Nat.two_pow_pos _
    have power : ((1 : UInt32) <<< bits).toNat = 2 ^ bits.toNat := by
      rw [UInt32.toNat_shiftLeft, Nat.mod_eq_of_lt inside, UInt32.toNat_one, Nat.one_shiftLeft, Nat.mod_eq_of_lt below]
    have mask : ((1 : UInt32) <<< bits - 1).toNat = 2 ^ bits.toNat - 1 := by
      rw [UInt32.toNat_sub_of_le _ _ (UInt32.le_iff_toNat_le.2 (power ▸ positive)), power, UInt32.toNat_one]
    rw [Nat.min_eq_left inside.le, UInt32.toNat_and, mask]
    exact Nat.and_lt_two_pow _ (Nat.sub_lt positive (by decide))

theorem truncated_of_le (fold : Fold) {bits : UInt32} (wide : 32 ≤ bits) : fold.truncated bits = fold.state :=
  if_pos wide

end Hash.Fold

end HashedFeatures
