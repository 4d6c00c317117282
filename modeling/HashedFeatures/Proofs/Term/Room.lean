import HashedFeatures.Term.Room
import Mathlib.Algebra.Group.Nat.Defs

/-! Selections are all kept, or there are too many of them.

A shelf without room grows by doubling. The room is doubled as long as it is below the largest one, which cannot be
doubled.
-/

set_option autoImplicit false

namespace HashedFeatures.Choice

variable {α : Type}

theorem roomLimit_eq : roomLimit = 2 ^ 58 := rfl

theorem Footprint.allocate_of_fits {entry : Footprint} {count : Nat} (fits : entry.Fits count) :
    entry.allocate count = .ok () := if_pos fits

theorem Footprint.allocate_of_not_fits {entry : Footprint} {count : Nat} (large : ¬ entry.Fits count) :
    entry.allocate count = .error .unaddressable := if_neg large

theorem Footprint.fits_iff {entry : Footprint} {count : Nat} :
    entry.Fits count ↔ count * entry.bytes + entry.alignment ≤ 2 ^ 63 := Iff.rfl

theorem Footprint.word_fits_iff {count : Nat} : word.Fits count ↔ count < 2 ^ 60 := by
  have sum : word.Fits count ↔ count * 8 + 8 ≤ 2 ^ 63 := Iff.rfl
  rw [sum]
  omega

theorem Footprint.vector_fits_iff {count : Nat} : vector.Fits count ↔ count * 24 + 8 ≤ 2 ^ 63 := Iff.rfl

theorem Footprint.vector_fits_of_le {count : Nat} (small : count ≤ roomLimit) : vector.Fits count := by
  rw [roomLimit_eq] at small
  rw [vector_fits_iff]
  omega

/-! ## Growing -/

/-- The rooms of a shelf that had none at the start. -/
def Grown (room : Nat) : Prop := room = 0 ∨ ∃ doublings ≤ 56, room = 4 * 2 ^ doublings

theorem Grown.le_roomLimit {room : Nat} (grown : Grown room) : room ≤ roomLimit := by
  rw [roomLimit_eq]
  obtain rfl | ⟨doublings, few, rfl⟩ := grown
  · exact Nat.zero_le _
  · have bound : 2 ^ doublings ≤ 2 ^ 56 := Nat.pow_le_pow_right Nat.two_pos few
    omega

theorem Grown.doubled {room : Nat} (grown : Grown room) (below : room < roomLimit) : Grown (max (2 * room) 4) := by
  rw [roomLimit_eq] at below
  obtain rfl | ⟨doublings, few, rfl⟩ := grown
  · exact .inr ⟨0, Nat.zero_le _, rfl⟩
  · have positive : 0 < 2 ^ doublings := Nat.two_pow_pos doublings
    have least : doublings ≠ 56 := by
      rintro rfl
      omega
    refine .inr ⟨doublings + 1, by omega, ?_⟩
    rw [Nat.pow_succ]
    omega

theorem Shelf.push_of_lt {shelf : Shelf α} (free : shelf.made.length < shelf.room) (selection : List α) :
    shelf.push selection = .ok ⟨shelf.room, shelf.made ++ [selection]⟩ := if_pos free

/-- Up to the largest room there is room for one selection more. -/
theorem Shelf.push_grown {shelf : Shelf α} (grown : Grown shelf.room) (within : shelf.made.length ≤ shelf.room)
    (selection : List α) :
    if shelf.made.length < roomLimit then
      ∃ room, Grown room ∧ shelf.made.length < room ∧ shelf.push selection = .ok ⟨room, shelf.made ++ [selection]⟩
    else shelf.push selection = .error .unaddressable := by
  have limit := grown.le_roomLimit
  by_cases free : shelf.made.length < shelf.room
  · rw [if_pos (by omega)]
    exact ⟨shelf.room, grown, free, push_of_lt free selection⟩
  have full : shelf.made.length = shelf.room := by omega
  have next : max (max (2 * shelf.room) (shelf.made.length + 1)) 4 = max (2 * shelf.room) 4 := by omega
  unfold push
  rw [if_neg free, next, full]
  dsimp only
  split
  case isTrue below =>
    have doubled := grown.doubled below
    refine ⟨_, doubled, by omega, ?_⟩
    rw [Footprint.allocate_of_fits (Footprint.vector_fits_of_le doubled.le_roomLimit)]
    rfl
  case isFalse above =>
    have large : ¬ Footprint.vector.Fits (max (2 * shelf.room) 4) := by
      rw [roomLimit_eq] at above
      rw [Footprint.vector_fits_iff]
      omega
    rw [Footprint.allocate_of_not_fits large]
    rfl

/-! ## All selections -/

theorem pushAll_of_room {shelf : Shelf α} {selections : List (List α)}
    (room : shelf.made.length + selections.length ≤ shelf.room) :
    selections.foldlM Shelf.push shelf = .ok ⟨shelf.room, shelf.made ++ selections⟩ := by
  induction selections generalizing shelf with
  | nil => rw [List.append_nil]; rfl
  | cons selection selections ih =>
    rw [List.length_cons] at room
    rw [List.foldlM_cons, Shelf.push_of_lt (by omega)]
    refine (ih ?_).trans ?_
    · dsimp only
      rw [List.length_append, List.length_singleton]
      omega
    · rw [List.append_assoc, List.singleton_append]

/-- A shelf that grows keeps all selections up to the largest room. -/
theorem pushAll_grown {shelf : Shelf α} (grown : Grown shelf.room) (within : shelf.made.length ≤ shelf.room)
    (selections : List (List α)) :
    (selections.foldlM Shelf.push shelf).map Shelf.made =
      if shelf.made.length + selections.length ≤ roomLimit then .ok (shelf.made ++ selections)
      else .error .unaddressable := by
  induction selections generalizing shelf with
  | nil =>
    have small : shelf.made.length ≤ roomLimit := Nat.le_trans within grown.le_roomLimit
    rw [List.length_nil, Nat.add_zero, if_pos small, List.append_nil]
    rfl
  | cons selection selections ih =>
    have pushed := shelf.push_grown grown within selection
    rw [List.foldlM_cons, List.length_cons]
    split at pushed
    case isTrue =>
      obtain ⟨room, larger, more, push⟩ := pushed
      have rest := @ih ⟨room, shelf.made ++ [selection]⟩ larger (by simpa [Nat.succ_le_iff] using more)
      rw [push]
      refine rest.trans ?_
      simp only [List.length_append, List.length_singleton, List.append_assoc, List.singleton_append, Nat.add_assoc,
        Nat.add_comm 1]
    case isFalse full =>
      rw [pushed, if_neg (by omega)]
      rfl

theorem map_made_pushAll {reserved : Nat} {selections : List (List α)}
    (known : reserved ≠ 0 → reserved = selections.length ∧ reserved ≤ roomLimit) :
    (selections.foldlM Shelf.push ⟨reserved, []⟩).map Shelf.made = shelved selections := by
  unfold shelved
  by_cases some : reserved = 0
  · subst some
    have grown := pushAll_grown (show Grown (Shelf.mk 0 ([] : List (List α))).room from .inl rfl) (Nat.zero_le _) selections
    rw [grown, List.length_nil, Nat.zero_add, List.nil_append]
  · obtain ⟨same, small⟩ := known some
    rw [pushAll_of_room (by simp [same]), if_pos (by omega)]
    rfl

end HashedFeatures.Choice
