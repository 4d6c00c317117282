import HashedFeatures.Proofs.Term.Dial
import Mathlib.Data.Nat.Choose.Bounds

/-! Counted selections.

The numbers of selections that are known before the count are those that the count arrives at. A count ends with all
selections unless its numbers overflow or memory cannot hold its places, a selection, or all of them.
-/

set_option autoImplicit false

namespace HashedFeatures.Choice

variable {α : Type}

theorem wordSize_eq : wordSize = 2 ^ 64 := rfl

/-! ## Numbers -/

theorem factorial_eq (n : Nat) : Choice.factorial n = n.factorial := by
  induction n with
  | zero => rfl
  | succ n ih => rw [Choice.factorial, ih, Nat.factorial_succ]

/-- Twenty is the last number whose factorial fits a word. -/
theorem factorial_lt_wordSize_iff (n : Nat) : n.factorial < wordSize ↔ n ≤ 20 := by
  constructor
  · intro fits
    by_contra above
    have least : Nat.factorial 21 ≤ n.factorial := Nat.factorial_le (by omega)
    exact absurd (least.trans_lt fits) (by decide)
  · intro below
    exact (Nat.factorial_le below).trans_lt (by decide)

theorem factorial?_of_lt {n : Nat} (fits : n.factorial < wordSize) : factorial? n = some n.factorial := by
  rw [factorial?, if_pos ((factorial_lt_wordSize_iff n).1 fits), factorial_eq]

theorem factorial?_of_le {n : Nat} (large : wordSize ≤ n.factorial) : factorial? n = none :=
  if_neg fun below => absurd ((factorial_lt_wordSize_iff n).2 below) (Nat.not_lt.2 large)

theorem combinationCount_zero (k : Nat) : combinationCount 0 k = .ok (some ((k - 1).choose k)) := by
  cases k with
  | zero => rfl
  | succ k => rw [Nat.choose_eq_zero_of_lt (by omega)]; rfl

theorem combinationCount_of_lt {n k : Nat} (fits : n + 1 + k < wordSize) (known : (n + k).factorial < wordSize) :
    combinationCount (n + 1) k = .ok (some ((n + k).choose k)) := by
  have exact : n.factorial * k.factorial ∣ (n + k).factorial := Nat.factorial_mul_factorial_dvd_factorial_add n k
  have product : k.factorial * n.factorial < wordSize := by
    rw [Nat.mul_comm]
    exact (Nat.le_of_dvd (Nat.factorial_pos _) exact).trans_lt known
  have left : k.factorial < wordSize := (Nat.factorial_le (Nat.le_add_left k n)).trans_lt known
  have right : n.factorial < wordSize := (Nat.factorial_le (Nat.le_add_right n k)).trans_lt known
  have top : n + 1 + k - 1 = n + k := by omega
  unfold combinationCount
  rw [if_neg (Nat.succ_ne_zero n), if_neg (Nat.not_le.2 fits), top, Nat.add_sub_cancel, factorial?_of_lt known,
    factorial?_of_lt left, factorial?_of_lt right, Nat.add_choose, Nat.mul_comm n.factorial]
  simp [product]

theorem combinationCount_of_le {n k : Nat} (fits : n + 1 + k < wordSize) (unknown : wordSize ≤ (n + k).factorial) :
    combinationCount (n + 1) k = .ok none := by
  have top : n + 1 + k - 1 = n + k := by omega
  unfold combinationCount
  rw [if_neg (Nat.succ_ne_zero n), if_neg (Nat.not_le.2 fits), top, factorial?_of_le unknown]
  rfl

theorem exists_combinationCount {n k : Nat} (fits : n + k < wordSize) :
    ∃ count, combinationCount n k = .ok count ∧
      ∀ c, count = some c ↔ (n = 0 ∨ (n + k - 1).factorial < wordSize) ∧ c = (n + k - 1).choose k := by
  cases n with
  | zero =>
    refine ⟨_, combinationCount_zero k, fun c => ?_⟩
    rw [Nat.zero_add, Option.some_inj, eq_comm]
    simp
  | succ n =>
    have top : n + 1 + k - 1 = n + k := by omega
    rw [top]
    by_cases known : (n + k).factorial < wordSize
    · refine ⟨_, combinationCount_of_lt fits known, fun c => ?_⟩
      rw [Option.some_inj, eq_comm]
      simp [known]
    · refine ⟨_, combinationCount_of_le fits (Nat.not_lt.1 known), fun c => ?_⟩
      simp [known]

theorem of_permutationCount {n k c : Nat} (known : permutationCount n k = some c) : c = n ^ k := by
  simp only [permutationCount, Option.bind_eq_bind, Option.bind_eq_some_iff] at known
  obtain ⟨-, -, -, -, -, -, known⟩ := known
  exact (Option.some.inj known).symm

/-! ## Whole counts -/

variable {σ : Type} {item : Footprint} {n k places : Nat} {items : List α} {selections : List (List α)}

/-- There is nothing to count, or the numbers fit a word and memory holds the places, a selection and all of them. -/
def Countable (item : Footprint) (n k places total : Nat) : Prop :=
  k = 0 ∨ n = 0 ∨
    n + k < 2 ^ 64 ∧ places < 2 ^ 60 ∧ k * item.bytes + item.alignment ≤ 2 ^ 63 ∧ total ≤ 2 ^ 58

instance (item : Footprint) (n k places total : Nat) : Decidable (Countable item n k places total) := by
  unfold Countable
  infer_instance

theorem shelved_of_countable
    (countable : Countable item n k places selections.length) (few : k = 0 ∨ n = 0 → selections.length ≤ 1) :
    (do addressable item n k places; shelved selections) = .ok selections := by
  unfold Countable at countable
  unfold addressable shelved
  rw [wordSize_eq, roomLimit_eq]
  by_cases none : k = 0 ∨ n = 0
  · have small : selections.length ≤ 2 ^ 58 := (few none).trans (by decide)
    rw [if_pos none, if_pos small]
    rfl
  · obtain ⟨fits, places_fit, selection_fits, small⟩ := (countable.resolve_left (not_or.1 none).1).resolve_left
      (not_or.1 none).2
    rw [if_neg none, if_neg (Nat.not_le.2 fits), Footprint.allocate_of_fits (Footprint.word_fits_iff.2 places_fit),
      Footprint.allocate_of_fits (Footprint.fits_iff.2 selection_fits), if_pos small]
    rfl

theorem shelved_of_not_countable (beyond : ¬ Countable item n k places selections.length) :
    (do addressable item n k places; shelved selections) =
      .error (if 2 ^ 64 ≤ n + k then .overflow else .unaddressable) := by
  simp only [Countable, not_or] at beyond
  obtain ⟨some, present, beyond⟩ := beyond
  unfold addressable shelved Footprint.allocate
  rw [if_neg (not_or.2 ⟨some, present⟩), wordSize_eq, roomLimit_eq]
  by_cases wide : 2 ^ 64 ≤ n + k
  · rw [if_pos wide, if_pos wide]
    rfl
  -- The first of three checks that fails stops the count, and one of them does.
  rw [if_neg wide, if_neg wide]
  split
  case isFalse => rfl
  case isTrue places_fit =>
    split
    case isFalse => rfl
    case isTrue selection_fits =>
      refine if_neg fun small => beyond ⟨Nat.not_le.1 wide, ?_, selection_fits, small⟩
      exact Footprint.word_fits_iff.1 places_fit

/-- If room is reserved at all, it is as much as a number that was right says. -/
theorem exists_reservation {count : Option Nat} {total : Nat} (fits : n + k < wordSize)
    (right : ∀ c, count = some c → c = total) (small : n + k ≤ 21 → total ≤ roomLimit) :
    ∃ reserved, reservation count n k = .ok reserved ∧ (reserved ≠ 0 → reserved = total ∧ reserved ≤ roomLimit) := by
  refine ⟨_, if_neg (Nat.not_le.2 fits), fun some => ?_⟩
  split at some
  case isTrue => exact absurd rfl some
  case isFalse few =>
    rw [if_neg few]
    cases count with
    | none => exact absurd rfl some
    | some c =>
      obtain rfl : c = total := right c rfl
      exact ⟨rfl, small (Nat.not_lt.1 few)⟩

theorem pow_le_roomLimit (few : n + k ≤ 21) : n ^ k ≤ roomLimit := by
  have all : ∀ n < 22, ∀ k < 22, n + k ≤ 21 → n ^ k ≤ roomLimit := by decide
  exact all n (by omega) k (by omega) few

theorem prepare_of_le {reserved : Nat} (small : reserved ≤ roomLimit) :
    prepare places (.ok reserved) = (Footprint.word.allocate places).map fun _ => reserved := by
  unfold prepare
  rw [bind_of_ok rfl, bind_of_ok (Footprint.allocate_of_fits (Footprint.vector_fits_of_le small))]
  cases Footprint.word.allocate places <;> rfl

variable {turn : σ → Except Fault (Turned α σ)} {start : σ} {room : Except Fault Nat}

theorem count_of_error {fault : Fault} (positive : k ≠ 0) (present : n ≠ 0) :
    count turn start n k places (.error fault) = some (.error fault) := by
  rw [count, if_neg positive, if_neg present]
  rfl

/-- With its room, a count ends with the selections that its counter yields, if memory holds them. -/
theorem count_of_ok {reserved : Nat} (positive : k ≠ 0) (present : n ≠ 0)
    (known : reserved ≠ 0 → reserved = selections.length ∧ reserved ≤ roomLimit)
    (stuck : ∀ fault, item.allocate k = .error fault → turn start = .error fault)
    (ends : item.allocate k = .ok () → Yields turn start selections) :
    count turn start n k places (.ok reserved) =
      some ((do Footprint.word.allocate places; item.allocate k; shelved selections).map (Counted.mk reserved)) := by
  have small : reserved ≤ roomLimit := by
    by_cases some : reserved = 0
    · omega
    · exact (known some).2
  rw [count, if_neg positive, if_neg present, prepare_of_le small]
  cases Footprint.word.allocate places with
  | error fault => rfl
  | ok =>
    have turned : (Progress.mk start ⟨reserved, []⟩).turnAll turn =
        some (do item.allocate k; shelved selections) := by
      cases kept : item.allocate k with
      | error fault => rw [Progress.turnAll, stuck fault kept]; rfl
      | ok => rw [(ends kept).turnAll_eq, map_made_pushAll known]; rfl
    simp only [Except.map, turned]
    rfl

theorem exists_count_eq (nothing : k = 0 → selections = [[]]) (empty : k ≠ 0 → n = 0 → selections = [])
    (wide : n ≠ 0 → wordSize ≤ n + k → room = .error .overflow)
    (ready : n + k < wordSize →
      ∃ reserved, room = .ok reserved ∧ (reserved ≠ 0 → reserved = selections.length ∧ reserved ≤ roomLimit))
    (stuck : ∀ fault, k ≠ 0 → n ≠ 0 → n + k < wordSize → item.allocate k = .error fault → turn start = .error fault)
    (ends : k ≠ 0 → n ≠ 0 → n + k < wordSize → item.allocate k = .ok () → Yields turn start selections) :
    ∃ reserved, count turn start n k places room =
        some ((do addressable item n k places; shelved selections).map (Counted.mk reserved)) ∧
      (reserved ≠ 0 → reserved = selections.length) := by
  by_cases none : k = 0
  · refine ⟨0, ?_, fun some => absurd rfl some⟩
    rw [count, addressable, if_pos none, if_pos (.inl none), nothing none]
    rfl
  by_cases gone : n = 0
  · refine ⟨0, ?_, fun some => absurd rfl some⟩
    rw [count, addressable, if_neg none, if_pos gone, if_pos (.inr gone), empty none gone]
    rfl
  rw [addressable, if_neg (not_or.2 ⟨none, gone⟩)]
  by_cases fits : n + k < wordSize
  · obtain ⟨reserved, rfl, known⟩ := ready fits
    refine ⟨reserved, ?_, fun some => (known some).1⟩
    rw [count_of_ok none gone known (fun fault => stuck fault none gone fits) (ends none gone fits),
      if_neg (Nat.not_le.2 fits), bind_assoc]
  · have beyond := Nat.not_lt.1 fits
    refine ⟨0, ?_, fun some => absurd rfl some⟩
    rw [wide gone beyond, count_of_error none gone, if_pos beyond]
    rfl

theorem combinations_nil (positive : k ≠ 0) : combinations k ([] : List α) = [] := by
  obtain ⟨more, rfl⟩ := Nat.exists_eq_succ_of_ne_zero positive
  rfl

theorem permutations_nil (positive : k ≠ 0) : permutations k ([] : List α) = [] := by
  obtain ⟨more, rfl⟩ := Nat.exists_eq_succ_of_ne_zero positive
  rfl

theorem countCombinations_eq (item : Footprint) (k : Nat) (items : List α) :
    ∃ reserved, countCombinations item k items = some ((combinationsOf? item k items).map (Counted.mk reserved)) ∧
      (reserved ≠ 0 → reserved = (combinations k items).length) := by
  unfold countCombinations combinationsOf?
  refine exists_count_eq ?_ ?_ ?_ ?_ ?_ ?_
  · rintro rfl
    rfl
  · intro positive empty
    rw [List.length_eq_zero_iff.1 empty, combinations_nil positive]
  · intro present wide
    rw [combinationCount, if_neg present, if_pos wide]
    rfl
  · intro fits
    obtain ⟨number, counted, known⟩ := exists_combinationCount fits
    rw [bind_of_ok counted, length_combinations]
    refine exists_reservation fits (fun c same => ((known c).1 same).2) fun few => ?_
    calc (items.length + k - 1).choose k
        ≤ 2 ^ (items.length + k - 1) := Nat.choose_le_two_pow _ _
      _ ≤ 2 ^ 58 := Nat.pow_le_pow_right Nat.two_pos (by omega)
  · intro fault some present fits kept
    rw [turnCounter_start (by simpa using present) some (by omega), kept]
    rfl
  · intro some present fits kept
    exact yields_counter (by simpa using present) some (by omega) kept

theorem countPermutations_eq (item : Footprint) (k : Nat) (items : List α) :
    ∃ reserved, countPermutations item k items = some ((permutationsOf? item k items).map (Counted.mk reserved)) ∧
      (reserved ≠ 0 → reserved = (permutations k items).length) := by
  unfold countPermutations permutationsOf?
  refine exists_count_eq ?_ ?_ ?_ ?_ ?_ ?_
  · rintro rfl
    rfl
  · intro positive empty
    rw [List.length_eq_zero_iff.1 empty, permutations_nil positive]
  · exact fun _ wide => if_pos wide
  · intro fits
    rw [length_permutations]
    exact exists_reservation fits (fun c => of_permutationCount) pow_le_roomLimit
  · intro fault some present fits kept
    rw [turnDial_start item (by simpa using present) some (by omega), kept]
    rfl
  · intro some present fits kept
    exact yields_dial (by simpa using present) some (by omega) kept

theorem countCombinations_of_not_countable
    (beyond : ¬ Countable item items.length k (k + 1) ((items.length + k - 1).choose k)) :
    countCombinations item k items =
      some (.error (if 2 ^ 64 ≤ items.length + k then .overflow else .unaddressable)) := by
  rw [← length_combinations] at beyond
  obtain ⟨reserved, counted, -⟩ := countCombinations_eq item k items
  rw [counted, combinationsOf?, shelved_of_not_countable beyond]
  rfl

theorem countPermutations_of_not_countable (beyond : ¬ Countable item items.length k k (items.length ^ k)) :
    countPermutations item k items =
      some (.error (if 2 ^ 64 ≤ items.length + k then .overflow else .unaddressable)) := by
  rw [← length_permutations] at beyond
  obtain ⟨reserved, counted, -⟩ := countPermutations_eq item k items
  rw [counted, permutationsOf?, shelved_of_not_countable beyond]
  rfl

/-- Two items at 59 places are too many. -/
example : ¬ Countable .byte 2 59 59 (2 ^ 59) := by decide

theorem exists_countCombinations
    (countable : Countable item items.length k (k + 1) ((items.length + k - 1).choose k)) :
    ∃ reserved, countCombinations item k items = some (.ok ⟨reserved, combinations k items⟩) ∧
      (reserved ≠ 0 → reserved = (combinations k items).length) := by
  rw [← length_combinations] at countable
  obtain ⟨reserved, counted, filled⟩ := countCombinations_eq item k items
  rw [combinationsOf?, shelved_of_countable countable] at counted
  · exact ⟨reserved, counted, filled⟩
  · rw [length_combinations]
    rintro (rfl | none)
    · rw [Nat.choose_zero_right]
    · rw [none, Nat.zero_add]
      cases k <;> simp

theorem exists_countPermutations (countable : Countable item items.length k k (items.length ^ k)) :
    ∃ reserved, countPermutations item k items = some (.ok ⟨reserved, permutations k items⟩) := by
  rw [← length_permutations] at countable
  obtain ⟨reserved, counted, -⟩ := countPermutations_eq item k items
  rw [permutationsOf?, shelved_of_countable countable] at counted
  · exact ⟨reserved, counted⟩
  · rw [length_permutations]
    rintro (rfl | none)
    · rw [Nat.pow_zero]
    · rw [none]
      cases k <;> simp

theorem descends_of_mem_combinations {selection : List α} (member : selection ∈ combinations k items) :
    ∃ positions : List (Fin items.length), positions.Pairwise (· ≥ ·) ∧ selection = positions.map items.get := by
  rw [combinations, ascending_eq_map_get, List.map_map] at member
  obtain ⟨positions, listed, rfl⟩ := List.mem_map.1 member
  refine ⟨positions.reverse, ?_, (List.map_reverse ..).symm⟩
  rw [List.pairwise_reverse]
  exact ascends_of_mem_ascending (List.pairwise_lt_finRange _) listed

/-- Counting combinations of distinct items ends. If memory can hold them, it ends with every multiset of `k` items once,
each written against the order of the items, and room that was reserved is filled; if not, the numbers overflow or some
vector cannot be addressed. The number that is known before is that of the selections. -/
theorem countCombinations_lists (item : Footprint) (distinct : items.Nodup) (k : Nat) :
    (Countable item items.length k (k + 1) ((items.length + k - 1).choose k) →
      ∃ counted, countCombinations item k items = some (.ok counted) ∧
        ListsMultisets k items counted.selections ∧
        (∀ selection ∈ counted.selections, ∃ positions : List (Fin items.length),
          positions.Pairwise (· ≥ ·) ∧ selection = positions.map items.get) ∧
        counted.selections.length = (items.length + k - 1).choose k ∧
        (counted.reserved ≠ 0 → counted.reserved = counted.selections.length)) ∧
    (¬ Countable item items.length k (k + 1) ((items.length + k - 1).choose k) →
      countCombinations item k items =
        some (.error (if 2 ^ 64 ≤ items.length + k then .overflow else .unaddressable))) ∧
    ∀ n j, n + j < 2 ^ 64 → ∃ number, combinationCount n j = .ok number ∧
      (∀ c, number = some c ↔ (n = 0 ∨ (n + j - 1).factorial < 2 ^ 64) ∧ c = (n + j - 1).choose j) ∧
      (n ≠ 0 → j.factorial * (n - 1).factorial ∣ (n + j - 1).factorial) := by
  refine ⟨fun countable => ?_, countCombinations_of_not_countable, fun n j fits => ?_⟩
  · obtain ⟨reserved, counted, filled⟩ := exists_countCombinations countable
    exact ⟨_, counted, listsMultisets_combinations distinct k, fun _ => descends_of_mem_combinations,
      length_combinations k items, filled⟩
  · obtain ⟨number, counted, known⟩ := exists_combinationCount fits
    refine ⟨number, counted, known, fun some => ?_⟩
    obtain ⟨m, rfl⟩ := Nat.exists_eq_succ_of_ne_zero some
    have total : m + 1 + j - 1 = j + m := by omega
    rw [Nat.succ_sub_one, Nat.succ_eq_add_one, total]
    exact Nat.factorial_mul_factorial_dvd_factorial_add j m

theorem countCombinations_lists_two :
    [5, 7].Nodup ∧ ∃ counted, countCombinations .word 3 [5, 7] = some (.ok counted) ∧
      ListsMultisets 3 [5, 7] counted.selections ∧ counted.selections.length = 4 ∧
      (counted.reserved ≠ 0 → counted.reserved = counted.selections.length) := by
  have distinct : [5, 7].Nodup := by decide
  refine ⟨distinct, ?_⟩
  obtain ⟨counted, count, lists, -, length, filled⟩ := (countCombinations_lists .word distinct 3).1 (by decide)
  exact ⟨counted, count, lists, length, filled⟩

/-- One item cannot be chosen any number of times: the sum of both numbers must fit a word. -/
theorem countCombinations_overflows :
    [7].Nodup ∧ countCombinations .word (2 ^ 64 - 1) [7] = some (.error .overflow) ∧
      ¬ ∃ counted, countCombinations .word (2 ^ 64 - 1) [7] = some (.ok counted) := by
  have beyond : ∀ total, ¬ Countable .word [7].length (2 ^ 64 - 1) (2 ^ 64 - 1 + 1) total := by
    simp [Countable]
  have stopped : countCombinations .word (2 ^ 64 - 1) [7] = some (.error .overflow) :=
    countCombinations_of_not_countable (beyond _)
  refine ⟨by decide, stopped, ?_⟩
  rintro ⟨counted, count⟩
  rw [stopped] at count
  cases count

/-- Counting permutations ends. If memory can hold them, it ends with the items at all tuples of `k` positions in
lexicographic order; their number is known before or not at all. If not, the numbers overflow or some vector cannot be
addressed. -/
theorem countPermutations_lists (item : Footprint) (items : List α) (k : Nat) :
    (Countable item items.length k k (items.length ^ k) →
      ∃ counted, countPermutations item k items = some (.ok counted) ∧
        (∃ tuples : List (List (Fin items.length)), (∀ tuple, tuple ∈ tuples ↔ tuple.length = k) ∧
          tuples.Pairwise (· < ·) ∧ counted.selections = tuples.map (List.map items.get)) ∧
        counted.selections.length = items.length ^ k ∧
        (∀ c, permutationCount items.length k = some c → c = counted.selections.length) ∧
        (k = 0 → counted.selections = [[]]) ∧ (items = [] → k ≠ 0 → counted.selections = [])) ∧
    (¬ Countable item items.length k k (items.length ^ k) →
      countPermutations item k items =
        some (.error (if 2 ^ 64 ≤ items.length + k then .overflow else .unaddressable))) := by
  refine ⟨fun countable => ?_, countPermutations_of_not_countable⟩
  obtain ⟨reserved, counted⟩ := exists_countPermutations countable
  have ascending := List.pairwise_lt_finRange items.length
  refine ⟨_, counted, ⟨_, fun tuple => ?_, permutations_sorted ascending k, permutations_eq_map_get k items⟩,
    length_permutations k items, fun c known => ?_, ?_, ?_⟩
  · simp [mem_permutations]
  · rw [length_permutations, of_permutationCount known]
  · rintro rfl
    rfl
  · rintro rfl positive
    exact permutations_nil positive

theorem countPermutations_lists_two :
    Countable .word 2 2 2 (2 ^ 2) ∧
      ∃ counted, countPermutations .word 2 [5, 7] = some (.ok counted) ∧ counted.selections.length = 4 := by
  refine ⟨by decide, ?_⟩
  obtain ⟨counted, count, -, length, -⟩ := (countPermutations_lists .word [5, 7] 2).1 (by decide)
  exact ⟨counted, count, length⟩

/-- One item cannot be chosen any number of times: the sum of both numbers must fit a word. -/
theorem countPermutations_overflows :
    countPermutations .word (2 ^ 64 - 1) [7] = some (.error .overflow) ∧
      ¬ ∃ counted, countPermutations .word (2 ^ 64 - 1) [7] = some (.ok counted) := by
  have beyond : ∀ total, ¬ Countable .word [7].length (2 ^ 64 - 1) (2 ^ 64 - 1) total := by
    simp [Countable]
  have stopped : countPermutations .word (2 ^ 64 - 1) [7] = some (.error .overflow) :=
    countPermutations_of_not_countable (beyond _)
  refine ⟨stopped, ?_⟩
  rintro ⟨counted, count⟩
  rw [stopped] at count
  cases count

end HashedFeatures.Choice
