import HashedFeatures.Proofs.Term.Counted
import HashedFeatures.Proofs.Term.Instance
import HashedFeatures.Term.Insertion
import Mathlib.Data.List.Sort
import Std.Data.TreeSet.Lemmas

/-! Filled templates keep their places.

Inserting the fixed ids one by one is substituting the wildcards, and the picks are read back at the places of the
wildcards. What is picked then follows from the order of the ids.
-/

set_option autoImplicit false

namespace HashedFeatures.Term

/-! ## Insertion -/

theorem insertIdx_length {α : Type} (done rest : List α) (item : α) :
    (done ++ rest).insertIdx done.length item = done ++ item :: rest := by
  induction done with
  | nil => rfl
  | cons head done ih => exact congrArg (head :: ·) ih

theorem insertAt_append (done rest : Term) (ns : UInt8) :
    insertAt (done ++ rest) (ns, done.length) = .ok (done ++ ns :: rest) := by
  have inside : done.length ≤ (done ++ rest).length := by
    rw [List.length_append]
    exact Nat.le_add_right _ _
  rw [insertAt, if_pos inside, insertIdx_length]

-- The term is complete up to the place that is reached, and behind it are the picks for the wildcards ahead.
theorem foldlM_insertAt {template : Term} {picks : List UInt8} (length : picks.length = template.wildcards) (done : Term) :
    ((template.zipIdx done.length).filter fun (ns, _) => ns ≠ Namespace.wildcard).foldlM insertAt (done ++ picks) =
      .ok (done ++ template.substitute picks) := by
  induction template generalizing done picks with
  | nil =>
    obtain rfl : picks = [] := List.length_eq_zero_iff.1 length
    rfl
  | cons ns template ih =>
    rw [List.zipIdx_cons]
    by_cases wild : ns = Namespace.wildcard
    · subst wild
      rw [wildcards_cons_self] at length
      obtain ⟨pick, picks, rfl⟩ := List.exists_cons_of_length_eq_add_one length
      have next := ih (Nat.succ.inj length) (done ++ [pick])
      rw [List.length_append, List.append_assoc, List.append_assoc] at next
      rw [List.filter_cons_of_neg (by simp), substitute_cons_self]
      exact next
    · rw [wildcards_cons_of_ne wild] at length
      have next := ih length (done ++ [ns])
      rw [List.length_append, List.append_assoc, List.append_assoc] at next
      rw [List.filter_cons_of_pos (by simpa using wild), substitute_cons_of_ne wild, List.foldlM_cons, insertAt_append]
      exact next

theorem insertFixed_eq {template : Term} {picks : List UInt8} (length : picks.length = template.wildcards) :
    template.insertFixed picks = .ok (template.substitute picks) :=
  foldlM_insertAt length []

/-! ## Pairs in an ordered set -/

theorem compare_eq_lt_iff {left right : List UInt8} : compare left right = .lt ↔ left < right := by
  induction left generalizing right with
  | nil => cases right <;> simp [compare, List.compareLex]
  | cons x left ih =>
    cases right with
    | nil => simp [compare, List.compareLex]
    | cons y right =>
      rw [List.compare_cons_cons, Ordering.then_eq_lt, ih, List.cons_lt_cons_iff, Std.compare_eq_lt, Std.compare_eq_iff_eq]

theorem foldl_collects {σ β : Type} {step : σ → β → σ} (holds : σ → Prop) {adds : β → Prop}
    (each : ∀ state item, holds (step state item) ↔ holds state ∨ adds item) (items : List β) (state : σ) :
    holds (items.foldl step state) ↔ holds state ∨ ∃ item ∈ items, adds item := by
  induction items generalizing state with
  | nil => simp
  | cons item items ih => rw [List.foldl_cons, ih, each, List.exists_mem_cons_iff, or_assoc]

def Brought (leaveDuplicates : Bool) (first second : UInt8) (tuple : List UInt8) : Prop :=
  tuple = [first, second] ∨ tuple = [second, second] ∨ leaveDuplicates = true ∧ tuple = [second, first]

theorem mem_insertPair (leaveDuplicates : Bool) (first second : UInt8) (pairs : Std.TreeSet (List UInt8))
    (tuple : List UInt8) :
    tuple ∈ insertPair leaveDuplicates first pairs second ↔
      tuple ∈ pairs ∨ Brought leaveDuplicates first second tuple := by
  unfold insertPair Brought
  cases leaveDuplicates <;> simp [Std.TreeSet.mem_insert] <;> grind

theorem mem_pairSet {leaveDuplicates : Bool} {ids tuple : List UInt8} :
    tuple ∈ pairSet leaveDuplicates ids ↔
      ∃ first second, [first, second] ∈ Choice.ascending 2 ids ∧ Brought leaveDuplicates first second tuple := by
  have collected := foldl_collects (tuple ∈ ·)
    (fun pairs suffix => foldl_collects (tuple ∈ ·)
      (fun pairs second => mem_insertPair leaveDuplicates suffix.1 second pairs tuple) suffix.2 pairs)
    (Choice.suffixes ids) ∅
  rw [pairSet, collected]
  simp only [Choice.pair_mem_ascending_iff, Std.TreeSet.not_mem_emptyc, false_or]
  constructor
  · rintro ⟨⟨first, onward⟩, suffix, second, inside, brought⟩
    exact ⟨first, second, ⟨onward, suffix, inside⟩, brought⟩
  · rintro ⟨first, second, ⟨onward, suffix, inside⟩, brought⟩
    exact ⟨⟨first, onward⟩, suffix, second, inside, brought⟩

theorem mem_pairSet_iff {leaveDuplicates : Bool} {ids tuple : List UInt8} (strict : ids.Pairwise (· < ·)) :
    tuple ∈ pairSet leaveDuplicates ids ↔ tuple ∈ Choice.pairs leaveDuplicates ids := by
  rw [mem_pairSet, Choice.mem_pairs_iff strict]
  constructor
  · rintro ⟨first, second, listed, brought⟩
    obtain ⟨-, ascends, members⟩ := (Choice.mem_ascending_iff strict).1 listed
    have ordered : first ≤ second := List.rel_of_pairwise_cons ascends List.mem_cons_self
    obtain ⟨firstMember, secondMember⟩ : first ∈ ids ∧ second ∈ ids := by simpa using members
    rcases brought with rfl | rfl | ⟨leave, rfl⟩
    · exact ⟨first, second, rfl, firstMember, secondMember, .inr ordered⟩
    · exact ⟨second, second, rfl, secondMember, secondMember, .inr (Std.le_refl _)⟩
    · exact ⟨second, first, rfl, secondMember, firstMember, .inl leave⟩
  · rintro ⟨first, second, rfl, firstMember, secondMember, kept⟩
    rcases UInt8.le_total first second with ordered | ordered
    · exact ⟨first, second, (Choice.mem_ascending_iff strict).2 (by simp [*]), .inl rfl⟩
    · refine ⟨second, first, (Choice.mem_ascending_iff strict).2 (by simp [*]), ?_⟩
      rcases kept with leave | back
      · exact .inr (.inr ⟨leave, rfl⟩)
      · exact .inr (.inl (by rw [UInt8.le_antisymm ordered back]))

theorem pairSet_toList {ids : List UInt8} (strict : ids.Pairwise (· < ·)) (leaveDuplicates : Bool) :
    (pairSet leaveDuplicates ids).toList = Choice.pairs leaveDuplicates ids := by
  have listed : (pairSet leaveDuplicates ids).toList.Pairwise (· < ·) :=
    Std.TreeSet.ordered_toList.imp compare_eq_lt_iff.1
  apply listed.eq_of_mem_iff (Choice.pairs_sorted strict leaveDuplicates)
  intro tuple
  rw [Std.TreeSet.mem_toList, mem_pairSet_iff strict]

/-! ## All instances -/

variable (mode : Selection) (leaveDuplicates : Bool) (namespaces : NamespaceSet)

theorem picksByInsertion_eq (k : Nat) :
    picksByInsertion mode leaveDuplicates namespaces k = picks mode leaveDuplicates namespaces k := by
  have pairs := pairSet_toList namespaces.ascending_toList leaveDuplicates
  cases mode with
  | combinations => exact congrArg (if k = 2 then · else Choice.combinations k namespaces.toList) pairs
  | permutations => exact congrArg (if k = 2 then · else Choice.permutations k namespaces.toList) pairs

/-- No id is inserted out of range. -/
theorem instancesByInsertion_eq (template : Term) :
    template.instancesByInsertion mode leaveDuplicates namespaces =
      .ok (template.instances mode leaveDuplicates namespaces) := by
  have go : ∀ tuples : List (List UInt8), (∀ tuple ∈ tuples, tuple.length = template.wildcards) →
      tuples.mapM template.insertFixed = .ok (tuples.map template.substitute) := by
    intro tuples lengths
    induction tuples with
    | nil => rfl
    | cons tuple tuples ih =>
      obtain ⟨length, others⟩ := List.forall_mem_cons.1 lengths
      rw [List.mapM_cons, insertFixed_eq length, ih others]
      rfl
  rw [instancesByInsertion, picksByInsertion_eq]
  exact go _ fun tuple picked => (of_mem_picks picked).1

/-! ## What is read back -/

def atWildcards (template written : Term) : List UInt8 :=
  (template.zip written).filterMap fun (ns, x) => if ns = Namespace.wildcard then some x else none

theorem atWildcards_substitute {template : Term} {picks : List UInt8} (length : picks.length = template.wildcards) :
    template.atWildcards (template.substitute picks) = picks := by
  induction template generalizing picks with
  | nil =>
    obtain rfl : picks = [] := List.length_eq_zero_iff.1 length
    rfl
  | cons ns template ih =>
    by_cases wild : ns = Namespace.wildcard
    · subst wild
      rw [wildcards_cons_self] at length
      obtain ⟨pick, picks, rfl⟩ := List.exists_cons_of_length_eq_add_one length
      exact congrArg (pick :: ·) (ih (Nat.succ.inj length))
    · rw [wildcards_cons_of_ne wild] at length
      rw [substitute_cons_of_ne wild, atWildcards, List.zip_cons_cons, List.filterMap_cons_none (by exact if_neg wild)]
      exact ih length

theorem map_atWildcards_instances (template : Term) :
    (template.instances mode leaveDuplicates namespaces).map template.atWildcards =
      picks mode leaveDuplicates namespaces template.wildcards := by
  rw [instances, List.map_map]
  exact (List.map_congr_left fun tuple picked => atWildcards_substitute (of_mem_picks picked).1).trans (List.map_id _)

theorem Fills.getElem?_eq {namespaces : NamespaceSet} {template term : Term} (fills : Fills namespaces template term)
    {place : Nat} {ns : UInt8} (found : template[place]? = some ns) (fixed : ns ≠ Namespace.wildcard) :
    term[place]? = some ns := by
  induction fills generalizing place with
  | nil => cases found
  | cons chosen _ ih =>
    cases place with
    | zero =>
      obtain rfl := Option.some.inj found
      rw [if_neg fixed] at chosen
      rw [List.getElem?_cons_zero, chosen]
    | succ place => exact ih found

/-! ## What is picked -/

theorem picks_two : picks mode leaveDuplicates namespaces 2 = Choice.pairs leaveDuplicates namespaces.toList := rfl

theorem picks_combinations {k : Nat} (other : k ≠ 2) :
    picks .combinations leaveDuplicates namespaces k = Choice.combinations k namespaces.toList := if_neg other

theorem picks_permutations {k : Nat} (other : k ≠ 2) :
    picks .permutations leaveDuplicates namespaces k = Choice.permutations k namespaces.toList := if_neg other

theorem picks_ordered {mode : Selection} {leaveDuplicates : Bool} {k : Nat}
    (ordered : mode = .permutations ∧ k ≠ 2 ∨ k = 2 ∧ leaveDuplicates = true) :
    (picks mode leaveDuplicates namespaces k).Pairwise (· < ·) ∧
      ∀ tuple, tuple ∈ picks mode leaveDuplicates namespaces k ↔ tuple.length = k ∧ ∀ x ∈ tuple, x ∈ namespaces := by
  have all : picks mode leaveDuplicates namespaces k = Choice.permutations k namespaces.toList := by
    rcases ordered with ⟨rfl, other⟩ | ⟨rfl, rfl⟩
    · exact picks_permutations leaveDuplicates namespaces other
    · exact picks_two mode true namespaces
  rw [all]
  refine ⟨Choice.permutations_sorted namespaces.ascending_toList k, fun tuple => ?_⟩
  simp [Choice.mem_permutations]

theorem picks_pairs :
    (picks mode false namespaces 2).Pairwise (· < ·) ∧
      ∀ tuple, tuple ∈ picks mode false namespaces 2 ↔
        ∃ a b, tuple = [a, b] ∧ a ∈ namespaces ∧ b ∈ namespaces ∧ a ≤ b := by
  rw [picks_two]
  refine ⟨Choice.pairs_sorted namespaces.ascending_toList false, fun tuple => ?_⟩
  simp [Choice.mem_pairs_iff namespaces.ascending_toList]

theorem picks_multisets {k : Nat} (other : k ≠ 2) :
    Choice.ListsMultisets k namespaces.toList (picks .combinations leaveDuplicates namespaces k) := by
  rw [picks_combinations leaveDuplicates namespaces other]
  exact Choice.listsMultisets_combinations namespaces.nodup_toList k

theorem nodup_picks (k : Nat) : (picks mode leaveDuplicates namespaces k).Nodup := by
  by_cases two : k = 2
  · subst two
    cases leaveDuplicates with
    | true => exact (picks_ordered namespaces (.inr ⟨rfl, rfl⟩)).1.nodup
    | false => exact (picks_pairs mode namespaces).1.nodup
  · cases mode with
    | permutations => exact (picks_ordered namespaces (.inl ⟨rfl, two⟩)).1.nodup
    | combinations => exact (picks_multisets leaveDuplicates namespaces two).once.of_map

/-- What the counters end with, as long as memory can hold it. -/
theorem picks_counted {k : Nat} (other : k ≠ 2) (places : k + 1 < 2 ^ 60)
    (room : (picks mode leaveDuplicates namespaces k).length ≤ 2 ^ 58) :
    ∃ reserved : Nat, (match mode with
      | .combinations => Choice.countCombinations .byte k namespaces.toList
      | .permutations => Choice.countPermutations .byte k namespaces.toList) =
        some (.ok ⟨reserved, picks mode leaveDuplicates namespaces k⟩) := by
  have few : namespaces.toList.length ≤ 256 := namespaces.size_le
  have selection : k * Choice.Footprint.byte.bytes + Choice.Footprint.byte.alignment ≤ 2 ^ 63 := by
    have : Choice.Footprint.byte = ⟨1, 1⟩ := rfl
    simp only [this]
    omega
  cases mode with
  | combinations =>
    rw [picks_combinations leaveDuplicates namespaces other] at room ⊢
    rw [Choice.length_combinations] at room
    obtain ⟨reserved, counted, -⟩ := Choice.exists_countCombinations (.inr (.inr ⟨by omega, places, selection, room⟩))
    exact ⟨reserved, counted⟩
  | permutations =>
    rw [picks_permutations leaveDuplicates namespaces other] at room ⊢
    rw [Choice.length_permutations] at room
    exact Choice.exists_countPermutations (.inr (.inr ⟨by omega, by omega, selection, room⟩))

/-- The terms that a template stands for have its fixed ids in their places. In the places of its wildcards all tuples
of ids stand in order, of two ids only those that do not go back unless duplicates are left; where combinations are
asked for, every multiset stands once, except that two wildcards take pairs in any mode. -/
theorem instances_places (template : Term) :
    let written := template.instances mode leaveDuplicates namespaces
    let read := written.map template.atWildcards
    let k := template.wildcards
    template.instancesByInsertion mode leaveDuplicates namespaces = .ok written ∧
    (∀ term ∈ written, term.length = template.length ∧
      ∀ (place : Nat) (ns : UInt8), template[place]? = some ns → ns ≠ Namespace.wildcard → term[place]? = some ns) ∧
    read.Nodup ∧
    (mode = .permutations ∧ k ≠ 2 ∨ k = 2 ∧ leaveDuplicates = true → read.Pairwise (· < ·) ∧
      ∀ tuple, tuple ∈ read ↔ tuple.length = k ∧ ∀ x ∈ tuple, x ∈ namespaces) ∧
    (k = 2 ∧ leaveDuplicates = false → read.Pairwise (· < ·) ∧
      ∀ tuple, tuple ∈ read ↔ ∃ a b, tuple = [a, b] ∧ a ∈ namespaces ∧ b ∈ namespaces ∧ a ≤ b) ∧
    (mode = .combinations ∧ k ≠ 2 → Choice.ListsMultisets k namespaces.toList read) := by
  intro written read k
  have read_eq : read = picks mode leaveDuplicates namespaces k := map_atWildcards_instances ..
  rw [read_eq]
  refine ⟨instancesByInsertion_eq .., fun term member => ?_, nodup_picks .., picks_ordered namespaces, ?_, ?_⟩
  · have fills : Fills namespaces template term := fills_of_mem_instances member
    exact ⟨fills.length_eq.symm, fun _ _ => fills.getElem?_eq⟩
  · rintro ⟨two, rfl⟩
    rw [two]
    exact picks_pairs mode namespaces
  · rintro ⟨rfl, other⟩
    exact picks_multisets leaveDuplicates namespaces other

/-- A fixed id between two wildcards stays between them, in any mode. -/
example : instances .permutations false (.ofList [97, 98]) [58, 120, 58] =
    [[97, 120, 97], [97, 120, 98], [98, 120, 98]] := by decide

end HashedFeatures.Term
