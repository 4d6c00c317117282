import HashedFeatures.Proofs.Term.Choice
import Mathlib.Algebra.Group.Nat.Defs
import Mathlib.Data.List.FinRange
import Mathlib.Data.List.Lex
import Mathlib.Data.Multiset.Basic
import Mathlib.Data.Nat.Choose.Basic

/-! The order of the selections with repetition, and their number.

Over items in ascending order both kinds are listed in lexicographic order. Other items are read off the positions that
stand for them.
-/

set_option autoImplicit false

namespace HashedFeatures.Choice

variable {α β : Type}

theorem ascending_one (items : List α) : ascending 1 items = items.map ([·]) := by
  induction items with
  | nil => rfl
  | cons item items ih => rw [ascending_cons, ih]; rfl

theorem pair_mem_ascending_iff {items : List α} {first second : α} :
    [first, second] ∈ ascending 2 items ↔ ∃ onward, (first, onward) ∈ suffixes items ∧ second ∈ onward := by
  rw [ascending, List.mem_flatMap]
  simp [ascending_one]

/-! ## Number -/

theorem length_ascending (k : Nat) (items : List α) : (ascending k items).length = Nat.multichoose items.length k := by
  induction k generalizing items with
  | zero => rw [Nat.multichoose_zero_right]; rfl
  | succ k shorter =>
    induction items with
    | nil => rw [List.length_nil, Nat.multichoose_zero_succ]; rfl
    | cons item rest fewer =>
      rw [ascending_cons, List.length_append, List.length_map, shorter, fewer, List.length_cons,
        Nat.multichoose_succ_succ, Nat.add_comm]

theorem length_combinations (k : Nat) (items : List α) :
    (combinations k items).length = (items.length + k - 1).choose k := by
  rw [combinations, List.length_map, length_ascending, Nat.multichoose_eq]

theorem length_permutations (k : Nat) (items : List α) : (permutations k items).length = items.length ^ k := by
  induction k with
  | zero => rfl
  | succ k ih => simp [permutations, List.length_flatMap, ih, Nat.pow_succ, Nat.mul_comm]

/-! ## Items read off -/

theorem ascending_map (f : α → β) (k : Nat) (items : List α) :
    ascending k (items.map f) = (ascending k items).map (List.map f) := by
  induction k generalizing items with
  | zero => rfl
  | succ k shorter =>
    induction items with
    | nil => rfl
    | cons item rest fewer =>
      have first := shorter (item :: rest)
      rw [List.map_cons] at first
      rw [List.map_cons, ascending_cons, ascending_cons, List.map_append, first, fewer, List.map_map, List.map_map]
      rfl

theorem permutations_map (f : α → β) (k : Nat) (items : List α) :
    permutations k (items.map f) = (permutations k items).map (List.map f) := by
  induction k with
  | zero => rfl
  | succ k ih =>
    rw [permutations, permutations, List.flatMap_map, List.map_flatMap]
    apply List.flatMap_congr
    intro item _
    rw [ih, List.map_map, List.map_map]
    rfl

theorem ascending_eq_map_get (k : Nat) (items : List α) :
    ascending k items = (ascending k (List.finRange items.length)).map (List.map items.get) := by
  rw [← ascending_map, List.map_get_finRange]

theorem permutations_eq_map_get (k : Nat) (items : List α) :
    permutations k items = (permutations k (List.finRange items.length)).map (List.map items.get) := by
  rw [← permutations_map, List.map_get_finRange]

/-! ## Order -/

theorem eq_of_perm_of_ascends [LE α] [Std.IsPartialOrder α] {left right : List α} (same : left.Perm right)
    (first : left.Pairwise (· ≤ ·)) (second : right.Pairwise (· ≤ ·)) : left = right :=
  same.eq_of_pairwise (fun _ _ _ _ => Std.le_antisymm) first second

section Order

variable [LT α] {items : List α}

theorem permutations_sorted (strict : items.Pairwise (· < ·)) (k : Nat) :
    (permutations k items).Pairwise (· < ·) := by
  induction k with
  | zero => exact List.pairwise_singleton _ _
  | succ k ih =>
    rw [permutations, List.pairwise_flatMap]
    refine ⟨fun item _ => ?_, strict.imp fun below left leftMember right rightMember => ?_⟩
    · exact List.pairwise_map.2 (ih.imp fun before => List.cons_lt_cons_iff.2 (.inr ⟨rfl, before⟩))
    · obtain ⟨tail, -, rfl⟩ := List.mem_map.1 leftMember
      obtain ⟨tail', -, rfl⟩ := List.mem_map.1 rightMember
      exact List.cons_lt_cons_iff.2 (.inl below)

theorem ascending_sorted (strict : items.Pairwise (· < ·)) (k : Nat) : (ascending k items).Pairwise (· < ·) := by
  induction k generalizing items with
  | zero => exact List.pairwise_singleton _ _
  | succ k shorter =>
    induction items with
    | nil => exact .nil
    | cons item rest fewer =>
      obtain ⟨above, others⟩ := List.pairwise_cons.1 strict
      rw [ascending_cons, List.pairwise_append, List.pairwise_map]
      refine ⟨(shorter strict).imp fun before => List.cons_lt_cons_iff.2 (.inr ⟨rfl, before⟩), fewer others, ?_⟩
      intro left leftMember right rightMember
      obtain ⟨tail, -, rfl⟩ := List.mem_map.1 leftMember
      obtain ⟨length, members⟩ := of_mem_ascending rightMember
      obtain ⟨x, tail', rfl⟩ := List.exists_cons_of_length_eq_add_one length
      exact List.cons_lt_cons_iff.2 (.inl (above x (members x List.mem_cons_self)))

theorem pairs_sorted (strict : items.Pairwise (· < ·)) (ordered : Bool) : (pairs ordered items).Pairwise (· < ·) := by
  unfold pairs
  split
  case isTrue => exact permutations_sorted strict 2
  case isFalse => exact ascending_sorted strict 2

variable [LE α] [Std.IsPartialOrder α] [Std.LawfulOrderLT α]

theorem ascends_of_mem_ascending (strict : items.Pairwise (· < ·)) {k : Nat} {selection : List α}
    (member : selection ∈ ascending k items) : selection.Pairwise (· ≤ ·) := by
  induction k generalizing items selection with
  | zero =>
    obtain rfl : selection = [] := List.mem_singleton.1 member
    exact .nil
  | succ k shorter =>
    induction items with
    | nil => cases member
    | cons item rest fewer =>
      rw [ascending_cons, List.mem_append, List.mem_map] at member
      rcases member with ⟨tail, inside, rfl⟩ | inside
      · refine List.pairwise_cons.2 ⟨fun x chosen => ?_, shorter strict inside⟩
        rcases List.mem_cons.1 ((of_mem_ascending inside).2 x chosen) with rfl | later
        · exact Std.le_refl x
        · exact Std.le_of_lt (List.rel_of_pairwise_cons strict later)
      · exact fewer (List.pairwise_cons.1 strict).2 inside

/-- Over ascending items the selections are the tuples that do not go back. -/
theorem mem_ascending_iff (strict : items.Pairwise (· < ·)) {k : Nat} {selection : List α} :
    selection ∈ ascending k items ↔
      selection.length = k ∧ selection.Pairwise (· ≤ ·) ∧ ∀ x ∈ selection, x ∈ items := by
  classical
  constructor
  · intro member
    obtain ⟨length, members⟩ := of_mem_ascending member
    exact ⟨length, ascends_of_mem_ascending strict member, members⟩
  · rintro ⟨rfl, ascends, members⟩
    -- An arrangement of the tuple is selected, and it ascends too.
    obtain ⟨listed, inside, same⟩ := exists_perm_mem_ascending items selection members
    rwa [eq_of_perm_of_ascends same (ascends_of_mem_ascending strict inside) ascends] at inside

theorem mem_pairs_iff (strict : items.Pairwise (· < ·)) {ordered : Bool} {tuple : List α} :
    tuple ∈ pairs ordered items ↔
      ∃ first second, tuple = [first, second] ∧ first ∈ items ∧ second ∈ items ∧ (ordered = true ∨ first ≤ second) := by
  have pair : tuple.length = 2 ↔ ∃ first second, tuple = [first, second] := List.length_eq_two
  unfold pairs
  cases ordered with
  | true =>
    rw [if_pos rfl, mem_permutations, pair]
    constructor
    · rintro ⟨⟨first, second, rfl⟩, members⟩
      exact ⟨first, second, rfl, by simpa using members⟩
    · rintro ⟨first, second, rfl, firstMember, secondMember, -⟩
      exact ⟨⟨first, second, rfl⟩, by simp [firstMember, secondMember]⟩
  | false =>
    rw [if_neg Bool.false_ne_true, mem_ascending_iff strict, pair]
    constructor
    · rintro ⟨⟨first, second, rfl⟩, ascends, members⟩
      refine ⟨first, second, rfl, by simp [members], by simp [members], .inr ?_⟩
      exact List.rel_of_pairwise_cons ascends List.mem_cons_self
    · rintro ⟨first, second, rfl, firstMember, secondMember, back | before⟩
      · cases back
      · exact ⟨⟨first, second, rfl⟩, by simp [before], by simp [firstMember, secondMember]⟩

theorem ascending_apart (strict : items.Pairwise (· < ·)) (k : Nat) :
    (ascending k items).Pairwise fun left right => ¬ left.Perm right := by
  apply (ascending_sorted strict k).imp_of_mem
  intro left right leftMember rightMember before same
  have ascends := ascends_of_mem_ascending strict leftMember
  have equal := eq_of_perm_of_ascends same ascends (ascends_of_mem_ascending strict rightMember)
  exact List.lt_irrefl right (equal ▸ before)

end Order

/-! ## Multisets -/

/-- Every multiset of `k` items is one of the selections, once. -/
structure ListsMultisets (k : Nat) (items : List α) (selections : List (List α)) : Prop where
  mem_iff : ∀ chosen : Multiset α, chosen ∈ selections.map (↑) ↔ chosen.card = k ∧ ∀ x ∈ chosen, x ∈ items
  once : (selections.map ((↑) : List α → Multiset α)).Nodup

theorem listsMultisets_combinations {items : List α} (distinct : items.Nodup) (k : Nat) :
    ListsMultisets k items (combinations k items) where
  mem_iff chosen := by
    classical
    simp only [List.mem_map, combinations, exists_exists_and_eq_and, Multiset.coe_reverse]
    constructor
    · rintro ⟨selection, inside, rfl⟩
      exact of_mem_ascending inside
    · rintro ⟨rfl, members⟩
      obtain ⟨tuple, rfl⟩ := Quot.exists_rep chosen
      obtain ⟨selection, inside, same⟩ := exists_perm_mem_ascending items tuple members
      exact ⟨selection, inside, Multiset.coe_eq_coe.2 same⟩
  once := by
    have injective : Function.Injective items.get := List.nodup_iff_injective_get.1 distinct
    rw [combinations, List.map_map, ascending_eq_map_get, List.map_map, List.Nodup, List.pairwise_map]
    apply (ascending_apart (List.pairwise_lt_finRange _) k).imp
    intro left right apart same
    simp only [Function.comp_apply, Multiset.coe_reverse, Multiset.coe_eq_coe] at same
    exact apart ((List.map_perm_map_iff injective).1 same)

end HashedFeatures.Choice
