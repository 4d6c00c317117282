import HashedFeatures.Proofs.Term.Lexicographic
import Mathlib.Data.List.Chain

/-! Rows of digits, one after the other.

The next row has one digit raised, and the digits behind it, which were all the largest, start anew. Walking from row to
row lists all rows in lexicographic order. Rows that start anew from the raised digit are the positions of the ascending
selections, rows that start anew from zero those of all tuples.
-/

set_option autoImplicit false

namespace HashedFeatures.Choice

variable {α : Type} {largest k : Nat} {restart : Nat → Nat}

/-- Rows of `k` digits, the first of which is at least `least`; a digit says where the one behind it starts. -/
def rows (largest : Nat) (restart : Nat → Nat) : Nat → Nat → List (List Nat)
  | 0, _ => [[]]
  | k + 1, least =>
    (List.range' least (largest + 1 - least)).flatMap fun digit =>
      (rows largest restart k (restart digit)).map (digit :: ·)

theorem rows_succ (k : Nat) {least : Nat} (within : least ≤ largest) :
    rows largest restart (k + 1) least =
      (rows largest restart k (restart least)).map (least :: ·) ++ rows largest restart (k + 1) (least + 1) := by
  have count : largest + 1 - least = largest + 1 - (least + 1) + 1 := by omega
  rw [rows, count, List.range'_succ, List.flatMap_cons]
  rfl

theorem rows_of_lt (k : Nat) {least : Nat} (beyond : largest < least) :
    rows largest restart (k + 1) least = [] := by
  rw [rows, Nat.sub_eq_zero_of_le beyond]
  rfl

def firstRow (restart : Nat → Nat) : Nat → Nat → List Nat
  | 0, _ => []
  | k + 1, least => least :: List.replicate k (restart least)

def Next (largest : Nat) (restart : Nat → Nat) (k : Nat) (row next : List Nat) : Prop :=
  ∃ front digit count, front.length + 1 + count = k ∧ (∀ d ∈ front, d ≤ largest) ∧ digit < largest ∧
    row = front ++ digit :: List.replicate count largest ∧
    next = front ++ (digit + 1) :: List.replicate count (restart (digit + 1))

theorem Next.cons {row next : List Nat} (step : Next largest restart k row next) {digit : Nat}
    (within : digit ≤ largest) : Next largest restart (k + 1) (digit :: row) (digit :: next) := by
  obtain ⟨front, raised, count, length, bounded, below, rfl, rfl⟩ := step
  refine ⟨digit :: front, raised, count, ?_, List.forall_mem_cons.2 ⟨within, bounded⟩, below, rfl, rfl⟩
  rw [List.length_cons]
  omega

structure Walks (largest : Nat) (restart : Nat → Nat) (k : Nat) (first last : List Nat)
    (listed : List (List Nat)) : Prop where
  chain : listed.IsChain (Next largest restart k)
  head : listed.head? = some first
  last : listed.getLast? = some last

theorem Walks.cons {first last : List Nat} {listed : List (List Nat)} (walks : Walks largest restart k first last listed)
    {digit : Nat} (within : digit ≤ largest) :
    Walks largest restart (k + 1) (digit :: first) (digit :: last) (listed.map (digit :: ·)) where
  chain := by
    rw [List.isChain_map]
    exact walks.chain.imp fun _ _ step => step.cons within
  head := by rw [List.head?_map, walks.head]; rfl
  last := by rw [List.getLast?_map, walks.last]; rfl

theorem Walks.append {first middle next last : List Nat} {left right : List (List Nat)}
    (before : Walks largest restart k first middle left) (step : Next largest restart k middle next)
    (behind : Walks largest restart k next last right) : Walks largest restart k first last (left ++ right) where
  chain := by
    refine before.chain.append behind.chain fun row member next' member' => ?_
    rw [before.last, Option.mem_some_iff] at member
    rw [behind.head, Option.mem_some_iff] at member'
    rwa [← member, ← member']
  head := by rw [List.head?_append, before.head]; rfl
  last := by rw [List.getLast?_append, behind.last]; rfl

theorem walks_rows (restart : Nat → Nat) (lowers : ∀ d, restart d ≤ d) (settled : ∀ d, restart (restart d) = restart d) (k : Nat)
    {least : Nat} (within : least ≤ largest) :
    Walks largest restart k (firstRow restart k least) (List.replicate k largest) (rows largest restart k least) := by
  induction k generalizing least with
  | zero => exact ⟨.singleton _, rfl, rfl⟩
  | succ k shorter =>
    have starts (d : Nat) : firstRow restart k (restart d) = List.replicate k (restart d) := by
      cases k with
      | zero => rfl
      | succ k => rw [firstRow, settled, ← List.replicate_succ]
    have block {digit : Nat} (inside : digit ≤ largest) := (shorter ((lowers digit).trans inside)).cons inside
    simp only [starts] at block
    induction left : largest - least generalizing least with
    | zero =>
      obtain rfl : least = largest := by omega
      rw [rows_succ k within, rows_of_lt k (Nat.lt_succ_self least), List.append_nil]
      exact block within
    | succ left later =>
      have below : least < largest := by omega
      rw [rows_succ k within]
      refine (block within).append ?_ (later below (by omega))
      exact ⟨[], least, k, by simp [Nat.add_comm], by simp, below, rfl, rfl⟩

/-! ## Positions -/

theorem rows_id (largest k : Nat) (least : Nat) :
    rows largest id k least = ascending k (List.range' least (largest + 1 - least)) := by
  induction k generalizing least with
  | zero => rfl
  | succ k shorter =>
    induction count : largest + 1 - least generalizing least with
    | zero => exact rows_of_lt k (by omega)
    | succ left later =>
      rw [rows_succ k (by omega), later (least + 1) (by omega), List.range'_succ, ascending_cons, shorter, id_eq, count,
        List.range'_succ]

theorem rows_zero (largest k : Nat) : rows largest (fun _ => 0) k 0 = permutations k (List.range (largest + 1)) := by
  rw [List.range_eq_range']
  induction k with
  | zero => rfl
  | succ k ih => rw [rows, ih, permutations, Nat.sub_zero]

def chosen (items : List α) (row : List Nat) : List α := row.filterMap (items[·]?)

theorem chosen_cons {items : List α} {digit : Nat} (inside : digit < items.length) (row : List Nat) :
    chosen items (digit :: row) = items[digit] :: chosen items row := by
  rw [chosen, List.filterMap_cons, List.getElem?_eq_getElem inside]
  rfl

theorem chosen_val (items : List α) (positions : List (Fin items.length)) :
    chosen items (positions.map Fin.val) = positions.map items.get := by
  rw [chosen, List.filterMap_map, ← List.filterMap_eq_map]
  congr 1
  funext position
  exact List.getElem?_eq_getElem position.isLt

theorem chosen_reverse (items : List α) (row : List Nat) : chosen items row.reverse = (chosen items row).reverse := by
  rw [chosen, List.filterMap_reverse]
  rfl

theorem ascending_eq_chosen (k : Nat) (items : List α) :
    ascending k items = (ascending k (List.range items.length)).map (chosen items) := by
  rw [ascending_eq_map_get, ← List.map_coe_finRange_eq_range, ascending_map, List.map_map]
  exact List.map_congr_left fun positions _ => (chosen_val items positions).symm

theorem permutations_eq_chosen (k : Nat) (items : List α) :
    permutations k items = (permutations k (List.range items.length)).map (chosen items) := by
  rw [permutations_eq_map_get, ← List.map_coe_finRange_eq_range, permutations_map, List.map_map]
  exact List.map_congr_left fun positions _ => (chosen_val items positions).symm

end HashedFeatures.Choice
