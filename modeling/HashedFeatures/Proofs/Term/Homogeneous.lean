import HashedFeatures.Proofs.Term.Choice
import Mathlib.Algebra.BigOperators.Ring.List
import Mathlib.Algebra.Order.BigOperators.Group.List
import Mathlib.Algebra.Order.BigOperators.GroupWithZero.List
import Mathlib.Tactic.Linarith
import Mathlib.Tactic.Ring

/-! Complete homogeneous sums: the products over all selections with repetition, added up.

A sum over one more item splits at the first item as well as at the last one. The first split is the
order in which selections are enumerated, the second one lets the sums be updated item by item.
-/

set_option autoImplicit false

namespace HashedFeatures.Choice

section Semiring

variable {R : Type} [CommSemiring R]

def homogeneousSum (k : Nat) (items : List R) : R := ((ascending k items).map List.prod).sum

@[simp] theorem homogeneousSum_zero (items : List R) : homogeneousSum 0 items = 1 := by
  simp [homogeneousSum, ascending]

@[simp] theorem homogeneousSum_nil (k : Nat) : homogeneousSum (k + 1) ([] : List R) = 0 := by
  simp [homogeneousSum, ascending_nil]

theorem homogeneousSum_cons (k : Nat) (item : R) (rest : List R) :
    homogeneousSum (k + 1) (item :: rest) =
      item * homogeneousSum k (item :: rest) + homogeneousSum (k + 1) rest := by
  unfold homogeneousSum
  rw [ascending_cons, List.map_append, List.sum_append, List.map_map, ← List.sum_map_mul_left]
  rfl

theorem homogeneousSum_one (items : List R) : homogeneousSum 1 items = items.sum := by
  induction items with
  | nil => simp
  | cons item rest ih => rw [homogeneousSum_cons, homogeneousSum_zero, ih, mul_one, List.sum_cons]

-- The selections that start at a place, whose others start at the same place.
theorem homogeneousSum_drop (k start : Nat) (items : List R) :
    homogeneousSum (k + 1) (items.drop start) =
      ((List.range' start (items.length - start)).map fun p =>
        items.getD p 0 * homogeneousSum k (items.drop p)).sum := by
  induction left : items.length - start generalizing start with
  | zero =>
    rw [List.drop_eq_nil_of_le (by omega)]
    simp
  | succ left ih =>
    have inside : start < items.length := by omega
    have first : items.getD start 0 = items[start] := by simp [inside]
    rw [List.range'_succ, List.map_cons, List.sum_cons, ← ih (start + 1) (by omega),
      List.drop_eq_getElem_cons inside, homogeneousSum_cons, first]

-- The same split at the last item.
theorem homogeneousSum_concat (k : Nat) (items : List R) (item : R) :
    homogeneousSum (k + 1) (items ++ [item]) =
      homogeneousSum (k + 1) items + homogeneousSum k (items ++ [item]) * item := by
  induction k generalizing items with
  | zero => simp [homogeneousSum_one]
  | succ k shorter =>
    induction items with
    | nil =>
      rw [List.nil_append, homogeneousSum_cons, homogeneousSum_nil]
      ring
    | cons first rest fewer =>
      calc homogeneousSum (k + 2) (first :: rest ++ [item])
          = first * homogeneousSum (k + 1) (first :: rest ++ [item]) + homogeneousSum (k + 2) (rest ++ [item]) :=
            homogeneousSum_cons _ _ _
        _ = first * (homogeneousSum (k + 1) (first :: rest) + homogeneousSum k (first :: rest ++ [item]) * item) +
              (homogeneousSum (k + 2) rest + homogeneousSum (k + 1) (rest ++ [item]) * item) := by
            rw [fewer, shorter]
        _ = (first * homogeneousSum (k + 1) (first :: rest) + homogeneousSum (k + 2) rest) +
              (first * homogeneousSum k (first :: rest ++ [item]) + homogeneousSum (k + 1) (rest ++ [item])) *
                item := by
            ring
        _ = homogeneousSum (k + 2) (first :: rest) + homogeneousSum (k + 1) (first :: rest ++ [item]) * item := by
            rw [← homogeneousSum_cons, List.cons_append, ← homogeneousSum_cons]

end Semiring

section Natural

variable {items : List Int}

theorem homogeneousSum_nonneg (nonneg : ∀ item ∈ items, 0 ≤ item) (k : Nat) : 0 ≤ homogeneousSum k items := by
  apply List.sum_nonneg
  intro summand member
  obtain ⟨selection, selected, rfl⟩ := List.mem_map.1 member
  exact List.prod_nonneg fun item chosen => nonneg item ((of_mem_ascending selected).2 item chosen)

theorem homogeneousSum_le_concat (nonneg : ∀ item ∈ items, 0 ≤ item) {item : Int} (last : 0 ≤ item) (k : Nat) :
    homogeneousSum k items ≤ homogeneousSum k (items ++ [item]) := by
  cases k with
  | zero => simp
  | succ k =>
    have longer : ∀ other ∈ items ++ [item], 0 ≤ other := by
      simpa [or_imp, forall_and] using ⟨nonneg, last⟩
    rw [homogeneousSum_concat]
    have := mul_nonneg (homogeneousSum_nonneg longer k) last
    omega

theorem homogeneousSum_le_append {others : List Int} (nonneg : ∀ item ∈ items ++ others, 0 ≤ item) (k : Nat) :
    homogeneousSum k items ≤ homogeneousSum k (items ++ others) := by
  induction others generalizing items with
  | nil => simp
  | cons item others ih =>
    rw [List.append_cons] at nonneg ⊢
    have shorter := List.forall_mem_append.1 (List.forall_mem_append.1 nonneg).1
    exact (homogeneousSum_le_concat shorter.1 (shorter.2 item (by simp)) k).trans (ih nonneg)

-- Of integers, one more factor makes no positive sum smaller.
theorem homogeneousSum_le_succ (nonneg : ∀ item ∈ items, 0 ≤ item) (k : Nat) :
    homogeneousSum (k + 1) items ≤ homogeneousSum (k + 2) items := by
  induction items with
  | nil => simp
  | cons item rest ih =>
    obtain ⟨first, others⟩ := List.forall_mem_cons.1 nonneg
    rcases first.eq_or_lt with rfl | positive
    · simpa [homogeneousSum_cons] using ih others
    · rw [homogeneousSum_cons (k + 1)]
      have := le_mul_of_one_le_left (homogeneousSum_nonneg nonneg (k + 1)) positive
      have := homogeneousSum_nonneg others (k + 1 + 1)
      omega

theorem homogeneousSum_le_of_le (nonneg : ∀ item ∈ items, 0 ≤ item) {k l : Nat} (positive : 0 < k) (below : k ≤ l) :
    homogeneousSum k items ≤ homogeneousSum l items := by
  obtain ⟨k, rfl⟩ := Nat.exists_eq_succ_of_ne_zero positive.ne'
  induction l, below using Nat.le_induction with
  | base => exact le_refl _
  | succ l more ih =>
    obtain ⟨l, rfl⟩ := Nat.exists_eq_succ_of_ne_zero (by omega : l ≠ 0)
    exact ih.trans (homogeneousSum_le_succ nonneg l)

end Natural

end HashedFeatures.Choice
