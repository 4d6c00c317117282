import HashedFeatures.Group.Sort
import HashedFeatures.Proofs.Arrangement.Permuted
import HashedFeatures.Proofs.Arrangement.Stable
import HashedFeatures.Proofs.Binary32.Order

/-! Sorting a group.

Where all values compare, it is the stable sort by masked index and value. Where they do not, the features are still
rearranged, also when the sort stops.
-/

set_option autoImplicit false

namespace HashedFeatures

namespace Feature

def key (mask : UInt64) (feature : Feature) : Nat ×ₗ Int ×ₗ Int ×ₗ Int :=
  toLex ((feature.index &&& mask).toNat, Binary32.rank feature.value)

/-- Sorted no later than another feature, or tied with it. -/
def upTo (mask : UInt64) (left right : Feature) : Bool :=
  key mask left ≤ key mask right

theorem before_iff {mask : UInt64} {left right : Feature} (number : left.value.isNaN = false)
    (other : right.value.isNaN = false) : before mask left right = true ↔ key mask left < key mask right := by
  unfold before key
  rw [Prod.Lex.toLex_lt_toLex, Bool.or_eq_true, Bool.and_eq_true, beq_iff_eq, decide_eq_true_iff, decide_eq_true_iff,
    Binary32.lt_iff number other, UInt64.lt_iff_toNat_lt, ← UInt64.toNat_inj]

theorem upTo_eq {mask : UInt64} {left right : Feature} (number : left.value.isNaN = false)
    (other : right.value.isNaN = false) : upTo mask left right = !before mask right left := by
  rw [Bool.eq_iff_iff, Bool.not_eq_true', ← Bool.not_eq_true, before_iff other number, upTo, decide_eq_true_iff]
  exact not_lt.symm

theorem upTo_orders (mask : UInt64) : Arrangement.Orders (upTo mask) where
  trans := by
    intro a b c first second
    unfold upTo at *
    rw [decide_eq_true_iff] at *
    exact le_trans first second
  total := by
    intro a b
    unfold upTo
    rw [Bool.or_eq_true, decide_eq_true_iff, decide_eq_true_iff]
    exact le_total _ _

-- The masked index comes first.
theorem masked_le_of_upTo {mask : UInt64} {left right : Feature} (sorted : upTo mask left right = true) :
    left.index &&& mask ≤ right.index &&& mask := by
  unfold upTo key at sorted
  rw [decide_eq_true_iff, Prod.Lex.toLex_le_toLex] at sorted
  rw [UInt64.le_iff_toNat_le]
  rcases sorted with below | ⟨same, -⟩
  · exact Nat.le_of_lt below
  · exact Nat.le_of_eq same

end Feature

namespace Group

theorem numbers_of_isComparable {group : Group} (comparable : group.isComparable = true) :
    ∀ f ∈ group.features, f.value.isNaN = false := by
  unfold isComparable at comparable
  simpa using comparable

theorem pick_stableOrder_before {mask : UInt64} {features : List Feature}
    (numbers : ∀ f ∈ features, f.value.isNaN = false) :
    Arrangement.pick (Arrangement.stableOrder (Feature.before mask) features) features =
      features.mergeSort (Feature.upTo mask) := by
  rw [Arrangement.pick_stableOrder, ← List.map_id (List.mergeSort _ _), List.map_mergeSort (s := Feature.upTo mask)]
  · rw [List.map_id]
  · intro left first right second
    exact (Feature.upTo_eq (numbers left first) (numbers right second)).symm

theorem run_sort_of_isEmpty {group : Group} (mask : UInt64) (empty : group.isEmpty = true) :
    (Group.sort mask).run group = (.ok false, group) := by
  unfold Group.sort
  rw [Attempt.run_bind, Attempt.run_get]
  dsimp only
  rw [if_pos empty]
  rfl

theorem run_sort_of_order {group : Group} {mask : UInt64} {order : List Nat} (present : group.isEmpty = false)
    (found : group.order mask = .ok order) (labelled : group.isAudited = true → group.length ≤ group.labels.length) :
    (Group.sort mask).run group = (.ok true, group.arrange order) := by
  have whole : (!group.isAudited || decide (group.length ≤ group.labels.length)) = true := by
    cases audited : group.isAudited with
    | false => rfl
    | true => simpa using labelled audited
  unfold Group.sort
  rw [Attempt.run_bind, Attempt.run_get]
  dsimp only
  rw [present, if_neg Bool.false_ne_true, found]
  dsimp only
  rw [if_pos whole]
  rfl

/-- Without labels a sort that can compare all values is the stable sort. -/
theorem run_sort {group : Group} (mask : UInt64) (comparable : group.isComparable = true)
    (unlabelled : group.labels = []) :
    (Group.sort mask).run group =
      (.ok (!group.isEmpty), { group with features := group.features.mergeSort (Feature.upTo mask) }) := by
  cases empty : group.isEmpty with
  | true =>
    rw [run_sort_of_isEmpty mask empty]
    obtain ⟨_, _, _, features, _, _⟩ := group
    obtain rfl : features = [] := List.isEmpty_iff.1 empty
    rw [List.mergeSort_nil]
    rfl
  | false =>
    have found : group.order mask = .ok (Arrangement.stableOrder (Feature.before mask) group.features) :=
      if_pos comparable
    have plain : group.isAudited = false := by rw [isAudited, unlabelled]; rfl
    have none : ∀ order, Arrangement.pick order group.labels ++ group.labels.drop group.length = group.labels := by
      intro order
      rw [unlabelled]
      simp [Arrangement.pick]
    rw [run_sort_of_order empty found (by simp [plain]), arrange, none,
      pick_stableOrder_before (numbers_of_isComparable comparable)]
    rfl

theorem order_perm {group : Group} {mask : UInt64} {order : List Nat} (found : group.order mask = .ok order) :
    order.Perm (List.range group.features.length) := by
  unfold Group.order at found
  split at found
  · rw [← Except.ok.inj found]
    exact Arrangement.stableOrder_perm _ _
  · split at found
    · next adaptive =>
      rw [← Except.ok.inj found]
      exact Arrangement.adaptiveOrder_perm adaptive
    · exact nomatch found

/-- However a sort ends, the group has the features that it had. -/
theorem features_perm_run_sort (mask : UInt64) (group : Group) :
    ((Group.sort mask).run group).2.features.Perm group.features := by
  unfold Group.sort
  rw [Attempt.run_bind, Attempt.run_get]
  dsimp only
  split
  case isTrue => rfl
  case isFalse =>
    cases found : group.order mask with
    | error fault => rfl
    | ok order =>
      dsimp only
      split
      · exact Arrangement.pick_perm (order_perm found)
      · -- Labels are missing: features are exchanged up to the first one without.
        have moved : ((exchangeAll order).run group).2.features.Perm group.features :=
          Arrangement.exchangeAll_perm _ _
        rw [Attempt.run_bind]
        generalize (exchangeAll order).run group = ended at moved
        obtain ⟨outcome, reached⟩ := ended
        cases outcome <;> exact moved

end Group

end HashedFeatures
