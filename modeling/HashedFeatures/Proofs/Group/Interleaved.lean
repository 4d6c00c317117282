import HashedFeatures.Proofs.Group.Merge
import HashedFeatures.Proofs.Group.Sort

/-! The runs of a sorted group.

The sort goes by the masked index and then by the value, but the runs go by the whole index. So an index has one run
in the end exactly if no other index with the same masked index has a value between two of its values.
-/

set_option autoImplicit false

namespace HashedFeatures

namespace Feature

def Lower (left right : Feature × Nat) : Prop :=
  left.1.value < right.1.value ∨ ¬ right.1.value < left.1.value ∧ left.2 < right.2

/-- Between two features of one index stands one of another index that the mask does not tell from it. -/
def Interleaved (mask : UInt64) (features : List Feature) : Prop :=
  ∃ a ∈ features.zipIdx, ∃ b ∈ features.zipIdx, ∃ c ∈ features.zipIdx,
    a.1.index = c.1.index ∧ b.1.index ≠ a.1.index ∧ b.1.index &&& mask = a.1.index &&& mask ∧
      Lower a b ∧ Lower b c

theorem upTo_of_masked_eq {mask : UInt64} {left right : Feature} (number : left.value.isNaN = false)
    (other : right.value.isNaN = false) (masked : left.index &&& mask = right.index &&& mask) :
    upTo mask left right = !decide (right.value < left.value) := by
  rw [upTo_eq number other, before, masked]
  simp

theorem ahead_iff_lower {mask : UInt64} {left right : Feature × Nat} (number : left.1.value.isNaN = false)
    (other : right.1.value.isNaN = false) (masked : left.1.index &&& mask = right.1.index &&& mask) :
    Arrangement.Ahead (upTo mask) left right ↔ Lower left right := by
  have asymm : left.1.value < right.1.value → ¬ right.1.value < left.1.value := by
    rw [Binary32.lt_iff number other, Binary32.lt_iff other number]
    exact lt_asymm
  unfold Arrangement.Ahead Lower
  rw [upTo_of_masked_eq number other masked, upTo_of_masked_eq other number masked.symm]
  simp only [Bool.not_eq_true', decide_eq_false_iff_not]
  tauto

variable {mask : UInt64} {features : List Feature}

-- The sort splits the features with one index where others come between them.
theorem split_mergeSort_iff (numbers : ∀ f ∈ features, f.value.isNaN = false) :
    Run.Split (features.mergeSort (upTo mask)) ↔ Interleaved mask features := by
  have number : ∀ entry ∈ features.zipIdx, entry.1.value.isNaN = false :=
    fun entry member => numbers entry.1 (List.fst_mem_of_mem_zipIdx member)
  constructor
  · rintro ⟨_, _, _, inside, same, other⟩
    obtain ⟨placed, values, ahead, members⟩ := (upTo_orders mask).sublist_mergeSort_iff.1 inside
    have size : placed.length = 3 := by
      rw [← List.length_map Prod.fst, values]
      rfl
    obtain ⟨a, b, c, rfl⟩ := List.length_eq_three.1 size
    simp only [List.map_cons, List.map_nil, List.cons.injEq, and_true] at values
    obtain ⟨rfl, rfl, rfl⟩ := values
    simp only [List.forall_mem_cons] at members
    obtain ⟨first, second, third, -⟩ := members
    obtain ⟨forth, onward⟩ : Arrangement.Ahead (upTo mask) a b ∧ Arrangement.Ahead (upTo mask) b c := by
      simp only [List.pairwise_cons, List.forall_mem_cons] at ahead
      exact ⟨ahead.1.1, ahead.2.1.1⟩
    -- The masked index in the middle lies between two equal ones.
    have masked : b.1.index &&& mask = a.1.index &&& mask := by
      have below := masked_le_of_upTo onward.1
      rw [← same] at below
      exact UInt64.le_antisymm below (masked_le_of_upTo forth.1)
    refine ⟨a, first, b, second, c, third, same, other, masked, ?_, ?_⟩
    · exact (ahead_iff_lower (number a first) (number b second) masked.symm).1 forth
    · exact (ahead_iff_lower (number b second) (number c third) (same ▸ masked)).1 onward
  · rintro ⟨a, first, b, second, c, third, same, other, masked, lower, upper⟩
    have forth := (ahead_iff_lower (number a first) (number b second) masked.symm).2 lower
    have onward := (ahead_iff_lower (number b second) (number c third) (same ▸ masked)).2 upper
    refine ⟨a.1, b.1, c.1, ?_, same, other⟩
    rw [(upTo_orders mask).sublist_mergeSort_iff]
    refine ⟨[a, b, c], rfl, ?_, ?_⟩
    · have across := (upTo_orders mask).ahead_trans forth onward
      simp [forth, onward, across]
    · simp [first, second, third]

/-- Nothing is interleaved under a mask that tells all indices apart. -/
theorem not_interleaved_of_apart
    (apart : ∀ f ∈ features, ∀ g ∈ features, f.index &&& mask = g.index &&& mask → f.index = g.index) :
    ¬ Interleaved mask features := by
  rintro ⟨a, first, b, second, c, third, same, other, masked, -⟩
  have inside := List.fst_mem_of_mem_zipIdx first
  have between := List.fst_mem_of_mem_zipIdx second
  exact other (apart b.1 between a.1 inside masked)

theorem exists_mem_sortedRuns_iff {i : UInt64} :
    i ∈ (Run.ofFeatures (features.mergeSort (upTo mask))).map Run.index ↔ ∃ f ∈ features, f.index = i := by
  have indices := @Run.mem_indices (features.mergeSort (upTo mask)) i
  simpa only [List.mem_mergeSort] using indices

theorem masked_sortedRuns : ((Run.ofFeatures (features.mergeSort (upTo mask))).map Run.first).Pairwise
    fun left right => left.index &&& mask ≤ right.index &&& mask := by
  have orders := upTo_orders mask
  have ascends : (features.mergeSort (upTo mask)).Pairwise fun left right =>
      left.index &&& mask ≤ right.index &&& mask :=
    (List.pairwise_mergeSort orders.trans orders.total features).imp masked_le_of_upTo
  exact ascends.sublist (Run.firsts_sublist _)

theorem nodup_sortedRuns_iff (numbers : ∀ f ∈ features, f.value.isNaN = false) :
    ((Run.ofFeatures (features.mergeSort (upTo mask))).map Run.index).Nodup ↔ ¬ Interleaved mask features := by
  rw [Run.nodup_indices_iff, split_mergeSort_iff numbers]

end Feature

end HashedFeatures
