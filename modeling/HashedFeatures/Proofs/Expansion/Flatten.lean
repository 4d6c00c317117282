import HashedFeatures.Expansion.Traversal
import HashedFeatures.Proofs.Group.Interleaved

/-! What flattening makes of the emitted features.

The sort goes by the masked index and then by the value, but the runs go by the whole index. So an index
has one feature in the end, with all its values, exactly if no other index with the same masked index has
a value between two of its values.
-/

set_option autoImplicit false

namespace HashedFeatures

def ascendingSum (values : List Float32) : Float32 :=
  Binary32.sum (values.mergeSort fun x y => !decide (y < x))

namespace Feature

variable {mask : UInt64} {features : List Feature}

def flattened (mask : UInt64) (features : List Feature) : List Feature :=
  (Run.ofFeatures (features.mergeSort (upTo mask))).map Run.merged

theorem map_index_flattened : (flattened mask features).map index =
    (Run.ofFeatures (features.mergeSort (upTo mask))).map Run.index := by
  unfold flattened
  rw [List.map_map]
  rfl

theorem exists_mem_flattened_iff {i : UInt64} :
    (∃ f ∈ flattened mask features, f.index = i) ↔ ∃ f ∈ features, f.index = i := by
  rw [← List.mem_map, map_index_flattened, exists_mem_sortedRuns_iff]

theorem masked_flattened :
    (flattened mask features).Pairwise fun left right => left.index &&& mask ≤ right.index &&& mask := by
  have firsts := @masked_sortedRuns mask features
  rw [List.pairwise_map] at firsts
  exact List.pairwise_map.2 firsts

theorem nodup_flattened_iff (numbers : ∀ f ∈ features, f.value.isNaN = false) :
    ((flattened mask features).map index).Nodup ↔ ¬ Interleaved mask features := by
  rw [map_index_flattened, nodup_sortedRuns_iff numbers]

theorem value_flattened (numbers : ∀ f ∈ features, f.value.isNaN = false)
    (distinct : ((flattened mask features).map index).Nodup) {f : Feature} (member : f ∈ flattened mask features) :
    f.value = ascendingSum ((features.filter fun g => g.index == f.index).map value) := by
  obtain ⟨run, inside, rfl⟩ := List.mem_map.1 member
  rw [map_index_flattened] at distinct
  have whole := Run.features_eq_filter distinct inside
  rw [(upTo_orders mask).filter_mergeSort] at whole
  rw [Run.value_merged, whole, ascendingSum, Run.index_merged]
  congr 1
  apply List.map_mergeSort
  intro left first right second
  rw [List.mem_filter, beq_iff_eq] at first second
  apply upTo_of_masked_eq (numbers left first.1) (numbers right second.1)
  rw [first.2, second.2]

end Feature

namespace Group

-- Sorting and merging the features of a new group.
theorem run_sort_mergeRuns {mask : UInt64} {features : List Feature}
    (numbers : ∀ f ∈ features, f.value.isNaN = false) :
    Attempt.run (do let _ ← Group.sort mask; let _ ← Group.mergeRuns) (empty.append features) =
      (.ok (), { empty with
        features := Feature.flattened mask features
        sumSquares := addSquares 0 (Feature.flattened mask features) }) := by
  have comparable : (empty.append features).isComparable = true := by
    unfold isComparable
    rw [List.all_eq_true]
    intro f member
    rw [numbers f member]
    rfl
  rw [Attempt.run_bind_ok (run_sort mask comparable rfl), Attempt.run_bind_ok (run_mergeRuns rfl)]
  rfl

end Group

namespace Example

/-- All features that a traversal emits at scale one and offset zero. -/
def emitted (ec : Example) (ignored : NamespaceSet) (permutations : Bool) (hashBits : UInt32) (scratch : Scratch) :
    List Feature :=
  let unscaled := { ec with scale := 1, offset := 0 }
  (Event.features (unscaled.traverse false ignored ec.interactions permutations hashBits scratch).1.events).map
    fun w => ⟨w.index, .ofFloat w.value⟩

variable {ec : Example} {ignored : NamespaceSet} {permutations : Bool} {hashBits : UInt32} {scratch : Scratch}

theorem run_flatten (mask : UInt64)
    (numbers : ∀ f ∈ ec.emitted ignored permutations hashBits scratch, f.value.isNaN = false) :
    ∃ reached, (flatten ignored permutations hashBits mask scratch).run ec =
      (.ok ({ Group.empty with
        features := Feature.flattened mask (ec.emitted ignored permutations hashBits scratch)
        sumSquares := addSquares 0 (Feature.flattened mask (ec.emitted ignored permutations hashBits scratch)) },
        reached), ec) := by
  have merged := @Group.run_sort_mergeRuns mask _ numbers
  refine ⟨({ ec with scale := 1, offset := 0 }.traverse false ignored ec.interactions permutations hashBits
    scratch).2, ?_⟩
  unfold flatten
  rw [Guard.run_scope, Attempt.run_bind_ok (Attempt.run_modify _ _), Attempt.run_bind_ok (Attempt.run_get _)]
  unfold emitted at *
  simp only [stashScaleOffset, id_eq, merged]
  rfl

/-- Flattening sums up every collision unless the sort interleaves two indices. -/
theorem flatten_merges_iff (ec : Example) (ignored : NamespaceSet) (permutations : Bool) (hashBits : UInt32)
    (mask : UInt64) (scratch : Scratch)
    (numbers : ∀ f ∈ ec.emitted ignored permutations hashBits scratch, f.value.isNaN = false) :
    let emitted := ec.emitted ignored permutations hashBits scratch
    ∃ flat reached, (flatten ignored permutations hashBits mask scratch).run ec = (.ok (flat, reached), ec) ∧
      (∀ i, (∃ f ∈ flat.features, f.index = i) ↔ ∃ f ∈ emitted, f.index = i) ∧
      (flat.features.Pairwise fun left right => left.index &&& mask ≤ right.index &&& mask) ∧
      flat.sumSquares = addSquares 0 flat.features ∧
      ((flat.features.map Feature.index).Nodup ↔ ¬ Feature.Interleaved mask emitted) ∧
      (¬ Feature.Interleaved mask emitted → ∀ f ∈ flat.features,
        f.value = ascendingSum ((emitted.filter fun g => g.index == f.index).map Feature.value)) := by
  obtain ⟨reached, done⟩ := run_flatten mask numbers
  refine ⟨_, reached, done, fun i => Feature.exists_mem_flattened_iff, Feature.masked_flattened, rfl,
    Feature.nodup_flattened_iff numbers, ?_⟩
  intro apart f member
  exact Feature.value_flattened numbers ((Feature.nodup_flattened_iff numbers).2 apart) member

def ofFeatures (features : List Feature) : Example :=
  (new 0).setGroup 97 (Group.empty.append features)

/-- Two values of one index next to each other are summed up. -/
theorem flatten_merges_iff_adjacent :
    let ec := ofFeatures [⟨5, .ofFloat 1⟩, ⟨1029, .ofFloat 4⟩, ⟨5, .ofFloat 3⟩]
    let emitted := ec.emitted .empty false 10 #[]
    (∀ f ∈ emitted, f.value.isNaN = false) ∧ ¬ Feature.Interleaved 1023 emitted ∧
      ∃ flat reached, (flatten .empty false 10 1023 #[]).run ec = (.ok (flat, reached), ec) ∧
        (flat.features.map Feature.index).Nodup := by
  intro ec emitted
  have numbers : ∀ f ∈ emitted, f.value.isNaN = false := by decide +kernel
  have apart : ¬ Feature.Interleaved 1023 emitted := by
    unfold Feature.Interleaved Feature.Lower
    decide +kernel
  obtain ⟨flat, reached, run, -, -, -, distinct, -⟩ := flatten_merges_iff ec .empty false 10 1023 #[] numbers
  exact ⟨numbers, apart, flat, reached, run, distinct.2 apart⟩

/-- With ten bits, the index 1029 stands between two values of the index five, which stay apart. -/
theorem flatten_leaves_collision :
    let ec := ofFeatures [⟨5, .ofFloat 1⟩, ⟨1029, .ofFloat 2⟩, ⟨5, .ofFloat 3⟩]
    (∀ f ∈ ec.emitted .empty false 10 #[], f.value.isNaN = false) ∧
      ∃ flat reached, (flatten .empty false 10 1023 #[]).run ec = (.ok (flat, reached), ec) ∧
        ¬ (flat.features.map Feature.index).Nodup := by
  intro ec
  have numbers : ∀ f ∈ ec.emitted .empty false 10 #[], f.value.isNaN = false := by decide +kernel
  have between : Feature.Interleaved 1023 (ec.emitted .empty false 10 #[]) := by
    unfold Feature.Interleaved Feature.Lower
    decide +kernel
  obtain ⟨reached, run⟩ := run_flatten 1023 numbers
  refine ⟨numbers, _, reached, run, fun distinct => ?_⟩
  exact (Feature.nodup_flattened_iff numbers).1 distinct between

end Example

end HashedFeatures
