import HashedFeatures.Example.Unique
import HashedFeatures.Proofs.Example.Namespaces
import HashedFeatures.Proofs.Group.Unique

/-! Which features of an example stay when repeated indices are dropped.

The sort goes by the masked index and then by the value, but features are dropped by the whole index. So an index can
stay more than once: exactly if another index with the same masked index has a value between two of its values.
-/

set_option autoImplicit false

namespace HashedFeatures

namespace Group

structure Thinned (mask : UInt64) (group result : Group) : Prop where
  indices : ∀ i, (∃ f ∈ result.features, f.index = i) ↔ ∃ f ∈ group.features, f.index = i
  /-- What stays are features of the group, with the labels that they had. -/
  kept : result.labelled.Subperm group.labelled
  complete : result.Complete
  ascending : result.features.Pairwise fun left right => left.index &&& mask ≤ right.index &&& mask
  sumSquares : result.sumSquares = sumOfSquares result.features
  unchanged : { result with features := group.features, labels := group.labels, sumSquares := group.sumSquares } = group
  distinct : (result.features.map Feature.index).Nodup ↔ ¬ Feature.Interleaved mask group.features

variable {group sorted kept : Group} {audit : Bool} {mask : UInt64}

-- The features that stay are the first ones of the runs of the sorted features.
theorem Lists.thinned (arranged : sorted.Lists audit
      (group.labelled.mergeSort fun left right => Feature.upTo mask left.1 right.1))
    (keeps : kept.Lists audit
      (firstEntries none (group.labelled.mergeSort fun left right => Feature.upTo mask left.1 right.1)))
    (unsorted : { sorted with features := group.features, labels := group.labels } = group)
    (recomputed : kept = recompute { sorted with features := kept.features, labels := kept.labels })
    (numbers : ∀ f ∈ group.features, f.value.isNaN = false) : group.Thinned mask kept := by
  have features : kept.features =
      (Run.ofFeatures (group.features.mergeSort (Feature.upTo mask))).map Run.first := by
    have order : sorted.features = group.features.mergeSort (Feature.upTo mask) := by
      rw [arranged.features, List.map_mergeSort (s := Feature.upTo mask) fun _ _ _ _ => rfl, map_fst_labelled]
    rw [← order, map_first_eq arranged.runs, keeps.features]
    rfl
  have indices : kept.features.map Feature.index =
      (Run.ofFeatures (group.features.mergeSort (Feature.upTo mask))).map Run.index := by
    rw [features, List.map_map]
    rfl
  refine ⟨fun i => ?_, ?_, keeps.complete, ?_, ?_, ?_, ?_⟩
  · rw [← List.mem_map, indices, Feature.exists_mem_sortedRuns_iff]
  · rw [keeps.labelled_eq]
    exact (firstEntries_sublist none _).subperm.trans (List.mergeSort_perm _ _).subperm
  · rw [features]
    exact Feature.masked_sortedRuns
  · rw [recomputed]
    rfl
  · rw [recomputed]
    exact congrArg (fun group' : Group => { group' with sumSquares := group.sumSquares }) unsorted
  · rw [indices, Feature.nodup_sortedRuns_iff numbers]

def sortUnique (mask : UInt64) : Attempt Group Unit := do
  if ← Group.sort mask then Group.unique none

/-- A group with features is thinned; one without is left alone. -/
theorem run_sortUnique (mask : UInt64) (numbers : ∀ f ∈ group.features, f.value.isNaN = false)
    (complete : group.Complete) :
    ∃ result, (sortUnique mask).run group = (.ok (), result) ∧
      (group.isEmpty = true → result = group) ∧ (group.isEmpty = false → group.Thinned mask result) := by
  cases empty : group.isEmpty with
  | true =>
    refine ⟨group, ?_, fun _ => rfl, nofun⟩
    rw [sortUnique, Attempt.run_bind_ok (run_sort_of_isEmpty mask empty)]
    rfl
  | false =>
    have comparable : group.isComparable = true := by
      unfold isComparable
      rw [List.all_eq_true]
      intro f member
      rw [numbers f member]
      rfl
    obtain ⟨audit, lists⟩ := complete.lists
    obtain ⟨sorted, sort, arranged, unsorted⟩ := lists.run_sort mask comparable
    have present : sorted.isEmpty = false := by
      have same := (List.mergeSort_perm group.labelled fun left right => Feature.upTo mask left.1 right.1).isEmpty_eq
      rw [arranged.isEmpty_eq, same, ← lists.isEmpty_eq, empty]
    obtain ⟨kept, keep, keeps, recomputed⟩ := arranged.run_unique
    refine ⟨kept, ?_, nofun, fun _ => arranged.thinned keeps unsorted (recomputed present) numbers⟩
    rw [empty] at sort
    exact (Attempt.run_bind_ok sort).trans keep

end Group

namespace Example

/-- Every namespace with features is thinned, and each index is left once unless the sort interleaves it with
another one. -/
theorem uniqueSort_distinct_iff (mask : UInt64) (ec : Example)
    (numbers : ∀ ns group, ec.space.get? ns = some group → ∀ f ∈ group.features, f.value.isNaN = false)
    (complete : ∀ ns group, ec.space.get? ns = some group → group.Complete) :
    ∃ reached, (uniqueSort mask).run ec = (.ok (), reached) ∧
      (∀ ns, ec.space.get? ns = none → reached.space.get? ns = none) ∧
      ∀ ns group, ec.space.get? ns = some group → ∃ result, reached.space.get? ns = some result ∧
        (group.isEmpty = true → result = group) ∧ (group.isEmpty = false → group.Thinned mask result) := by
  have each : ∀ ns group, ec.space.get? ns = some group → ∃ result,
      (Group.sortUnique mask).run group = (.ok (), result) ∧
      (group.isEmpty = true → result = group) ∧ (group.isEmpty = false → group.Thinned mask result) :=
    fun ns group found => Group.run_sortUnique mask (numbers ns group found) (complete ns group found)
  obtain ⟨reached, run, changed⟩ := run_onGroups ec (fun _ => Group.sortUnique mask)
    fun ns group found => by
      obtain ⟨result, run, -⟩ := each ns group found
      rw [run]
  refine ⟨reached, run, fun ns absent => ?_, fun ns group found => ?_⟩
  · rw [changed, absent]
    rfl
  · obtain ⟨result, run, kept⟩ := each ns group found
    refine ⟨result, ?_, kept⟩
    rw [changed, found, Option.map_some, run]

/-- With ten bits, 1029 and five have one masked index, but no value of 1029 is between those of five. -/
theorem uniqueSort_distinct_iff_apart :
    let group := [(5, 3), (1029, 4), (5, 1)].foldl
      (fun group (index, value) => group.pushLabelled index (.ofFloat value) true "word" "") (Group.named "w" 7)
    let ec := (new 0).setGroup 119 group
    (∀ ns found, ec.space.get? ns = some found → ∀ f ∈ found.features, f.value.isNaN = false) ∧
      (∀ ns found, ec.space.get? ns = some found → found.Complete) ∧
      ∃ reached result, (uniqueSort 1023).run ec = (.ok (), reached) ∧ reached.space.get? 119 = some result ∧
        (result.features.map Feature.index).Nodup ∧ result.labelled.Subperm group.labelled := by
  intro group ec
  have numbers : ∀ ns found, ec.space.get? ns = some found → ∀ f ∈ found.features, f.value.isNaN = false :=
    forall_get?_single (P := fun _ found => ∀ f ∈ found.features, f.value.isNaN = false) (by decide +kernel)
  have complete : ∀ ns found, ec.space.get? ns = some found → found.Complete :=
    forall_get?_single (P := fun _ found => found.Complete) (.inr rfl)
  have found : ec.space.get? 119 = some group := by rw [get?_setGroup, if_pos rfl]
  have apart : ¬ Feature.Interleaved 1023 group.features := by
    unfold Feature.Interleaved Feature.Lower
    decide +kernel
  obtain ⟨reached, run, -, each⟩ := uniqueSort_distinct_iff 1023 ec numbers complete
  obtain ⟨result, placed, -, thinned⟩ := each 119 group found
  exact ⟨numbers, complete, reached, result, run, placed, (thinned rfl).distinct.2 apart, (thinned rfl).kept⟩

/-- The index five is left twice, with 1029 in between. -/
theorem uniqueSort_leaves_repeat :
    let group := Group.empty.append [⟨5, .ofFloat 1⟩, ⟨1029, .ofFloat 2⟩, ⟨5, .ofFloat 3⟩]
    let ec := (new 0).setGroup 97 group
    (∀ f ∈ group.features, f.value.isNaN = false) ∧ group.Complete ∧
      ∃ reached result, (uniqueSort 1023).run ec = (.ok (), reached) ∧ reached.space.get? 97 = some result ∧
        ¬ (result.features.map Feature.index).Nodup := by
  intro group ec
  have numbers : ∀ f ∈ group.features, f.value.isNaN = false := by decide +kernel
  have complete : group.Complete := .inl rfl
  have found : ec.space.get? 97 = some group := by rw [get?_setGroup, if_pos rfl]
  have between : Feature.Interleaved 1023 group.features := by
    unfold Feature.Interleaved Feature.Lower
    decide +kernel
  obtain ⟨result, run, -, thinned⟩ := Group.run_sortUnique 1023 numbers complete
  obtain ⟨reached, done, changed⟩ := run_onGroups ec (fun _ => Group.sortUnique 1023)
    (forall_get?_single (P := fun _ found => ((Group.sortUnique 1023).run found).1 = .ok ()) (by rw [run]))
  refine ⟨numbers, complete, reached, result, done, ?_, fun distinct => (thinned rfl).distinct.1 distinct between⟩
  rw [changed, found, Option.map_some, run]

end Example

end HashedFeatures
