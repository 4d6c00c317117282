import HashedFeatures.Proofs.Group.Pass

/-! What summing up leaves of a group whose equal indices stand together. -/

set_option autoImplicit false

namespace HashedFeatures.Group

variable {group merged : Group}

structure SummedFrom (group merged : Group) : Prop where
  indices : merged.features.map Feature.index = (group.features.map Feature.index).eraseDups
  values : ∀ f ∈ merged.features,
    f.value = Binary32.sum ((group.features.filter fun g => g.index == f.index).map Feature.value)
  labels : ∀ item ∈ merged.labelled,
    (group.labelled.find? fun other => other.1.index == item.1.index).map Prod.snd = some item.2
  labels_length : merged.labels.length = if group.isAudited then merged.length else 0
  squares : merged.sumSquares = addSquares 0 merged.features
  others : { merged with features := group.features, labels := group.labels, sumSquares := group.sumSquares } = group

theorem value_of_mem_merged (contiguous : ¬ Run.Split group.features) {f : Feature}
    (member : f ∈ (Run.ofFeatures group.features).map Run.merged) :
    f.value = Binary32.sum ((group.features.filter fun g => g.index == f.index).map Feature.value) := by
  obtain ⟨run, inside, rfl⟩ := List.mem_map.1 member
  have distinct := (Run.nodup_indices_iff group.features).2 contiguous
  rw [Run.value_merged, Run.features_eq_filter distinct inside]
  rfl

/-- Summing up the runs in one pass leaves one feature for every index, and the answer is the new sum of squares. -/
theorem Complete.mergeRuns_sums_up (complete : group.Complete) (contiguous : ¬ Run.Split group.features) :
    ∃ merged : Group, mergeRuns.run group = (.ok merged.sumSquares, merged) ∧
      mergeInPlace.run group = (.ok merged.sumSquares, merged) ∧ SummedFrom group merged := by
  obtain ⟨audit, lists⟩ := complete.lists
  obtain ⟨merged, run, keeps, features, same⟩ := lists.run_mergeRuns
  have squares : merged.sumSquares = addSquares 0 merged.features := by rw [same]
  rw [← squares] at run
  have whole : ¬ Run.Split (group.labelled.map Prod.fst) := by rwa [map_fst_labelled]
  have firsts : (entryRuns group.labelled).filterMap List.head? = dropRepeats none group.labelled :=
    firstEntries_eq none group.labelled
  refine ⟨merged, run, complete.run_mergeInPlace.trans run, ?_, fun f member => ?_, fun item member => ?_, ?_, squares,
    ?_⟩
  · have summed := map_total (entryRuns group.labelled) Prod.fst
    rw [firsts, index_dropRepeats whole, ← keeps.labelled_eq, map_index_labelled, map_index_labelled] at summed
    exact summed
  · exact value_of_mem_merged contiguous (features ▸ member)
  · have summed := map_total (entryRuns group.labelled) id
    rw [firsts, ← keeps.labelled_eq] at summed
    have shown : (item.1.index, item.2) ∈ merged.labelled.map fun item => id (item.1.index, item.2) :=
      List.mem_map_of_mem member
    rw [summed] at shown
    obtain ⟨first, inside, alike⟩ := List.mem_map.1 shown
    obtain ⟨index, label⟩ := Prod.mk.inj alike
    rw [← index, find?_of_mem_firsts whole inside, ← label]
    rfl
  · exact lists.length_labels_of keeps fun none => by rw [none]; rfl
  · rw [same]

/-- Two labelled runs, the first of two features. -/
theorem mergeRuns_sums_up_pair :
    let letters := [(7, "a"), (7, "b"), (9, "c")].foldl
      (fun group (index, name) => group.pushLabelled index .one true name "") (Group.named "n" 0)
    ∃ merged : Group, mergeRuns.run letters = (.ok merged.sumSquares, merged) ∧
      mergeInPlace.run letters = (.ok merged.sumSquares, merged) ∧ SummedFrom letters merged ∧
      merged.features.map Feature.index = [7, 9] ∧ merged.labels.map Label.feature = ["a", "c"] ∧
      (merged.sumSquares == 5) = true := by
  intro letters
  have contiguous : ¬ Run.Split letters.features := Run.not_split_of_ascending (by decide)
  have complete : letters.Complete := .inr rfl
  obtain ⟨merged, run, inPlace, summed⟩ := complete.mergeRuns_sums_up contiguous
  refine ⟨merged, run, inPlace, summed, ?_⟩
  have made : (mergeRuns.run letters).2 = merged := congrArg Prod.snd run
  rw [← made]
  decide

end HashedFeatures.Group
