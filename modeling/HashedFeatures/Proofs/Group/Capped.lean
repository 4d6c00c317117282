import HashedFeatures.Proofs.Group.Entries
import HashedFeatures.Proofs.Group.Pass

/-! Dropping repeated indices under a cap.

Every path of the operation leaves the entries that do not repeat the index in front of them, cut at the cap. The paths
differ in how they find the new sum of squares, which comes to the same where no step rounds.
-/

set_option autoImplicit false

namespace HashedFeatures

open Binary32 (Stands IsInteger integer)

theorem Entry.firsts_sublist (cap : Option Nat) (entries : List Entry) : (firsts cap entries).Sublist entries := by
  obtain ⟨behind, cut⟩ := exists_runsUpTo cap entries
  have front := (filterMap_head?_sublist (runsUpTo cap entries)).trans (List.sublist_append_left _ behind)
  rwa [cut] at front

theorem Entry.squares_le_of_sublist {part whole : List Entry} (inside : part.Sublist whole) :
    squares part ≤ squares whole := by
  induction inside with
  | slnil => exact le_refl _
  | cons entry _ ih =>
    have own := sq_nonneg entry.value
    rw [squares_cons]
    omega
  | cons_cons entry _ ih =>
    rw [squares_cons, squares_cons]
    omega

namespace Group

variable {group kept : Group} {audit : Bool} {items : List Item}

structure ExactSquares (group : Group) : Prop where
  integers : ∀ f ∈ group.features, IsInteger f.value
  small : Binary32.Small (group.features.map fun f => integer f.value ^ 2).sum
  squares : Stands group.sumSquares (group.features.map fun f => integer f.value ^ 2).sum

def entryOf (item : Item) : Entry := ⟨item.1.index, integer item.1.value, labelIn item⟩

theorem squares_entryOf (items : List Item) :
    Entry.squares (items.map entryOf) = ((items.map Prod.fst).map fun f => integer f.value ^ 2).sum := by
  rw [Entry.squares, List.map_map, List.map_map]
  rfl

theorem Lists.represents (lists : group.Lists audit items) (exact : group.ExactSquares) :
    Represents audit group.origin group (items.map entryOf) where
  origin_eq := rfl
  shows := by
    rw [lists.features, List.forall₂_map_left_iff, List.forall₂_map_right_iff, List.forall₂_same]
    intro item member
    exact ⟨rfl, exact.integers item.1 (lists.features ▸ List.mem_map_of_mem member)⟩
  labels_eq := by
    rw [lists.labels, List.map_map]
    rfl
  squares := by
    rw [squares_entryOf, ← lists.features]
    exact exact.squares

theorem integers_of_shows {features : List Feature} {entries : List Entry}
    (shows : List.Forall₂ Feature.Shows features entries) :
    (∀ f ∈ features, IsInteger f.value) ∧
      (features.map fun f => integer f.value ^ 2).sum = Entry.squares entries := by
  induction shows with
  | nil => exact ⟨nofun, rfl⟩
  | cons first _ ih =>
    obtain ⟨integers, sum⟩ := ih
    refine ⟨List.forall_mem_cons.2 ⟨first.2.isInteger, integers⟩, ?_⟩
    rw [List.map_cons, List.sum_cons, sum, Entry.squares_cons, first.2.integer_eq]

theorem Represents.exactSquares {origin : Origin} {entries : List Entry} (rep : Represents audit origin group entries)
    (small : Binary32.Small (Entry.squares entries)) : group.ExactSquares := by
  obtain ⟨integers, sum⟩ := integers_of_shows rep.shows
  exact ⟨integers, sum ▸ small, sum ▸ rep.squares⟩

/-- Where no step rounds, the sum of squares stays in step under every cap. -/
theorem Lists.exactSquares_unique (lists : group.Lists audit items) (exact : group.ExactSquares) {cap : Option Nat}
    (run : (unique cap).run group = (.ok (), kept)) : kept.ExactSquares := by
  have rep := lists.represents exact
  have before : Binary32.Small (Entry.squares (items.map entryOf)) := by
    rw [squares_entryOf, ← lists.features]
    exact exact.small
  have small : Binary32.Small (Entry.squares (Entry.firsts cap (items.map entryOf))) :=
    before.mono (Entry.squares_nonneg _) (Entry.squares_le_of_sublist (Entry.firsts_sublist cap _))
  obtain ⟨after, again, kept⟩ := rep.unique cap before small
  obtain rfl := congrArg Prod.snd (again.symm.trans run)
  exact kept.exactSquares small

/-- The entries that are left under a cap, with everything else as it was but the sum of squares. -/
structure CappedFrom (cap : Option Nat) (group kept : Group) : Prop where
  entries : kept.labelled = capped cap (dropRepeats none group.labelled)
  labels_length : kept.labels.length = if group.isAudited then kept.length else 0
  others : { kept with features := group.features, labels := group.labels, sumSquares := group.sumSquares } = group

/-- Of every run the first entry stays, up to the cap, and another time there is nothing left to drop. In a group that
ascends, or whose equal indices stand together at all, it is the first entry of its index. -/
theorem Complete.unique_keeps_first (complete : group.Complete) (cap : Option Nat) :
    ∃ kept, (unique cap).run group = (.ok (), kept) ∧ (uniqueInPlace cap).run group = (.ok (), kept) ∧
      CappedFrom cap group kept ∧
      (¬ Run.Split group.features →
        kept.features.map Feature.index = capped cap (group.features.map Feature.index).eraseDups ∧
        ∀ item ∈ kept.labelled,
          group.labelled.find? (fun other => other.1.index == item.1.index) = some item) ∧
      (∃ again, (unique cap).run kept = (.ok (), again) ∧ again.features = kept.features ∧
        again.labels = kept.labels) ∧
      (group.ExactSquares → kept.ExactSquares) := by
  obtain ⟨audit, lists⟩ := complete.lists
  obtain ⟨kept, run, keeps, others⟩ := lists.run_unique_capped cap
  have nothing : group.labelled = [] → capped cap (dropRepeats none group.labelled) = [] := by
    intro none
    rw [none]
    exact capped_nil cap
  refine ⟨kept, run, (complete.run_uniqueInPlace cap).trans run,
    ⟨keeps.labelled_eq, lists.length_labels_of keeps nothing, others⟩, fun whole => ?_, ?_,
    fun exact => lists.exactSquares_unique exact run⟩
  · rw [← map_fst_labelled] at whole
    refine ⟨?_, fun item member => ?_⟩
    · rw [← map_index_labelled, keeps.labelled_eq, map_capped, index_dropRepeats whole, map_index_labelled]
    · rw [keeps.labelled_eq] at member
      exact find?_of_mem_firsts whole (capped_subset _ _ member)
  · obtain ⟨again, rerun, keepsAgain, -⟩ := keeps.run_unique_capped cap
    rw [capped_dropRepeats_capped] at keepsAgain
    exact ⟨again, rerun, keepsAgain.features.trans keeps.features.symm, keepsAgain.labels.trans keeps.labels.symm⟩

/-- Three runs under a cap of two. -/
theorem unique_keeps_first_two :
    let letters := [(7, "a"), (7, "b"), (9, "c"), (12, "d")].foldl
      (fun group (index, name) => group.pushLabelled index .one true name "") (Group.named "n" 0)
    ∃ kept, (unique (some 2)).run letters = (.ok (), kept) ∧ (uniqueInPlace (some 2)).run letters = (.ok (), kept) ∧
      CappedFrom (some 2) letters kept ∧ kept.ExactSquares ∧
      kept.features.map Feature.index = [7, 9] ∧ kept.labels.map Label.feature = ["a", "c"] := by
  intro letters
  have contiguous : ¬ Run.Split letters.features := Run.not_split_of_ascending (by decide)
  have exact : letters.ExactSquares := ⟨by decide +kernel, by decide +kernel, by decide +kernel⟩
  have complete : letters.Complete := .inr rfl
  obtain ⟨kept, run, inPlace, left, firsts, again, squares⟩ := complete.unique_keeps_first (some 2)
  refine ⟨kept, run, inPlace, left, squares exact, (firsts contiguous).1.trans (by decide), ?_⟩
  have made : ((unique (some 2)).run letters).2 = kept := congrArg Prod.snd run
  rw [← made]
  decide

end Group

end HashedFeatures
