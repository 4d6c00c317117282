import HashedFeatures.Proofs.Attempt.Invariant
import HashedFeatures.Proofs.Group.Interleaved
import HashedFeatures.Proofs.Group.Pieces

/-! Sorting a group and dropping repeated indices, labels included.

The sort arranges the features together with their labels, and of each run the first one stays with its label.
-/

set_option autoImplicit false

namespace HashedFeatures

theorem filterMap_head?_sublist {α : Type} (pieces : List (List α)) :
    (pieces.filterMap List.head?).Sublist pieces.flatten := by
  induction pieces with
  | nil => exact .slnil
  | cons piece pieces ih =>
    cases piece with
    | nil => exact ih
    | cons first rest => exact .cons_cons first (ih.trans (List.sublist_append_right rest pieces.flatten))

namespace Group

variable {group : Group} {audit : Bool} {entries : List (Feature × Option Label)} {mask : UInt64}

namespace Lists

theorem isEmpty_eq (lists : group.Lists audit entries) : group.isEmpty = entries.isEmpty := by
  rw [isEmpty, lists.features, List.isEmpty_map]

theorem isAudited_eq (lists : group.Lists audit entries) : group.isAudited = (audit && !entries.isEmpty) := by
  rw [isAudited, lists.labels]
  cases audit <;> cases entries <;> rfl

theorem arrange (lists : group.Lists audit entries) (order : List Nat) :
    (group.arrange order).Lists audit (Arrangement.pick order entries) where
  features := by
    rw [Group.arrange, lists.features, Arrangement.pick_map]
  labels := by
    have beyond : group.labels.drop group.length = [] := by
      rw [List.drop_eq_nil_iff, lists.length_labels]
      split <;> omega
    rw [Group.arrange, beyond, List.append_nil, lists.labels]
    cases audit with
    | true => rw [if_pos rfl, if_pos rfl, Arrangement.pick_map]
    | false => simp [Arrangement.pick]
  each entry member := by
    obtain ⟨place, -, found⟩ := List.mem_filterMap.1 member
    exact lists.each entry (List.mem_of_getElem? (List.getElem?_toArray ▸ found))

theorem run_sort (lists : group.Lists audit entries) (mask : UInt64) (comparable : group.isComparable = true) :
    ∃ sorted, (Group.sort mask).run group = (.ok (!group.isEmpty), sorted) ∧
      sorted.Lists audit (entries.mergeSort fun left right => Feature.upTo mask left.1 right.1) ∧
      { sorted with features := group.features, labels := group.labels } = group := by
  cases empty : group.isEmpty with
  | true =>
    obtain rfl : entries = [] := List.isEmpty_iff.1 (lists.isEmpty_eq ▸ empty)
    rw [List.mergeSort_nil]
    exact ⟨group, run_sort_of_isEmpty mask empty, lists, rfl⟩
  | false =>
    have numbers := numbers_of_isComparable comparable
    rw [lists.features] at numbers
    have found : group.order mask =
        .ok (Arrangement.stableOrder (fun left right => Feature.before mask left.1 right.1) entries) := by
      rw [Group.order, if_pos comparable, lists.features, Arrangement.stableOrder_map]
    have sorted : Arrangement.pick
        (Arrangement.stableOrder (fun left right => Feature.before mask left.1 right.1) entries) entries =
          entries.mergeSort fun left right => Feature.upTo mask left.1 right.1 := by
      rw [Arrangement.pick_stableOrder, ← List.map_id (List.mergeSort _ _),
        List.map_mergeSort (s := fun left right => Feature.upTo mask left.1 right.1), List.map_id]
      intro left first right second
      exact (Feature.upTo_eq (numbers _ (List.mem_map_of_mem first)) (numbers _ (List.mem_map_of_mem second))).symm
    refine ⟨_, run_sort_of_order empty found fun audited => ?_, sorted ▸ lists.arrange _, rfl⟩
    rw [lists.isAudited_eq, Bool.and_eq_true] at audited
    rw [lists.length_labels, if_pos audited.1]

end Lists

def entryRuns (entries : List (Feature × Option Label)) : List (List (Feature × Option Label)) :=
  entries.splitBy fun left right => left.1.index == right.1.index

def entryRunsUpTo (cap : Option Nat) (entries : List (Feature × Option Label)) :
    List (List (Feature × Option Label)) :=
  match cap with
  | some n => (entryRuns entries).take n
  | none => entryRuns entries

def firstEntries (cap : Option Nat) (entries : List (Feature × Option Label)) : List (Feature × Option Label) :=
  (entryRunsUpTo cap entries).filterMap List.head?

theorem exists_entryRunsUpTo (cap : Option Nat) (entries : List (Feature × Option Label)) :
    ∃ behind, (entryRunsUpTo cap entries).flatten ++ behind = entries := by
  have whole : (entryRuns entries).flatten = entries := List.flatten_splitBy _ _
  cases cap with
  | none => exact ⟨[], by rw [List.append_nil]; exact whole⟩
  | some n =>
    refine ⟨((entryRuns entries).drop n).flatten, ?_⟩
    rw [entryRunsUpTo, ← List.flatten_append, List.take_append_drop, whole]

theorem firstEntries_sublist (cap : Option Nat) (entries : List (Feature × Option Label)) :
    (firstEntries cap entries).Sublist entries := by
  obtain ⟨behind, cut⟩ := exists_entryRunsUpTo cap entries
  have front := (filterMap_head?_sublist (entryRunsUpTo cap entries)).trans (List.sublist_append_left _ behind)
  rwa [cut] at front

def OfPiece (run : Run) (piece : List (Feature × Option Label)) : Prop := run.features = piece.map Prod.fst

theorem OfPiece.sameLength {run : Run} {piece : List (Feature × Option Label)} (same : OfPiece run piece) :
    run.SameLength piece := by
  have lengths := congrArg List.length same
  rw [List.length_map] at lengths
  exact lengths.symm

theorem map_first_eq {runs : List Run} {pieces : List (List (Feature × Option Label))}
    (same : List.Forall₂ OfPiece runs pieces) :
    runs.map Run.first = (pieces.filterMap List.head?).map Prod.fst := by
  induction same with
  | nil => rfl
  | @cons run piece runs pieces own _ ih =>
    cases piece with
    | nil => cases own
    | cons entry piece =>
      obtain ⟨first, -⟩ := List.cons.inj own
      rw [List.map_cons, first, ih]
      rfl

namespace Lists

theorem runs (lists : group.Lists audit entries) :
    List.Forall₂ OfPiece (Run.ofFeatures group.features) (entryRuns entries) := by
  have own : List.Forall₂ (fun f entry => f = Prod.fst entry) group.features entries := by
    rw [lists.features, List.forall₂_map_left_iff, List.forall₂_same]
    exact fun _ _ => rfl
  have agree : ∀ f g (left right : Feature × Option Label), f = left.1 → g = right.1 →
      (f.index == g.index) = (left.1.index == right.1.index) := by
    rintro _ _ left right rfl rfl
    rfl
  have cut := forall₂_splitBy agree own
  rw [← Run.map_features_ofFeatures, List.forall₂_map_left_iff] at cut
  refine cut.imp fun run piece same => ?_
  rw [OfPiece, ← List.forall₂_eq_eq_eq, List.forall₂_map_right_iff]
  exact same

theorem keepRuns (lists : group.Lists audit entries) {runs : List Run}
    {pieces : List (List (Feature × Option Label))} {behind : List (Feature × Option Label)}
    (same : List.Forall₂ OfPiece runs pieces) (cut : pieces.flatten ++ behind = entries) (needed : Nat × Nat → Bool) :
    ∃ labels, group.labelsOf needed (Run.starts runs) = .ok labels ∧
      Lists audit (recompute { group with features := runs.map Run.first, labels }) (pieces.filterMap List.head?) := by
  have labels := lists.labels
  rw [← cut] at labels
  have read := labelsOf_starts labelIn (same.imp fun _ _ => OfPiece.sameLength) labels needed
  refine ⟨_, read, map_first_eq same, rfl, fun entry member => lists.each entry ?_⟩
  rw [← cut]
  exact List.mem_append_left _ ((filterMap_head?_sublist pieces).subset member)

/-- Of each run the first feature stays with its label, and the squares of those that stay are summed up again. -/
theorem keepFirsts (lists : group.Lists audit entries) (cap : Option Nat) :
    ∃ kept : Group, group.keepFirsts cap = (.ok (), kept) ∧ kept.Lists audit (firstEntries cap entries) ∧
      kept = recompute { group with features := kept.features, labels := kept.labels } := by
  obtain ⟨behind, cut⟩ := exists_entryRunsUpTo cap entries
  unfold Group.keepFirsts
  cases cap with
  | some n =>
    obtain ⟨labels, read, kept⟩ := lists.keepRuns (List.forall₂_take n lists.runs) cut fun move => move.1 ≠ move.2
    dsimp only
    rw [read]
    exact ⟨_, rfl, kept, rfl⟩
  | none =>
    obtain ⟨labels, read, kept⟩ := lists.keepRuns lists.runs cut fun move => move.1 ≠ move.2
    dsimp only
    rw [read]
    exact ⟨_, rfl, kept, rfl⟩

theorem run_unique (lists : group.Lists audit entries) :
    ∃ kept : Group, (Group.unique none).run group = (.ok (), kept) ∧ kept.Lists audit (firstEntries none entries) ∧
      (group.isEmpty = false → kept = recompute { group with features := kept.features, labels := kept.labels }) := by
  unfold Group.unique
  rw [Attempt.run_make]
  cases empty : group.isEmpty with
  | true =>
    obtain rfl : entries = [] := List.isEmpty_iff.1 (lists.isEmpty_eq ▸ empty)
    exact ⟨group, rfl, lists, nofun⟩
  | false =>
    obtain ⟨kept, run, keeps, same⟩ := lists.keepFirsts none
    exact ⟨kept, run, keeps, fun _ => same⟩

end Lists

end Group

end HashedFeatures
