import HashedFeatures.Proofs.Arrangement.Cycles
import HashedFeatures.Proofs.Group.Unique

/-! The sort of a group as one order of all its entries.

The order is found first. Features and labels are then exchanged along its cycles, each list on its own, and both end
up as the order says: by masked index, then by value, and among ties by the places that they had.
-/

set_option autoImplicit false

namespace HashedFeatures

def Feature.Sooner (mask : UInt64) (left right : Feature × Nat) : Prop :=
  left.1.index &&& mask < right.1.index &&& mask ∨
    left.1.index &&& mask = right.1.index &&& mask ∧
      (left.1.value < right.1.value ∨ (left.1.value == right.1.value) = true ∧ left.2 < right.2)

theorem Feature.sooner_of_ahead {mask : UInt64} {left right : Feature × Nat} (number : left.1.value.isNaN = false)
    (other : right.1.value.isNaN = false) (ahead : Arrangement.Ahead (upTo mask) left right) :
    Sooner mask left right := by
  obtain ⟨forth, tied⟩ := ahead
  unfold Sooner
  rw [UInt64.lt_iff_toNat_lt, ← UInt64.toNat_inj, Binary32.lt_iff number other, Binary32.beq_iff number other]
  simp only [upTo, key, decide_eq_true_iff, Prod.Lex.toLex_le_toLex] at forth tied
  rcases forth with below | ⟨same, upTo⟩
  · exact .inl below
  · right
    refine ⟨same, (lt_or_eq_of_le upTo).imp_right fun equal => ⟨equal, tied (.inr ⟨same.symm, equal.ge⟩)⟩⟩

namespace Group

variable {group : Group} {mask : UInt64}

/-- One order puts the features and their labels where they belong, and they get there by exchanges. -/
structure SortedBy (mask : UInt64) (order : List Nat) (group sorted : Group) : Prop where
  places : order.Perm (List.range group.length)
  entries : sorted.labelled.map some = order.map (group.labelled[·]?)
  labels_length : sorted.labels.length = group.labels.length
  ascends : (sorted.features.zip order).Pairwise (Feature.Sooner mask)
  features_exchanged : Arrangement.exchangeAll (Arrangement.exchanges order) group.features.toArray =
    (sorted.features.toArray, [])
  labels_exchanged : group.isAudited = true →
    Arrangement.exchangeAll (Arrangement.exchanges order) group.labels.toArray = (sorted.labels.toArray, [])
  others : { sorted with features := group.features, labels := group.labels } = group

theorem length_labelled (group : Group) : group.labelled.length = group.length := by
  rw [← List.length_map Prod.fst, map_fst_labelled, length]

theorem Complete.arrange_eq (complete : group.Complete) (order : List Nat) :
    group.arrange order = { group with
      features := Arrangement.pick order group.features
      labels := Arrangement.pick order group.labels } := by
  have beyond : group.labels.drop group.length = [] := by
    rw [List.drop_eq_nil_iff]
    rcases complete with none | full
    · simp [none]
    · exact Nat.le_of_eq full
  rw [arrange, beyond, List.append_nil]

theorem zip_stableOrder (mask : UInt64) (numbers : ∀ f ∈ group.features, f.value.isNaN = false) :
    (Arrangement.pick (Arrangement.stableOrder (Feature.before mask) group.features) group.features).zip
        (Arrangement.stableOrder (Feature.before mask) group.features) =
      Arrangement.sortedPlaces (Feature.upTo mask) group.features := by
  have order : Arrangement.stableOrder (Feature.before mask) group.features =
      (Arrangement.sortedPlaces (Feature.upTo mask) group.features).map Prod.snd := by
    unfold Arrangement.stableOrder Arrangement.sortedPlaces
    rw [← List.map_id (List.mergeSort _ _),
      List.map_mergeSort (s := fun left right => Feature.upTo mask left.1 right.1), List.map_id]
    intro left first right second
    have inside : ∀ entry ∈ group.features.zipIdx, entry.1.value.isNaN = false :=
      fun entry member => numbers entry.1 (List.fst_mem_of_mem_zipIdx member)
    exact (Feature.upTo_eq (inside left first) (inside right second)).symm
  rw [pick_stableOrder_before numbers, order, ← Arrangement.map_fst_sortedPlaces]
  exact (List.zip_of_prod rfl rfl).symm

theorem ascends_sortedPlaces (numbers : ∀ f ∈ group.features, f.value.isNaN = false) :
    (Arrangement.sortedPlaces (Feature.upTo mask) group.features).Pairwise (Feature.Sooner mask) := by
  have inside : ∀ entry ∈ Arrangement.sortedPlaces (Feature.upTo mask) group.features, entry.1.value.isNaN = false :=
    fun entry member => numbers entry.1
      (List.fst_mem_of_mem_zipIdx ((Arrangement.sortedPlaces_perm group.features).mem_iff.1 member))
  exact ((Feature.upTo_orders mask).ahead_sortedPlaces group.features).imp_of_mem fun first second ahead =>
    Feature.sooner_of_ahead (inside _ first) (inside _ second) ahead

theorem Complete.sortedBy_stableOrder (complete : group.Complete) (mask : UInt64)
    (numbers : ∀ f ∈ group.features, f.value.isNaN = false) :
    SortedBy mask (Arrangement.stableOrder (Feature.before mask) group.features) group
      (group.arrange (Arrangement.stableOrder (Feature.before mask) group.features)) := by
  have places := Arrangement.stableOrder_perm (Feature.before mask) group.features
  obtain ⟨audit, lists⟩ := complete.lists
  have labelled := (lists.arrange (Arrangement.stableOrder (Feature.before mask) group.features)).labelled_eq
  have zipped := zip_stableOrder mask numbers
  generalize Arrangement.stableOrder (Feature.before mask) group.features = order at *
  have inside : ∀ place ∈ order, place < group.labelled.length := by
    intro place member
    rw [length_labelled]
    exact List.mem_range.1 (places.mem_iff.1 member)
  have arranged := complete.arrange_eq order
  have labels : group.isAudited = true → order.Perm (List.range group.labels.length) := by
    intro audited
    rwa [complete.length_labels audited]
  refine ⟨places, ?_, ?_, ?_, ?_, fun audited => ?_, rfl⟩
  · rw [labelled]
    exact Arrangement.map_some_pick inside
  · rw [arranged]
    cases audited : group.isAudited with
    | false =>
      rw [isAudited_eq_false_iff.1 audited]
      simp [Arrangement.pick]
    | true => exact (Arrangement.pick_perm (labels audited)).length_eq
  · rw [arranged, zipped]
    exact ascends_sortedPlaces numbers
  · rw [arranged]
    exact Arrangement.exchangeAll_exchanges places
  · rw [arranged]
    exact Arrangement.exchangeAll_exchanges (labels audited)

/-- Where there is a label for every feature, exchanging them one by one arranges the group. -/
theorem Complete.run_exchangeAll (complete : group.Complete) (audited : group.isAudited = true) {order : List Nat}
    (places : order.Perm (List.range group.length)) :
    (exchangeAll order).run group = (.ok (), group.arrange order) := by
  have labels : order.Perm (List.range group.labels.length) := by rwa [complete.length_labels audited]
  rw [complete.arrange_eq]
  have all : (Arrangement.exchanges order).take ((Arrangement.exchanges order).length - 0 + 1) =
      Arrangement.exchanges order := List.take_of_length_le (Nat.le_succ _)
  unfold exchangeAll
  rw [Attempt.run_make]
  dsimp only
  rw [Arrangement.exchangeAll_exchanges labels]
  dsimp only
  rw [List.length_nil, all, Arrangement.exchangeAll_exchanges places]
  rfl

/-- A group whose values all compare is sorted stably, features and labels alike. -/
theorem Complete.sort_stably (complete : group.Complete) (comparable : group.isComparable = true) (mask : UInt64) :
    (group.isEmpty = true → (sort mask).run group = (.ok false, group)) ∧
      (group.isEmpty = false → ∃ order sorted,
        (sort mask).run group = (.ok true, sorted) ∧ SortedBy mask order group sorted) := by
  have found : group.order mask = .ok (Arrangement.stableOrder (Feature.before mask) group.features) :=
    if_pos comparable
  have labelled : group.isAudited = true → group.length ≤ group.labels.length :=
    fun audited => (complete.length_labels audited).ge
  have sorted := complete.sortedBy_stableOrder mask (numbers_of_isComparable comparable)
  exact ⟨run_sort_of_isEmpty mask, fun present => ⟨_, _, run_sort_of_order present found labelled, sorted⟩⟩

/-- Three labelled features that the sort rotates. -/
theorem sort_stably_rotated :
    let letters := [(3, "c"), (1, "a"), (0x102, "b")].foldl
      (fun group (index, name) => group.pushLabelled index .one true name "") (Group.named "n" 0)
    ∃ order sorted, (sort 0xff).run letters = (.ok true, sorted) ∧ SortedBy 0xff order letters sorted ∧
      sorted.labels.map Label.feature = ["a", "b", "c"] := by
  intro letters
  have order : Arrangement.stableOrder (Feature.before 0xff) letters.features = [1, 2, 0] := by
    have first : Feature.before 0xff ⟨1, .one⟩ ⟨3, .one⟩ = true := by decide
    have second : Feature.before 0xff ⟨0x102, .one⟩ ⟨1, .one⟩ = false := by decide
    have third : Feature.before 0xff ⟨0x102, .one⟩ ⟨3, .one⟩ = true := by decide
    have features : letters.features = [⟨3, .one⟩, ⟨1, .one⟩, ⟨0x102, .one⟩] := rfl
    simp [features, Arrangement.stableOrder, List.mergeSort, first, second, third]
  have complete : letters.Complete := .inr rfl
  have comparable : letters.isComparable = true := by decide
  have found : letters.order 0xff = .ok [1, 2, 0] := by rw [Group.order, if_pos comparable, order]
  obtain ⟨places, sorted, run, same⟩ := (complete.sort_stably comparable 0xff).2 rfl
  refine ⟨places, sorted, run, same, ?_⟩
  rw [run_sort_of_order rfl found (fun _ => Nat.le_refl 3)] at run
  have arranged : letters.arrange [1, 2, 0] = sorted := congrArg Prod.snd run
  rw [← arranged]
  rfl

end Group

end HashedFeatures
