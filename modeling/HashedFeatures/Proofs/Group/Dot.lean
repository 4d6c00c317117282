import HashedFeatures.Group.Dot
import HashedFeatures.Proofs.Binary32.Product

/-! The inner product of two groups.

A merge of two ascending lists skips only indices that the other list does not have. So it sums up over the common
indices where every index stands once, it does not matter which group stands on the left, and a group meets itself
feature by feature, also where an index is repeated.
-/

set_option autoImplicit false

namespace HashedFeatures

namespace Group

def indices (group : Group) : List UInt64 := group.features.map Feature.index

def Ascending (group : Group) : Prop := group.indices.Pairwise (· ≤ ·)

def StrictlyAscending (group : Group) : Prop := group.indices.Pairwise (· < ·)

instance (group : Group) : Decidable group.Ascending :=
  inferInstanceAs (Decidable (group.indices.Pairwise (· ≤ ·)))

instance (group : Group) : Decidable group.StrictlyAscending :=
  inferInstanceAs (Decidable (group.indices.Pairwise (· < ·)))

/-- The value of the first feature with an index, zero where there is none. -/
def valueAt (group : Group) (index : UInt64) : Float32 :=
  ((group.features.find? (·.index == index)).map Feature.value).getD 0

variable {left right group : Group}

theorem StrictlyAscending.ascending (strict : group.StrictlyAscending) : group.Ascending :=
  strict.imp fun below => UInt64.le_of_lt below

theorem find?_index_of_mem {features : List Feature} (strict : (features.map Feature.index).Pairwise (· < ·))
    {f : Feature} (member : f ∈ features) : features.find? (·.index == f.index) = some f := by
  induction features with
  | nil => cases member
  | cons g rest ih =>
    obtain ⟨below, others⟩ := List.pairwise_cons.1 strict
    rw [List.find?_cons]
    rcases List.mem_cons.1 member with rfl | later
    · rw [beq_self_eq_true]
    · have other : g.index ≠ f.index := UInt64.ne_of_lt (below _ (List.mem_map_of_mem later))
      rw [beq_false_of_ne other]
      exact ih others later

theorem StrictlyAscending.valueAt_of_mem (strict : group.StrictlyAscending) {f : Feature}
    (member : f ∈ group.features) : group.valueAt f.index = f.value := by
  rw [valueAt, find?_index_of_mem strict member]
  rfl

/-! ## The checks -/

theorem isAscending_iff (features : List Feature) :
    isAscending features = true ↔ (features.map Feature.index).Pairwise (· ≤ ·) := by
  rw [← List.isChain_iff_pairwise]
  induction features with
  | nil => simp [isAscending]
  | cons f rest ih =>
    cases rest with
    | nil => simp [isAscending]
    | cons g rest =>
      rw [List.map_cons, List.map_cons, List.isChain_cons_cons, ← List.map_cons, ← ih, isAscending, Bool.and_eq_true,
        decide_eq_true_iff]

theorem dot_of_ascending (first : left.Ascending) (second : right.Ascending) :
    left.dot right = .ok (addProducts 0 left.features right.features) := by
  have passed := (isAscending_iff left.features).2 first
  have passed' := (isAscending_iff right.features).2 second
  simp only [dot, passed, passed', Bool.not_true, Bool.false_eq_true, if_false]

theorem dot_of_left (unsorted : ¬ left.Ascending) : left.dot right = .error .leftUnsorted := by
  have failed : isAscending left.features = false :=
    Bool.eq_false_iff.2 fun passed => unsorted ((isAscending_iff _).1 passed)
  simp only [dot, failed, Bool.not_false, if_true]

theorem dot_of_right (first : left.Ascending) (unsorted : ¬ right.Ascending) :
    left.dot right = .error .rightUnsorted := by
  have passed := (isAscending_iff left.features).2 first
  have failed : isAscending right.features = false :=
    Bool.eq_false_iff.2 fun passed => unsorted ((isAscending_iff _).1 passed)
  simp only [dot, passed, failed, Bool.not_true, Bool.not_false, Bool.false_eq_true, if_false, if_true]

/-! ## The merge -/

/-- The mirrored merge makes the mirrored moves. -/
theorem addProducts_comm (sum : Float32) (features others : List Feature) :
    addProducts sum features others = addProducts sum others features := by
  fun_induction addProducts sum features others with
  | case1 sum f features g others same ih =>
    rw [addProducts, if_pos same.symm, ih, Binary32.mul_comm]
  | case2 sum f features g others other below ih =>
    rw [ih, addProducts, if_neg (Ne.symm other), if_neg (UInt64.lt_asymm below)]
  | case3 sum f features g others other below ih =>
    have above : g.index < f.index := UInt64.lt_of_le_of_ne (UInt64.not_lt.1 below) (Ne.symm other)
    rw [ih, addProducts, if_neg (Ne.symm other), if_pos above]
  | case4 sum features others ended =>
    cases features with
    | nil => cases others <;> simp [addProducts]
    | cons f features =>
      cases others with
      | nil => simp [addProducts]
      | cons g others => exact (ended f features g others rfl rfl).elim

/-- Every feature meets itself, also behind another one with its index. -/
theorem addProducts_self (sum : Float32) (features : List Feature) :
    addProducts sum features features = addSquares sum features := by
  induction features generalizing sum with
  | nil => simp [addProducts, addSquares]
  | cons f rest ih =>
    rw [addProducts, if_pos rfl, ih]
    rfl

def commonIndices (features others : List Feature) : List UInt64 :=
  (features.map Feature.index).filter (· ∈ others.map Feature.index)

theorem commonIndices_cons_of_mem {f : Feature} {features others : List Feature}
    (shared : f.index ∈ others.map Feature.index) :
    commonIndices (f :: features) others = f.index :: commonIndices features others := by
  rw [commonIndices, List.map_cons, List.filter_cons_of_pos (by simpa using shared)]
  rfl

theorem commonIndices_cons_of_notMem {f : Feature} {features others : List Feature}
    (alone : f.index ∉ others.map Feature.index) :
    commonIndices (f :: features) others = commonIndices features others := by
  rw [commonIndices, List.map_cons, List.filter_cons_of_neg (by simpa using alone)]
  rfl

theorem commonIndices_cons_right {g : Feature} {features others : List Feature}
    (alone : g.index ∉ features.map Feature.index) :
    commonIndices features (g :: others) = commonIndices features others := by
  apply List.filter_congr
  intro i member
  have other : i ≠ g.index := fun same => alone (same ▸ member)
  simp [other]

/-- Where every index stands once, a feature that is skipped has no partner in what is left of the other list. -/
theorem addProducts_eq_foldl (sum : Float32) (features others : List Feature) {value otherValue : UInt64 → Float32}
    (strict : (features.map Feature.index).Pairwise (· < ·)) (strict' : (others.map Feature.index).Pairwise (· < ·))
    (values : ∀ f ∈ features, value f.index = f.value) (otherValues : ∀ g ∈ others, otherValue g.index = g.value) :
    addProducts sum features others =
      (commonIndices features others).foldl (fun sum i => sum + value i * otherValue i) sum := by
  fun_induction addProducts sum features others with
  | case1 sum f features g others same ih =>
    obtain ⟨below, strict⟩ := List.pairwise_cons.1 strict
    obtain ⟨-, strict'⟩ := List.pairwise_cons.1 strict'
    obtain ⟨here, values⟩ := List.forall_mem_cons.1 values
    obtain ⟨there, otherValues⟩ := List.forall_mem_cons.1 otherValues
    have met : g.index ∉ features.map Feature.index := fun later =>
      UInt64.lt_irrefl _ (same ▸ below _ later)
    rw [ih strict strict' values otherValues, commonIndices_cons_of_mem (by simp [same]),
      commonIndices_cons_right met, List.foldl_cons, here, same, there]
  | case2 sum f features g others other below ih =>
    have alone : f.index ∉ (g :: others).map Feature.index := by
      intro later
      rcases List.mem_cons.1 later with same | later
      · exact other same
      · exact UInt64.lt_irrefl _ (UInt64.lt_trans below (List.rel_of_pairwise_cons strict' later))
    rw [ih (List.pairwise_cons.1 strict).2 strict' (List.forall_mem_cons.1 values).2 otherValues,
      commonIndices_cons_of_notMem alone]
  | case3 sum f features g others other below ih =>
    have above : g.index < f.index := UInt64.lt_of_le_of_ne (UInt64.not_lt.1 below) (Ne.symm other)
    have alone : g.index ∉ (f :: features).map Feature.index := by
      intro later
      rcases List.mem_cons.1 later with same | later
      · exact other same.symm
      · exact UInt64.lt_irrefl _ (UInt64.lt_trans above (List.rel_of_pairwise_cons strict later))
    rw [ih strict (List.pairwise_cons.1 strict').2 values (List.forall_mem_cons.1 otherValues).2,
      commonIndices_cons_right alone]
  | case4 sum features others ended =>
    cases features with
    | nil => rfl
    | cons f features =>
      cases others with
      | nil => rw [commonIndices, List.filter_eq_nil_iff.2 (by simp)]; rfl
      | cons g others => exact (ended f features g others rfl rfl).elim

theorem commonIndices_unique {features others : List Feature} {common : List UInt64}
    (strict : (features.map Feature.index).Pairwise (· < ·)) (ascends : common.Pairwise (· < ·))
    (members : ∀ i, i ∈ common ↔ i ∈ features.map Feature.index ∧ i ∈ others.map Feature.index) :
    common = commonIndices features others := by
  have ascends' : (commonIndices features others).Pairwise (· < ·) := strict.sublist List.filter_sublist
  have same : common.Perm (commonIndices features others) := by
    rw [List.perm_ext_iff_of_nodup (ascends.imp UInt64.ne_of_lt) (ascends'.imp UInt64.ne_of_lt)]
    intro i
    rw [members, commonIndices, List.mem_filter, decide_eq_true_iff]
  exact same.eq_of_pairwise (fun _ _ _ _ forth back => (UInt64.lt_asymm forth back).elim) ascends ascends'

/-- The inner product: a fold over the common indices where no index is repeated; where indices are repeated it still
does not depend on which group stands on the left, and of a group with itself it is the sum of all squares. A group out
of order is refused, the left one first. -/
theorem dot_folds_common (left right : Group) :
    (left.StrictlyAscending → right.StrictlyAscending →
      ∀ common : List UInt64, common.Pairwise (· < ·) → (∀ i, i ∈ common ↔ i ∈ left.indices ∧ i ∈ right.indices) →
        left.dot right = .ok (common.foldl (fun sum i => sum + left.valueAt i * right.valueAt i) 0)) ∧
    (left.Ascending → right.Ascending → left.dot right = right.dot left) ∧
    (left.Ascending → left.dot left = .ok (left.features.foldl (fun sum f => sum + f.value * f.value) 0)) ∧
    (¬ left.Ascending → left.dot right = .error .leftUnsorted) ∧
    (left.Ascending → ¬ right.Ascending → left.dot right = .error .rightUnsorted) := by
  refine ⟨fun first second common ascends members => ?_, fun first second => ?_, fun first => ?_, dot_of_left,
    dot_of_right⟩
  · rw [dot_of_ascending first.ascending second.ascending, commonIndices_unique first ascends members]
    exact congrArg Except.ok (addProducts_eq_foldl 0 _ _ first second (fun _ => first.valueAt_of_mem)
      fun _ => second.valueAt_of_mem)
  · rw [dot_of_ascending first second, dot_of_ascending second first, addProducts_comm]
  · rw [dot_of_ascending first first, addProducts_self]
    rfl

/-- Two groups with two indices in common, and one that repeats an index. -/
theorem dot_folds_common_pair :
    let amount (number : Float32) : Single := .ofFloat number
    let left := Group.empty.append [⟨2, amount 3⟩, ⟨5, amount 7⟩, ⟨9, amount 2⟩]
    let right := Group.empty.append [⟨1, amount 4⟩, ⟨2, amount 5⟩, ⟨9, amount 6⟩]
    let twice := Group.empty.append [⟨2, amount 3⟩, ⟨2, amount 7⟩]
    left.dot right = .ok (0 + 3 * 5 + 2 * 6) ∧ left.dot twice = twice.dot left ∧
      twice.dot twice = .ok (0 + 3 * 3 + 7 * 7) ∧
      left.dot (right.append twice.features) = .error .rightUnsorted ∧
      (right.append twice.features).dot left = .error .leftUnsorted := by
  intro amount left right twice
  have common := (dot_folds_common left right).1 (by decide) (by decide) [2, 9] (by decide) fun i => by
    simp [left, right, indices, Group.append, Group.empty, Group.named]
    grind
  have mirrored := (dot_folds_common left twice).2.1 (by decide) (by decide)
  have itself := (dot_folds_common twice left).2.2.1 (by decide)
  have later := (dot_folds_common left (right.append twice.features)).2.2.2.2 (by decide) (by decide)
  have sooner := (dot_folds_common (right.append twice.features) left).2.2.2.1 (by decide)
  exact ⟨common, mirrored, itself, later, sooner⟩

end Group

end HashedFeatures
