import HashedFeatures.Group.Merge
import HashedFeatures.Proofs.Weights.Memory
import Mathlib.Data.List.Nodup

/-! Runs of equal indices, and what merging them makes of a group.

The runs cut the features into pieces of one index. An index has a single run unless a feature with
another index stands between two features that have it.
-/

set_option autoImplicit false

namespace HashedFeatures

def Binary32.sum : List Float32 → Float32
  | [] => 0
  | first :: rest => rest.foldl (· + ·) first

namespace Run

def features (run : Run) : List Feature := run.first :: run.rest

def index (run : Run) : UInt64 := run.first.index

def Constant (run : Run) : Prop := ∀ f ∈ run.features, f.index = run.index

/-- Two features with one index, and one with another index between them. -/
def Split (features : List Feature) : Prop :=
  ∃ a b c, [a, b, c].Sublist features ∧ a.index = c.index ∧ b.index ≠ a.index

@[simp] theorem index_merged (run : Run) : run.merged.index = run.index := rfl

theorem value_merged (run : Run) : run.merged.value = Binary32.sum (run.features.map Feature.value) := by
  have added : (run.rest.map Feature.value).foldl (· + ·) run.first.amount.number = run.merged.amount.number := by
    rw [List.foldl_map]
    exact List.foldl_hom Single.number fun _ _ => rfl
  exact added.symm

@[simp] theorem ofFeatures_nil : ofFeatures [] = [] := rfl

theorem ofFeatures_cons (f : Feature) (features : List Feature) :
    ofFeatures (f :: features) = cons f (ofFeatures features) := rfl

theorem cons_of_eq {f : Feature} {run : Run} {runs : List Run} (same : f.index = run.index) :
    cons f (run :: runs) = ⟨f, run.features⟩ :: runs := if_pos same

theorem cons_of_ne {f : Feature} {run : Run} {runs : List Run} (other : f.index ≠ run.index) :
    cons f (run :: runs) = ⟨f, []⟩ :: run :: runs := if_neg other

theorem flatMap_cons (f : Feature) (runs : List Run) :
    (cons f runs).flatMap features = f :: runs.flatMap features := by
  cases runs with
  | nil => rfl
  | cons run runs =>
    by_cases same : f.index = run.index
    · rw [cons_of_eq same]
      rfl
    · rw [cons_of_ne same]
      rfl

theorem constant_cons {f : Feature} {runs : List Run} (constant : ∀ run ∈ runs, run.Constant) :
    ∀ run ∈ cons f runs, run.Constant := by
  have alone : Constant ⟨f, []⟩ := by
    intro g member
    rw [List.mem_singleton.1 member]
    rfl
  cases runs with
  | nil =>
    intro run member
    rw [List.mem_singleton.1 member]
    exact alone
  | cons next runs =>
    by_cases same : f.index = next.index
    · rw [cons_of_eq same, List.forall_mem_cons]
      refine ⟨?_, fun run member => constant run (by simp [member])⟩
      intro g member
      rcases List.mem_cons.1 member with rfl | member
      · rfl
      · exact (constant next (by simp) g member).trans same.symm
    · rw [cons_of_ne same, List.forall_mem_cons]
      exact ⟨alone, constant⟩

-- The runs cut the features into pieces.
theorem flatMap_ofFeatures (list : List Feature) : (ofFeatures list).flatMap features = list := by
  induction list with
  | nil => rfl
  | cons f rest ih => rw [ofFeatures_cons, flatMap_cons, ih]

theorem constant_ofFeatures (list : List Feature) : ∀ run ∈ ofFeatures list, run.Constant := by
  induction list with
  | nil => simp
  | cons f rest ih => exact constant_cons ih

theorem firsts_sublist (list : List Feature) : ((ofFeatures list).map first).Sublist list := by
  have heads : ∀ runs : List Run, (runs.map first).Sublist (runs.flatMap features) := by
    intro runs
    induction runs with
    | nil => exact .slnil
    | cons run runs ih => exact .cons_cons _ (ih.trans (List.sublist_append_right _ _))
  have cut := heads (ofFeatures list)
  rwa [flatMap_ofFeatures] at cut

theorem mem_indices {list : List Feature} {i : UInt64} :
    i ∈ (ofFeatures list).map index ↔ ∃ f ∈ list, f.index = i := by
  constructor
  · intro member
    obtain ⟨run, inside, rfl⟩ := List.mem_map.1 member
    exact ⟨run.first, (firsts_sublist list).subset (List.mem_map_of_mem inside), rfl⟩
  · rintro ⟨f, member, rfl⟩
    rw [← flatMap_ofFeatures list] at member
    obtain ⟨run, inside, member⟩ := List.mem_flatMap.1 member
    exact List.mem_map.2 ⟨run, inside, (constant_ofFeatures list run inside f member).symm⟩

theorem ofFeatures_head (f : Feature) (rest : List Feature) :
    ∃ run runs, ofFeatures (f :: rest) = run :: runs ∧ run.first = f := by
  rw [ofFeatures_cons]
  cases ofFeatures rest with
  | nil => exact ⟨_, _, rfl, rfl⟩
  | cons next runs =>
    by_cases same : f.index = next.index
    · exact ⟨_, _, cons_of_eq same, rfl⟩
    · exact ⟨_, _, cons_of_ne same, rfl⟩

theorem split_cons {f g : Feature} {rest : List Feature} :
    Split (f :: g :: rest) ↔ Split (g :: rest) ∨ f.index ≠ g.index ∧ ∃ c ∈ g :: rest, c.index = f.index := by
  constructor
  · rintro ⟨a, b, c, inside, same, other⟩
    cases inside with
    | cons _ inside => exact .inl ⟨a, b, c, inside, same, other⟩
    | cons_cons _ inside =>
      by_cases run : f.index = g.index
      · -- The second feature can stand in for the first, and it is not the one between.
        left
        cases inside with
        | cons _ inside => exact ⟨g, b, c, inside.cons_cons g, run.symm.trans same, run ▸ other⟩
        | cons_cons _ inside => exact absurd run.symm other
      · exact .inr ⟨run, c, inside.subset (by simp), same.symm⟩
  · rintro (⟨a, b, c, inside, same, other⟩ | ⟨run, c, member, same⟩)
    · exact ⟨a, b, c, inside.cons f, same, other⟩
    · rcases List.mem_cons.1 member with rfl | member
      · exact absurd same.symm run
      · refine ⟨f, g, c, ?_, same.symm, Ne.symm run⟩
        exact ((List.singleton_sublist.2 member).cons_cons g).cons_cons f

/-- Each index has one run, unless another index stands between two features that have it. -/
theorem nodup_indices_iff (list : List Feature) : ((ofFeatures list).map index).Nodup ↔ ¬ Split list := by
  induction list with
  | nil => simp [Split]
  | cons f rest ih =>
    cases rest with
    | nil =>
      have short : ¬ Split [f] := by
        rintro ⟨a, b, c, inside, -⟩
        exact absurd inside.length_le (by simp)
      simp [ofFeatures, cons, short]
    | cons g more =>
      obtain ⟨run, runs, found, rfl⟩ := ofFeatures_head g more
      have indices := @mem_indices (run.first :: more) f.index
      rw [found] at ih indices
      rw [split_cons, not_or, not_and, ← ih, ofFeatures_cons, found]
      -- The feature lengthens the first run, or it makes a run of its own.
      by_cases same : f.index = run.index
      · have merged : index ⟨f, run.features⟩ = run.index := same
        rw [cons_of_eq same, List.map_cons, merged, ← List.map_cons]
        exact ⟨fun distinct => ⟨distinct, fun other => absurd same other⟩, And.left⟩
      · have alone : index ⟨f, []⟩ = f.index := rfl
        rw [cons_of_ne same, List.map_cons, List.nodup_cons, alone, indices]
        exact ⟨fun ⟨fresh, distinct⟩ => ⟨distinct, fun _ => fresh⟩, fun ⟨distinct, fresh⟩ => ⟨fresh same, distinct⟩⟩

theorem Constant.filter_self {run : Run} (constant : run.Constant) :
    run.features.filter (fun f => f.index == run.index) = run.features := by
  rw [List.filter_eq_self]
  intro f member
  exact beq_iff_eq.2 (constant f member)

theorem Constant.filter_other {run : Run} (constant : run.Constant) {i : UInt64} (other : run.index ≠ i) :
    run.features.filter (fun f => f.index == i) = [] := by
  rw [List.filter_eq_nil_iff]
  intro f member same
  exact other ((constant f member).symm.trans (beq_iff_eq.1 same))

theorem filter_flatMap {runs : List Run} (constant : ∀ run ∈ runs, run.Constant) (distinct : (runs.map index).Nodup)
    {run : Run} (member : run ∈ runs) :
    (runs.flatMap features).filter (fun f => f.index == run.index) = run.features := by
  induction runs with
  | nil => cases member
  | cons next runs ih =>
    obtain ⟨fresh, distinct⟩ := List.nodup_cons.1 distinct
    obtain ⟨own, others⟩ := List.forall_mem_cons.1 constant
    rw [List.flatMap_cons, List.filter_append]
    rcases List.mem_cons.1 member with rfl | member
    · have none : (runs.flatMap features).filter (fun f => f.index == run.index) = [] := by
        rw [List.filter_flatMap, List.flatMap_eq_nil_iff]
        intro other inside
        apply (others other inside).filter_other
        intro same
        exact fresh (List.mem_map.2 ⟨other, inside, same⟩)
      rw [own.filter_self, none, List.append_nil]
    · have other : next.index ≠ run.index := by
        intro same
        exact fresh (List.mem_map.2 ⟨run, member, same.symm⟩)
      rw [own.filter_other other, List.nil_append, ih others distinct member]

theorem features_eq_filter {list : List Feature} (distinct : ((ofFeatures list).map index).Nodup) {run : Run}
    (member : run ∈ ofFeatures list) : run.features = list.filter fun f => f.index == run.index := by
  have cut := filter_flatMap (constant_ofFeatures list) distinct member
  rw [flatMap_ofFeatures] at cut
  exact cut.symm

end Run

namespace Group

theorem run_mergeRuns {group : Group} (unlabelled : group.labels = []) :
    mergeRuns.run group =
      let merged := (Run.ofFeatures group.features).map Run.merged
      (.ok (addSquares 0 merged), { group with features := merged, sumSquares := addSquares 0 merged }) := by
  have plain : group.isAudited = false := by rw [isAudited, unlabelled]; rfl
  unfold mergeRuns
  rw [Attempt.run_make]
  by_cases empty : group.isEmpty = true
  · have none : group.features = [] := List.isEmpty_iff.1 empty
    obtain ⟨_, _, _, _, _, _⟩ := group
    subst none
    rfl
  · simp only [empty, labelsOf, plain]
    obtain ⟨_, _, _, _, _, _⟩ := group
    subst unlabelled
    rfl

end Group

end HashedFeatures
