import HashedFeatures.Proofs.Group.Labels
import HashedFeatures.Proofs.Group.Merge
import Mathlib.Data.List.Forall2
import Mathlib.Data.List.SplitBy

/-! Runs of equal indices as the pieces of a list, and where they start.

Lists whose items correspond are cut at the same places. The item at the start of a piece is its first.
-/

set_option autoImplicit false

namespace HashedFeatures

/-! ## Cutting lists that correspond -/

section

variable {α β : Type} {R : α → β → Prop} {joins : α → α → Bool} {others : β → β → Bool}

theorem forall₂_splitBy (agree : ∀ a a' b b', R a b → R a' b' → joins a a' = others b b') {left : List α}
    {right : List β} (same : List.Forall₂ R left right) :
    List.Forall₂ (List.Forall₂ R) (left.splitBy joins) (right.splitBy others) := by
  have cut : ∀ {left : List α} {right : List β} {a : α} {b : β} {piece : List α} {alsoPiece : List β}
      {pieces : List (List α)} {alsoPieces : List (List β)}, List.Forall₂ R left right → R a b →
      List.Forall₂ R piece alsoPiece → List.Forall₂ (List.Forall₂ R) pieces alsoPieces →
      List.Forall₂ (List.Forall₂ R) (List.splitBy.loop joins left a piece pieces)
        (List.splitBy.loop others right b alsoPiece alsoPieces) := by
    intro left right a b piece alsoPiece pieces alsoPieces same
    induction same generalizing a b piece alsoPiece pieces alsoPieces with
    | nil =>
      intro last within before
      exact List.rel_reverse (.cons (List.rel_reverse (.cons last within)) before)
    | cons next rest ih =>
      intro last within before
      unfold List.splitBy.loop
      rw [agree _ _ _ _ last next]
      -- The next item joins the piece of the last one, or the piece is complete.
      split
      · exact ih next (.cons last within) before
      · exact ih next .nil (.cons (List.rel_reverse (.cons last within)) before)
  cases same with
  | nil => exact .nil
  | cons first rest => exact cut rest first .nil .nil

end

namespace Run

-- Neighbouring runs have different indices, or they would be one run.
theorem apart_cons {f : Feature} {runs : List Run} (apart : runs.IsChain fun left right => left.index ≠ right.index) :
    (cons f runs).IsChain fun left right => left.index ≠ right.index := by
  cases runs with
  | nil => exact List.isChain_singleton _
  | cons next runs =>
    by_cases same : f.index = next.index
    · rw [cons_of_eq same]
      rw [List.isChain_cons] at apart ⊢
      refine ⟨fun other inside => ?_, apart.2⟩
      have own : index ⟨f, next.features⟩ = next.index := same
      rw [own]
      exact apart.1 other inside
    · rw [cons_of_ne same]
      exact List.isChain_cons_cons.2 ⟨same, apart⟩

theorem apart_ofFeatures (list : List Feature) :
    (ofFeatures list).IsChain fun left right => left.index ≠ right.index := by
  induction list with
  | nil => exact .nil
  | cons f rest ih => exact apart_cons ih

theorem map_features_ofFeatures (list : List Feature) :
    (ofFeatures list).map features = list.splitBy fun f g => f.index == g.index := by
  have constant := constant_ofFeatures list
  symm
  rw [List.splitBy_eq_iff]
  refine ⟨?_, ?_, ?_, ?_⟩
  · rw [← List.flatMap_def, flatMap_ofFeatures]
  · simp [features]
  · intro piece member
    obtain ⟨run, inside, rfl⟩ := List.mem_map.1 member
    apply List.Pairwise.isChain
    apply List.pairwise_of_forall_mem_list
    intro f first g second
    exact beq_iff_eq.2 ((constant run inside f first).trans (constant run inside g second).symm)
  · rw [List.isChain_map]
    refine (apart_ofFeatures list).imp_of_mem_imp fun left right first second apart => ?_
    have some : ∀ run : Run, run.features ≠ [] := fun run => List.cons_ne_nil _ _
    refine ⟨some left, some right, beq_eq_false_iff_ne.2 ?_⟩
    rw [constant left first _ (List.getLast_mem (some left))]
    exact apart

/-! ## Where runs start -/

theorem starts_cons (run : Run) (runs : List Run) :
    starts (run :: runs) = 0 :: (starts runs).map (run.length + ·) := by
  have shifted : ∀ (runs : List Run) (place : Nat) (met : List Nat),
      (runs.foldl (fun state run => (state.1 + run.length, state.1 :: state.2)) (place, met)).2.reverse =
        met.reverse ++ (starts runs).map (place + ·) := by
    intro runs
    induction runs with
    | nil => simp [starts]
    | cons run runs ih =>
      intro place met
      unfold starts
      rw [List.foldl_cons, List.foldl_cons, ih, ih]
      simp [Nat.add_assoc]
  have whole := shifted runs run.length [0]
  simpa [starts] using whole

def SameLength {α : Type} (run : Run) (piece : List α) : Prop := piece.length = run.length

theorem lt_of_mem_starts {α : Type} {runs : List Run} {pieces : List (List α)}
    (same : List.Forall₂ SameLength runs pieces) {start : Nat} (member : start ∈ starts runs) :
    start < pieces.flatten.length := by
  induction same generalizing start with
  | nil => exact absurd member List.not_mem_nil
  | @cons run piece runs pieces length rest ih =>
    have own : piece.length = run.length := length
    have some : 0 < run.length := Nat.succ_pos _
    rw [starts_cons, List.mem_cons, List.mem_map] at member
    rw [List.flatten_cons, List.length_append]
    rcases member with rfl | ⟨before, inside, rfl⟩
    · omega
    · have := ih inside
      omega

theorem filterMap_starts {α : Type} {runs : List Run} {pieces : List (List α)} (behind : List α)
    (same : List.Forall₂ SameLength runs pieces) :
    (starts runs).filterMap ((pieces.flatten ++ behind)[·]?) = pieces.filterMap List.head? := by
  induction same with
  | nil => rfl
  | @cons run piece runs pieces length rest ih =>
    have own : piece.length = run.length := length
    have later : ∀ place, ((piece :: pieces).flatten ++ behind)[run.length + place]? =
        (pieces.flatten ++ behind)[place]? := by
      intro place
      rw [List.flatten_cons, List.append_assoc, ← own, List.getElem?_append_right (Nat.le_add_right _ _),
        Nat.add_sub_cancel_left]
    rw [starts_cons, List.filterMap_cons, List.filterMap_map]
    simp only [Function.comp_def, later, ih]
    cases piece with
    | nil => exact absurd own (Nat.succ_ne_zero _).symm
    | cons item piece => rfl

end Run

/-! ## The labels of runs -/

namespace Group

variable {α : Type} {group : Group}

/-- Where no label is missing, the runs get those at their starts; without labels they get none. -/
theorem labelsOf_of_within {starts : List Nat}
    (within : group.labels ≠ [] → ∀ start ∈ starts, start < group.labels.length) (needed : Nat × Nat → Bool) :
    group.labelsOf needed starts = .ok (starts.filterMap (group.labels[·]?)) := by
  unfold labelsOf
  cases audited : group.isAudited with
  | false =>
    rw [isAudited_eq_false_iff.1 audited]
    simp
  | true =>
    have present : group.labels ≠ [] := by
      unfold isAudited at audited
      simpa using audited
    have complete : (((List.range starts.length).zip starts).filter needed).find?
        (fun move => decide (group.labels.toArray.size ≤ move.2)) = none := by
      rw [List.find?_eq_none]
      rintro ⟨place, start⟩ member
      have inside := within present start (List.of_mem_zip (List.mem_of_mem_filter member)).2
      simpa using inside
    simp only [Bool.not_true, Bool.false_eq_true, if_false, complete, List.getElem?_toArray]

theorem labelsOf_starts (label : α → Label) {audit : Bool} {runs : List Run} {pieces : List (List α)} {behind : List α}
    (same : List.Forall₂ Run.SameLength runs pieces)
    (labels : group.labels = if audit then (pieces.flatten ++ behind).map label else [])
    (needed : Nat × Nat → Bool) :
    group.labelsOf needed (Run.starts runs) =
      .ok (if audit then (pieces.filterMap List.head?).map label else []) := by
  cases audit with
  | false =>
    have none : group.labels = [] := labels
    rw [labelsOf_of_within (fun some => absurd none some), none]
    simp
  | true =>
    have all : group.labels = (pieces.flatten ++ behind).map label := labels
    have within : ∀ start ∈ Run.starts runs, start < group.labels.length := by
      intro start member
      have bound := Run.lt_of_mem_starts same member
      rw [all, List.length_map, List.length_append]
      omega
    rw [labelsOf_of_within fun _ => within, all, if_pos rfl, ← Run.filterMap_starts behind same, List.map_filterMap]
    congr 1
    apply List.filterMap_congr
    intro place _
    exact List.getElem?_map

end Group

end HashedFeatures
