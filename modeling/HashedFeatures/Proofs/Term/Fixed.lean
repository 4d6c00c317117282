import HashedFeatures.Proofs.Term.Compile
import HashedFeatures.Proofs.Term.Firsts
import Mathlib.Data.List.Permutation

/-! Lists that compilation leaves as they are.

The list is sorted before its terms are tidied, so one pass may leave it out of order. But compiled terms are
tidy and apart, and a second pass only puts them into order. So the list of the second pass is a fixed point.
-/

set_option autoImplicit false

namespace HashedFeatures

namespace WrittenTerm

variable {α : Type} [Ord α]

/-- Where no two terms are equal up to order all of them are kept, each in its place. -/
theorem firsts_eq_self [Std.TransOrd α] [Std.LawfulEqOrd α] [BEq α] [LawfulBEq α] [DecidableEq α]
    {terms : List (WrittenTerm α)} (apart : (terms.map sorted).Nodup) (placed : Placed terms) :
    firsts terms = terms := by
  rw [placed.firsts_eq_filter, List.filter_eq_self]
  intro term member
  -- A term is the only one of its family.
  have least : ∀ other ∈ terms, other.sorted = term.sorted → term.position ≤ other.position :=
    fun other inside same => (congrArg position (List.inj_on_of_nodup_map apart inside member same)).ge
  exact decide_eq_true least

end WrittenTerm

namespace Term

theorem inOrder_trans : ∀ a b c : Term, (order a b).isLE → (order b c).isLE → (order a c).isLE :=
  have : Std.TransCmp (order (α := UInt8)) :=
    inferInstanceAs (Std.TransCmp (compareLex (compareOn List.length) compare))
  fun _ _ _ => Std.TransCmp.isLE_trans

theorem inOrder_total (a b : Term) : ((order a b).isLE || (order b a).isLE) = true := by
  have : Std.OrientedCmp (order (α := UInt8)) :=
    inferInstanceAs (Std.OrientedCmp (compareLex (compareOn List.length) compare))
  have swapped : order b a = (order a b).swap := Std.OrientedCmp.eq_swap
  rw [swapped, Bool.or_eq_true]
  cases order a b <;> simp

def sortTerms (terms : List Term) : List Term :=
  terms.mergeSort fun left right => (order left right).isLE

theorem sortTerms_perm (terms : List Term) : (sortTerms terms).Perm terms := List.mergeSort_perm _ _

theorem sortTerms_eq_self_iff {terms : List Term} :
    sortTerms terms = terms ↔ terms.Pairwise fun left right => (order left right).isLE = true := by
  constructor
  · intro same
    rw [← same]
    exact List.pairwise_mergeSort inOrder_trans inOrder_total terms
  · exact List.mergeSort_of_pairwise

theorem sortTerms_sortTerms (terms : List Term) : sortTerms (sortTerms terms) = sortTerms terms :=
  sortTerms_eq_self_iff.2 (List.pairwise_mergeSort inOrder_trans inOrder_total terms)

theorem tidy_tidy (term : Term) : tidy (tidy term) = tidy term := by
  by_cases mixed : Mixed term
  · have sorted : tidy term = sort term := if_pos mixed
    rw [sorted, tidy, if_pos ((mixed_iff_of_perm (sort_perm term)).2 mixed)]
    exact List.mergeSort_of_pairwise (sort_ascends term)
  · have same : tidy term = term := if_neg mixed
    rw [same, same]

theorem tidy_eq_self_iff {term : Term} : tidy term = term ↔ (Mixed term → term.Pairwise (· ≤ ·)) := by
  have atMost : ∀ {a b : UInt8}, AtMost a b ↔ a ≤ b := Std.LawfulOrderOrd.isLE_compare _ _
  unfold tidy
  split
  case isTrue mixed =>
    simp only [mixed, forall_const]
    constructor
    · intro same
      rw [← same]
      exact (sort_ascends term).imp atMost.1
    · intro ascends
      exact List.mergeSort_of_pairwise (ascends.imp atMost.2)
  case isFalse unmixed => simp [unmixed]

variable {mode : Selection} {leaveDuplicates : Bool} {namespaces : NamespaceSet}

theorem unfold_of_fixed {terms : List Term} (fixed : ∀ term ∈ terms, term.hasWildcard = false) :
    unfold mode leaveDuplicates namespaces terms = sortTerms terms := by
  have written : (terms.flatMap fun term =>
      if term.hasWildcard then term.instances mode leaveDuplicates namespaces else [term]) = terms := by
    conv_rhs => rw [← List.flatMap_singleton' terms]
    exact List.flatMap_congr fun term member => by rw [fixed term member]; rfl
  unfold unfold
  rw [written]
  rfl

/-- Unfolded terms that are equal up to order only where duplicates are left are all kept, and tidied. -/
theorem compile_of_apart {templates : List Term}
    (apart : leaveDuplicates = false →
      (unfold mode leaveDuplicates namespaces templates).Pairwise fun left right => ¬ left.Perm right) :
    (compile mode leaveDuplicates namespaces templates).terms =
      (unfold mode leaveDuplicates namespaces templates).map tidy := by
  cases leaveDuplicates with
  | true => exact compile_leaving mode namespaces templates
  | false =>
    have families : ((WrittenTerm.ofList (unfold mode false namespaces templates)).map WrittenTerm.sorted).Nodup := by
      have sorted : (WrittenTerm.ofList (unfold mode false namespaces templates)).map WrittenTerm.sorted =
          (unfold mode false namespaces templates).map sort := by
        conv_rhs => rw [← WrittenTerm.map_written_ofList (unfold mode false namespaces templates), List.map_map]
        exact List.map_congr_left fun term member => WrittenTerm.honest_of_mem_ofList member
      rw [sorted]
      exact List.pairwise_map.2 ((apart rfl).imp fun different same => different (sort_eq_iff.1 same))
    rw [compile_terms, kept, if_neg Bool.false_ne_true,
      WrittenTerm.firsts_eq_self families (WrittenTerm.placed_ofList _), WrittenTerm.map_grouped_ofList]

/-- A list that is tidy, and apart unless duplicates are left, is put into order and not changed otherwise. -/
theorem compile_of_tidy {terms : List Term} (fixed : ∀ term ∈ terms, term.hasWildcard = false)
    (tidied : ∀ term ∈ terms, tidy term = term)
    (apart : leaveDuplicates = false → terms.Pairwise fun left right => ¬ left.Perm right) :
    (compile mode leaveDuplicates namespaces terms).terms = sortTerms terms := by
  have unfolded := @unfold_of_fixed mode leaveDuplicates namespaces terms fixed
  rw [compile_of_apart, unfolded]
  · rw [← List.map_id (sortTerms terms), List.map_map]
    exact List.map_congr_left fun term member => tidied term ((sortTerms_perm terms).mem_iff.1 member)
  · intro dropped
    rw [unfolded]
    exact ((sortTerms_perm terms).pairwise_iff fun different same => different same.symm).2 (apart dropped)

theorem tidy_of_mem_compile {templates : List Term} {term : Term}
    (member : term ∈ (compile mode leaveDuplicates namespaces templates).terms) : tidy term = term := by
  rw [compile_terms] at member
  obtain ⟨written, inside, rfl⟩ := List.mem_map.1 member
  rw [(honest_of_mem_kept inside).grouped_eq_tidy, tidy_tidy]

theorem not_hasWildcard_of_mem_compile {templates : List Term} (absent : Namespace.wildcard ∉ namespaces)
    {term : Term} (member : term ∈ (compile mode leaveDuplicates namespaces templates).terms) : term.hasWildcard = false := by
  obtain ⟨template, -, filled, fills, same⟩ :=
    (exists_mem_compile_perm_iff mode leaveDuplicates namespaces templates).1 ⟨term, member, .refl term⟩
  rw [Bool.eq_false_iff, Ne, hasWildcard_iff, ← same.mem_iff]
  exact fills.wildcard_not_mem absent

/-- The fixed points of compilation are the sorted lists of tidy terms, which are apart unless duplicates are left.
Compiling twice leads to one of them, and the second pass only puts the terms into order. -/
theorem compile_fixed_iff (mode : Selection) (leaveDuplicates : Bool) (namespaces : NamespaceSet) :
    (∀ terms : List Term, (∀ term ∈ terms, term.hasWildcard = false) →
      ((compile mode leaveDuplicates namespaces terms).terms = terms ↔
        (terms.Pairwise fun left right => (order left right).isLE = true) ∧
          (∀ term ∈ terms, Mixed term → term.Pairwise (· ≤ ·)) ∧
          (leaveDuplicates = false →
            terms.Pairwise fun left right : Term => Multiset.ofList left ≠ Multiset.ofList right))) ∧
    (Namespace.wildcard ∉ namespaces → ∀ templates : List Term,
      let once := (compile mode leaveDuplicates namespaces templates).terms
      let twice := (compile mode leaveDuplicates namespaces once).terms
      (∀ term ∈ once, hasWildcard term = false) ∧ twice.Perm once ∧
        (compile mode leaveDuplicates namespaces twice).terms = twice) := by
  constructor
  · intro terms fixed
    simp only [ne_eq, Multiset.coe_eq_coe, ← tidy_eq_self_iff]
    constructor
    · intro same
      have tidied : ∀ term ∈ terms, tidy term = term := fun term member =>
        tidy_of_mem_compile (same.symm ▸ member)
      have apart : leaveDuplicates = false → terms.Pairwise fun left right => ¬ left.Perm right := by
        rintro rfl
        have different := compile_apart mode namespaces terms
        rwa [same] at different
      have sorted := @compile_of_tidy mode leaveDuplicates namespaces terms fixed tidied apart
      exact ⟨sortTerms_eq_self_iff.1 (sorted.symm.trans same), tidied, apart⟩
    · rintro ⟨sorted, tidied, apart⟩
      rw [compile_of_tidy fixed tidied apart]
      exact sortTerms_eq_self_iff.2 sorted
  · intro absent templates once twice
    have apart : leaveDuplicates = false → once.Pairwise fun left right => ¬ left.Perm right := by
      rintro rfl
      exact compile_apart mode namespaces templates
    have fixed : ∀ term ∈ once, hasWildcard term = false := fun _ => not_hasWildcard_of_mem_compile absent
    have sorted : twice = sortTerms once := compile_of_tidy fixed (fun _ => tidy_of_mem_compile) apart
    have same : twice.Perm once := sorted ▸ sortTerms_perm once
    refine ⟨fixed, same, ?_⟩
    rw [compile_of_tidy (fun term member => fixed term (same.mem_iff.1 member)) (fun _ => tidy_of_mem_compile)
      fun dropped => (same.pairwise_iff fun different equal => different equal.symm).2 (apart dropped)]
    rw [sorted, sortTerms_sortTerms]

/-- A fixed list, and a list that a second pass reorders: its second term moves to the front when it is tidied. -/
theorem compile_fixed_iff_reordered :
    let fixed : List Term := [[97], [97, 98], [97, 97, 98]]
    let templates : List Term := [[97, 99, 100], [98, 97, 98]]
    let once := (compile .combinations false (.ofList [97, 98]) templates).terms
    (∀ term ∈ fixed, term.hasWildcard = false) ∧ Namespace.wildcard ∉ NamespaceSet.ofList [97, 98] ∧
      (compile .combinations false (.ofList [97, 98]) fixed).terms = fixed ∧ once = [[97, 99, 100], [97, 98, 98]] ∧
      (compile .combinations false (.ofList [97, 98]) once).terms.Perm once := by
  intro fixed templates once
  have plain : ∀ term ∈ fixed, term.hasWildcard = false := by decide
  have absent : Namespace.wildcard ∉ NamespaceSet.ofList [97, 98] := by decide
  have fixes := (compile_fixed_iff .combinations false (.ofList [97, 98])).1 fixed plain
  have again := (compile_fixed_iff .combinations false (.ofList [97, 98])).2 absent templates
  have written : unfold .combinations false (.ofList [97, 98]) templates = templates := by
    rw [unfold_of_fixed (by decide)]
    exact sortTerms_eq_self_iff.2 (by decide)
  have tidied : once = templates.map tidy := by
    have compiled := @compile_of_apart .combinations false (.ofList [97, 98]) templates
    rw [written] at compiled
    exact compiled fun _ => by decide
  exact ⟨plain, absent, fixes.2 (by decide), by rw [tidied]; cbv, again.2.1⟩

end Term

end HashedFeatures
