import HashedFeatures.Proofs.Term.Instance
import HashedFeatures.Proofs.Term.Regroup
import Mathlib.Data.Multiset.Basic

/-! What the compiled list stands for.

Up to order it holds the terms that fill a template. Without duplicates no two of its terms are equal
up to order, and every term has its repeats side by side, as the expansion needs them.
-/

set_option autoImplicit false

namespace HashedFeatures.Term

/-- The ids of a term ascend in a ranking, so that repeats stand side by side. -/
structure Ranked (rank : UInt8 → Nat) (term : Term) : Prop where
  ascends : term.Pairwise fun a b => rank a ≤ rank b
  injective : ∀ a ∈ term, ∀ b ∈ term, rank a = rank b → a = b

theorem exists_ranked_grouped {term : WrittenTerm UInt8} (honest : term.Honest) :
    ∃ rank, Ranked rank term.grouped := by
  rcases honest.grouped_cases with sorted | distinct | constant
  · refine ⟨UInt8.toNat, ⟨sorted.imp ?_, fun a _ b _ => UInt8.toNat_inj.1⟩⟩
    intro a b atMost
    exact Std.LawfulOrderOrd.isLE_compare a b |>.1 atMost
  · refine ⟨term.grouped.idxOf, ⟨?_, fun a first b _ same => (List.idxOf_inj first).1 same⟩⟩
    rw [List.pairwise_iff_getElem]
    intro i j first second before
    rw [distinct.idxOf_getElem, distinct.idxOf_getElem]
    exact Nat.le_of_lt before
  · exact ⟨fun _ => 0, List.pairwise_of_forall fun _ _ => Nat.le_refl 0,
      fun a first b second _ => constant a first b second⟩

variable (mode : Selection) (leaveDuplicates : Bool) (namespaces : NamespaceSet) (templates : List Term)

def kept : List (WrittenTerm UInt8) :=
  if leaveDuplicates then WrittenTerm.ofList (unfold mode leaveDuplicates namespaces templates)
  else WrittenTerm.firsts (WrittenTerm.ofList (unfold mode leaveDuplicates namespaces templates))

theorem compile_terms :
    (compile mode leaveDuplicates namespaces templates).terms =
      (kept mode leaveDuplicates namespaces templates).map WrittenTerm.grouped := by
  cases leaveDuplicates <;> rfl

theorem kept_subset :
    kept mode leaveDuplicates namespaces templates ⊆
      WrittenTerm.ofList (unfold mode leaveDuplicates namespaces templates) := by
  unfold kept
  split
  case isTrue => exact List.Subset.refl _
  case isFalse => exact (WrittenTerm.firsts_spec _).2.1

theorem honest_of_mem_kept {mode : Selection} {leaveDuplicates : Bool} {namespaces : NamespaceSet}
    {templates : List Term} {term : WrittenTerm UInt8}
    (member : term ∈ kept mode leaveDuplicates namespaces templates) : term.Honest :=
  WrittenTerm.honest_of_mem_ofList (kept_subset _ _ _ _ member)

theorem exists_ranked_of_mem_compile {mode : Selection} {leaveDuplicates : Bool} {namespaces : NamespaceSet}
    {templates : List Term} {term : Term}
    (member : term ∈ (compile mode leaveDuplicates namespaces templates).terms) : ∃ rank, Ranked rank term := by
  rw [compile_terms] at member
  obtain ⟨written, inside, rfl⟩ := List.mem_map.1 member
  exact exists_ranked_grouped (honest_of_mem_kept inside)

theorem compile_apart :
    (compile mode false namespaces templates).terms.Pairwise fun left right => ¬ left.Perm right := by
  rw [compile_terms, List.pairwise_map]
  have apart : (kept mode false namespaces templates).Pairwise fun left right => left.sorted ≠ right.sorted :=
    (WrittenTerm.firsts_spec _).1
  apply apart.imp_of_mem
  intro left right first second different same
  have honestLeft := honest_of_mem_kept first
  have honestRight := honest_of_mem_kept second
  apply different
  rw [honestLeft, honestRight, sort_eq_iff]
  exact honestLeft.grouped_perm.symm.trans (same.trans honestRight.grouped_perm)

/-- Up to order, the compiled terms are those that fill a template. -/
theorem exists_mem_compile_perm_iff {term : Term} :
    (∃ compiled ∈ (compile mode leaveDuplicates namespaces templates).terms, compiled.Perm term) ↔
      ∃ template ∈ templates, ∃ filled, Fills namespaces template filled ∧ filled.Perm term := by
  have listed : ∀ {written : WrittenTerm UInt8},
      written ∈ WrittenTerm.ofList (unfold mode leaveDuplicates namespaces templates) →
      written.written ∈ unfold mode leaveDuplicates namespaces templates := fun member =>
    WrittenTerm.map_written_ofList (unfold mode leaveDuplicates namespaces templates) ▸ List.mem_map_of_mem member
  constructor
  · rintro ⟨compiled, member, same⟩
    rw [compile_terms] at member
    obtain ⟨written, inside, rfl⟩ := List.mem_map.1 member
    obtain ⟨template, given, instanced⟩ :=
      (mem_unfold mode leaveDuplicates namespaces).1 (listed (kept_subset _ _ _ _ inside))
    refine ⟨template, given, written.written, fills_of_mem_instances instanced, ?_⟩
    exact (honest_of_mem_kept inside).grouped_perm.symm.trans same
  · rintro ⟨template, given, filled, fills, same⟩
    obtain ⟨term, instanced, sameTerm⟩ := fills.exists_mem_instances mode leaveDuplicates
    have unfolded := (mem_unfold mode leaveDuplicates namespaces).2 ⟨template, given, instanced⟩
    rw [← WrittenTerm.map_written_ofList (unfold _ _ _ _)] at unfolded
    obtain ⟨written, inside, rfl⟩ := List.mem_map.1 unfolded
    obtain ⟨first, remains, family⟩ : ∃ first ∈ kept mode leaveDuplicates namespaces templates,
        first.sorted = written.sorted := by
      unfold kept
      split
      case isTrue => exact ⟨written, inside, rfl⟩
      case isFalse => exact (WrittenTerm.firsts_spec _).2.2 written inside
    have honest := honest_of_mem_kept remains
    rw [honest, WrittenTerm.honest_of_mem_ofList inside, sort_eq_iff] at family
    rw [compile_terms]
    refine ⟨first.grouped, List.mem_map_of_mem remains, ?_⟩
    exact honest.grouped_perm.trans (family.trans (sameTerm.trans same))

-- The order of a compiled term puts equal ids side by side.
theorem order_of_mem_compile {mode : Selection} {leaveDuplicates : Bool} {namespaces : NamespaceSet}
    {templates : List Term} {term : Term}
    (member : term ∈ (compile mode leaveDuplicates namespaces templates).terms) :
    (∀ a ∈ term, ∀ b ∈ term, a = b) ∨ term.Nodup ∨ term.Pairwise (· ≤ ·) := by
  rw [compile_terms] at member
  obtain ⟨written, inside, rfl⟩ := List.mem_map.1 member
  rcases (honest_of_mem_kept inside).grouped_cases with sorted | distinct | constant
  · right; right
    exact sorted.imp fun {a b} atMost => (Std.LawfulOrderOrd.isLE_compare a b).1 atMost
  · exact .inr (.inl distinct)
  · exact .inl constant

theorem adjacent_of_mem_compile {mode : Selection} {leaveDuplicates : Bool} {namespaces : NamespaceSet}
    {templates : List Term} {term : Term}
    (member : term ∈ (compile mode leaveDuplicates namespaces templates).terms) {a b : UInt8}
    (inside : [a, b, a].Sublist term) : b = a := by
  rcases order_of_mem_compile member with constant | distinct | sorted
  · exact constant b (inside.subset (by simp)) a (inside.subset (by simp))
  · have repeated := distinct.sublist inside
    simp at repeated
  · have ascends := sorted.sublist inside
    simp only [List.pairwise_cons, List.forall_mem_cons] at ascends
    exact UInt8.le_antisymm ascends.2.1.1 ascends.1.1

-- Nothing is dropped when duplicates are left, so every unfolded term is tidied and kept.
theorem compile_leaving (mode : Selection) (namespaces : NamespaceSet) (templates : List Term) :
    (compile mode true namespaces templates).terms = (unfold mode true namespaces templates).map tidy := by
  rw [compile_terms]
  exact WrittenTerm.map_grouped_ofList _

/-- Compilation covers exactly the ways to fill the templates. As multisets, its terms are these fillings, no two
of them equal unless duplicates are left. In every term equal ids are side by side. With all ordered fillings
and their duplicates left, the list has each filling of each template once, tidied. -/
theorem compile_covers (mode : Selection) (leaveDuplicates : Bool) (namespaces : NamespaceSet)
    (templates : List Term) :
    (∀ ids : Multiset UInt8,
      (∃ term ∈ (compile mode leaveDuplicates namespaces templates).terms, (term : Multiset UInt8) = ids) ↔
        ∃ template ∈ templates, ∃ filled, Fills namespaces template filled ∧ (filled : Multiset UInt8) = ids) ∧
    (∀ term ∈ (compile mode leaveDuplicates namespaces templates).terms,
      ((∀ a ∈ term, ∀ b ∈ term, a = b) ∨ term.Nodup ∨ term.Pairwise (· ≤ ·)) ∧
        ∀ a b, [a, b, a].Sublist term → b = a) ∧
    ((compile mode false namespaces templates).terms.Pairwise fun left right : Term =>
      Multiset.ofList left ≠ Multiset.ofList right) ∧
    (compile .permutations true namespaces templates).terms.Perm
      ((templates.flatMap (fillings namespaces)).map tidy) ∧
    ∀ template : Term, (template.fillings namespaces).Nodup ∧
      ∀ filled, filled ∈ template.fillings namespaces ↔ Fills namespaces template filled := by
  refine ⟨?covered, fun term member => ⟨order_of_mem_compile member, fun a b => adjacent_of_mem_compile member⟩,
    ?apart, ?all, fun template => ⟨nodup_fillings namespaces template, fun filled => mem_fillings⟩⟩
  case covered =>
    intro ids
    induction ids using Quotient.inductionOn with
    | h ids =>
      simp only [Multiset.quot_mk_to_coe, Multiset.coe_eq_coe]
      exact exists_mem_compile_perm_iff mode leaveDuplicates namespaces templates
  case apart =>
    exact (compile_apart mode namespaces templates).imp fun different same => different (Multiset.coe_eq_coe.1 same)
  case all =>
    rw [compile_leaving]
    have ordered : templates.flatMap (instances .permutations true namespaces) =
        templates.flatMap (fillings namespaces) :=
      List.flatMap_congr fun template _ => instances_permutations namespaces template
    exact ordered ▸ (unfold_perm .permutations true namespaces templates).map tidy

end HashedFeatures.Term
