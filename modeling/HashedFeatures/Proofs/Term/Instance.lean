import HashedFeatures.Proofs.Term.Choice
import HashedFeatures.Term.Compile
import Mathlib.Data.List.Forall2
import Mathlib.Data.List.Nodup

/-! The terms that a template stands for.

Filling the wildcards of a template in every way yields, up to order, what the compiler writes for it;
the order in which the wildcards are filled does not matter.
-/

set_option autoImplicit false

namespace HashedFeatures.Term

/-- A member of a set stands in the place of each wildcard. -/
def Fills (namespaces : NamespaceSet) : Term → Term → Prop :=
  List.Forall₂ fun ns x => if ns = Namespace.wildcard then x ∈ namespaces else x = ns

theorem Fills.length_eq {namespaces : NamespaceSet} {template term : Term} (fills : Fills namespaces template term) :
    template.length = term.length :=
  List.Forall₂.length_eq fills

theorem Fills.wildcard_not_mem {namespaces : NamespaceSet} {template term : Term}
    (fills : Fills namespaces template term) (absent : Namespace.wildcard ∉ namespaces) :
    Namespace.wildcard ∉ term := by
  induction fills with
  | nil => exact List.not_mem_nil
  | @cons ns x _ _ chosen _ ih =>
    have other : Namespace.wildcard ≠ x := by
      rintro rfl
      split at chosen
      case isTrue => exact absent chosen
      case isFalse fixed => exact fixed chosen.symm
    exact List.not_mem_cons_of_ne_of_not_mem other ih

theorem wildcards_cons_self (template : Term) : wildcards (Namespace.wildcard :: template) = wildcards template + 1 :=
  List.count_cons_self

theorem wildcards_cons_of_ne {ns : UInt8} (fixed : ns ≠ Namespace.wildcard) (template : Term) :
    wildcards (ns :: template) = wildcards template :=
  List.count_cons_of_ne fixed

theorem substitute_cons_self (template : Term) (pick : UInt8) (picks : List UInt8) :
    substitute (Namespace.wildcard :: template) (pick :: picks) = pick :: template.substitute picks := rfl

theorem substitute_cons_of_ne {ns : UInt8} (fixed : ns ≠ Namespace.wildcard) (template : Term) (picks : List UInt8) :
    substitute (ns :: template) picks = ns :: template.substitute picks := by
  cases picks <;> rw [substitute.eq_def] <;> exact if_neg fixed

-- Filling the wildcards is substituting a tuple of members.
theorem fills_iff {namespaces : NamespaceSet} {template term : Term} :
    Fills namespaces template term ↔
      ∃ tuple : List UInt8, tuple.length = template.wildcards ∧ (∀ x ∈ tuple, x ∈ namespaces) ∧
        template.substitute tuple = term := by
  induction template generalizing term with
  | nil =>
    constructor
    · intro fills
      cases fills
      exact ⟨[], rfl, by simp, rfl⟩
    · rintro ⟨tuple, -, -, rfl⟩
      exact .nil
  | cons ns template ih =>
    by_cases wild : ns = Namespace.wildcard
    · subst wild
      constructor
      · intro fills
        cases fills with
        | @cons _ x _ term chosen rest =>
          obtain ⟨tuple, length, members, rfl⟩ := ih.1 rest
          refine ⟨x :: tuple, ?_, List.forall_mem_cons.2 ⟨chosen, members⟩, rfl⟩
          rw [List.length_cons, length, wildcards_cons_self]
      · rintro ⟨tuple, length, members, rfl⟩
        rw [wildcards_cons_self] at length
        obtain ⟨x, tuple, rfl⟩ := List.exists_cons_of_length_eq_add_one length
        obtain ⟨chosen, others⟩ := List.forall_mem_cons.1 members
        rw [substitute_cons_self]
        exact .cons chosen (ih.2 ⟨tuple, Nat.succ.inj length, others, rfl⟩)
    · constructor
      · intro fills
        cases fills with
        | @cons _ x _ term kept rest =>
          rw [if_neg wild] at kept
          obtain ⟨tuple, length, members, rfl⟩ := ih.1 rest
          refine ⟨tuple, ?_, members, ?_⟩
          · rw [length, wildcards_cons_of_ne wild]
          · rw [substitute_cons_of_ne wild, kept]
      · rintro ⟨tuple, length, members, rfl⟩
        rw [wildcards_cons_of_ne wild] at length
        rw [substitute_cons_of_ne wild]
        exact .cons (by rw [if_neg wild]) (ih.2 ⟨tuple, length, members, rfl⟩)

-- The ids of a filled template are its fixed ids and those of the tuple.
theorem substitute_perm {template : Term} {tuple : List UInt8} (length : tuple.length = template.wildcards) :
    (template.substitute tuple).Perm (template.filter (· ≠ Namespace.wildcard) ++ tuple) := by
  induction template generalizing tuple with
  | nil =>
    obtain rfl : tuple = [] := List.length_eq_zero_iff.1 length
    exact .refl []
  | cons ns template ih =>
    by_cases wild : ns = Namespace.wildcard
    · subst wild
      rw [wildcards_cons_self] at length
      obtain ⟨x, tuple, rfl⟩ := List.exists_cons_of_length_eq_add_one length
      rw [substitute_cons_self, List.filter_cons_of_neg (by simp)]
      exact ((ih (Nat.succ.inj length)).cons x).trans List.perm_middle.symm
    · rw [wildcards_cons_of_ne wild] at length
      rw [substitute_cons_of_ne wild, List.filter_cons_of_pos (by simpa using wild)]
      exact (ih length).cons ns

/-! ## All fillings -/

def fillings (namespaces : NamespaceSet) : Term → List Term
  | [] => [[]]
  | ns :: rest =>
    if ns = Namespace.wildcard then namespaces.toList.flatMap fun x => (fillings namespaces rest).map (x :: ·)
    else (fillings namespaces rest).map (ns :: ·)

theorem mem_fillings {namespaces : NamespaceSet} {template term : Term} :
    term ∈ template.fillings namespaces ↔ Fills namespaces template term := by
  induction template generalizing term with
  | nil => simp [fillings, Fills]
  | cons ns rest ih =>
    unfold Fills at *
    rw [List.forall₂_cons_left_iff, fillings]
    split
    case isTrue wild => simp [ih, eq_comm]
    case isFalse fixed => simp [ih, eq_comm]

theorem nodup_fillings (namespaces : NamespaceSet) (template : Term) : (template.fillings namespaces).Nodup := by
  induction template with
  | nil => simp [fillings]
  | cons ns rest ih =>
    rw [fillings]
    split
    case isTrue =>
      rw [List.nodup_flatMap]
      refine ⟨fun x _ => ih.map List.cons_injective, ?_⟩
      apply namespaces.nodup_toList.imp
      intro x y different term first second
      obtain ⟨_, -, rfl⟩ := List.mem_map.1 first
      obtain ⟨_, -, same⟩ := List.mem_map.1 second
      exact different (List.cons.inj same).1.symm
    case isFalse => exact ih.map List.cons_injective

/-! ## What the compiler picks -/

variable (mode : Selection) (leaveDuplicates : Bool) (namespaces : NamespaceSet)

theorem of_mem_picks {mode : Selection} {leaveDuplicates : Bool} {namespaces : NamespaceSet} {k : Nat}
    {tuple : List UInt8} (member : tuple ∈ picks mode leaveDuplicates namespaces k) :
    tuple.length = k ∧ ∀ x ∈ tuple, x ∈ namespaces := by
  have ordered : ∀ {k}, tuple ∈ Choice.permutations k namespaces.toList →
      tuple.length = k ∧ ∀ x ∈ tuple, x ∈ namespaces := by
    intro k member
    simpa using Choice.mem_permutations.1 member
  unfold picks Choice.pairs at member
  split at member
  case isTrue two =>
    subst two
    split at member
    case isTrue => exact ordered member
    case isFalse => simpa using Choice.of_mem_ascending member
  case isFalse =>
    cases mode with
    | permutations => exact ordered member
    | combinations =>
      obtain ⟨selection, selected, rfl⟩ := List.mem_map.1 member
      simpa using Choice.of_mem_ascending selected

-- Every tuple of members is picked in some order.
theorem exists_perm_mem_picks {tuple : List UInt8} (members : ∀ x ∈ tuple, x ∈ namespaces) :
    ∃ picked ∈ picks mode leaveDuplicates namespaces tuple.length, picked.Perm tuple := by
  have listed : ∀ x ∈ tuple, x ∈ namespaces.toList := by simpa using members
  obtain ⟨selection, selected, same⟩ := Choice.exists_perm_mem_ascending namespaces.toList tuple listed
  have ordered : tuple ∈ Choice.permutations tuple.length namespaces.toList :=
    Choice.mem_permutations.2 ⟨rfl, listed⟩
  unfold picks Choice.pairs
  split
  case isTrue two =>
    rw [two] at selected ordered
    split
    case isTrue => exact ⟨tuple, ordered, .refl tuple⟩
    case isFalse => exact ⟨selection, selected, same⟩
  case isFalse =>
    cases mode with
    | permutations => exact ⟨tuple, ordered, .refl tuple⟩
    | combinations =>
      exact ⟨selection.reverse, List.mem_map.2 ⟨selection, selected, rfl⟩, selection.reverse_perm.trans same⟩

theorem fills_of_mem_instances {mode : Selection} {leaveDuplicates : Bool} {namespaces : NamespaceSet}
    {template term : Term} (member : term ∈ template.instances mode leaveDuplicates namespaces) :
    Fills namespaces template term := by
  obtain ⟨tuple, picked, rfl⟩ := List.mem_map.1 member
  obtain ⟨length, members⟩ := of_mem_picks picked
  exact fills_iff.2 ⟨tuple, length, members, rfl⟩

theorem Fills.exists_mem_instances {namespaces : NamespaceSet} {template term : Term}
    (fills : Fills namespaces template term) :
    ∃ written ∈ template.instances mode leaveDuplicates namespaces, written.Perm term := by
  obtain ⟨tuple, length, members, rfl⟩ := fills_iff.1 fills
  obtain ⟨picked, member, same⟩ := exists_perm_mem_picks mode leaveDuplicates namespaces members
  rw [length] at member
  refine ⟨template.substitute picked, List.mem_map.2 ⟨picked, member, rfl⟩, ?_⟩
  exact (substitute_perm (of_mem_picks member).1).trans
    ((same.append_left _).trans (substitute_perm length).symm)

-- A template without wildcards stands for itself, so the compiler need not tell them apart.
theorem instances_of_not_hasWildcard {template : Term} (fixed : template.hasWildcard = false) :
    template.instances mode leaveDuplicates namespaces = [template] := by
  have absent : Namespace.wildcard ∉ template := by
    rw [← hasWildcard_iff, fixed]
    exact Bool.false_ne_true
  have unchanged : ∀ term : Term, Namespace.wildcard ∉ term → term.substitute [] = term := by
    intro term
    induction term with
    | nil => intro _; rfl
    | cons ns rest ih =>
      intro absent
      rw [List.mem_cons, not_or] at absent
      rw [substitute_cons_of_ne (Ne.symm absent.1), ih absent.2]
  have none : template.wildcards = 0 := List.count_eq_zero.2 absent
  unfold instances
  rw [none]
  cases mode <;> simp [picks, Choice.combinations, Choice.ascending, Choice.permutations, unchanged template absent]

-- Ordered picks are all ways to fill a template, also where only two wildcards are to be filled.
theorem instances_permutations (template : Term) :
    template.instances .permutations true namespaces = template.fillings namespaces := by
  have picked : ∀ k, picks .permutations true namespaces k = Choice.permutations k namespaces.toList := by
    intro k
    unfold picks
    split
    case isTrue two => rw [two]; rfl
    case isFalse => rfl
  unfold instances
  rw [picked]
  induction template with
  | nil => rfl
  | cons ns rest ih =>
    rw [fillings, ← ih]
    split
    case isTrue wild =>
      subst wild
      rw [wildcards_cons_self, Choice.permutations, List.map_flatMap]
      simp only [List.map_map]
      rfl
    case isFalse fixed =>
      rw [wildcards_cons_of_ne fixed, List.map_map]
      exact List.map_congr_left fun tuple _ => substitute_cons_of_ne fixed rest tuple

theorem unfold_perm (templates : List Term) :
    (unfold mode leaveDuplicates namespaces templates).Perm
      (templates.flatMap (instances mode leaveDuplicates namespaces)) := by
  unfold unfold
  refine (List.mergeSort_perm _ _).trans (.of_eq ?_)
  apply List.flatMap_congr
  intro template _
  cases fixed : template.hasWildcard with
  | true => rfl
  | false => exact (instances_of_not_hasWildcard mode leaveDuplicates namespaces fixed).symm

theorem mem_unfold {templates : List Term} {term : Term} :
    term ∈ unfold mode leaveDuplicates namespaces templates ↔
      ∃ template ∈ templates, term ∈ template.instances mode leaveDuplicates namespaces := by
  rw [(unfold_perm mode leaveDuplicates namespaces templates).mem_iff, List.mem_flatMap]

end HashedFeatures.Term
