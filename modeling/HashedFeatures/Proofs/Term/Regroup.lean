import HashedFeatures.Term.Regroup
import Mathlib.Data.List.Chain
import Mathlib.Data.List.Perm.Basic

/-! Regrouping keeps one term of each family up to order, with equal items side by side.

Terms of one family have one sorted form; after a sort by these forms the family is a run, and the
scan keeps the head of each run.
-/

set_option autoImplicit false

namespace HashedFeatures

section
variable {α : Type} [Ord α] [Std.TransOrd α]

abbrev AtMost (left right : α) : Prop := (compare left right).isLE = true

theorem atMost_trans (a b c : α) (first : AtMost a b) (second : AtMost b c) : AtMost a c :=
  Std.TransOrd.isLE_trans first second

theorem atMost_total (a b : α) : ((compare a b).isLE || (compare b a).isLE) = true := by
  rw [Std.OrientedOrd.eq_swap (a := b), Bool.or_eq_true]
  cases compare a b <;> simp

theorem atMost_antisymm [Std.LawfulEqOrd α] {a b : α} (first : AtMost a b) (second : AtMost b a) : a = b :=
  Std.LawfulEqOrd.eq_of_compare (Std.OrientedCmp.isLE_antisymm first second)

end

namespace Term

variable {α : Type} [Ord α]

theorem sort_perm (term : List α) : (sort term).Perm term :=
  List.mergeSort_perm _ _

theorem sort_ascends [Std.TransOrd α] (term : List α) : (sort term).Pairwise AtMost :=
  List.pairwise_mergeSort atMost_trans atMost_total term

-- Terms have one sorted form when they are equal up to order.
theorem sort_eq_iff [Std.TransOrd α] [Std.LawfulEqOrd α] {left right : List α} :
    sort left = sort right ↔ left.Perm right := by
  constructor
  · intro same
    exact (sort_perm left).symm.trans (same ▸ sort_perm right)
  · intro same
    apply List.Perm.eq_of_pairwise (fun a b _ _ => atMost_antisymm) (sort_ascends left) (sort_ascends right)
    exact (sort_perm left).trans (same.trans (sort_perm right).symm)

/-! ## Neighbours -/

omit [Ord α] in
theorem any_adjacentEqual [BEq α] [LawfulBEq α] (term : List α) :
    (adjacentEqual term).any id = false ↔ term.IsChain (· ≠ ·) := by
  induction term with
  | nil => simp [adjacentEqual]
  | cons first rest ih =>
    cases rest with
    | nil => simp [adjacentEqual]
    | cons second rest =>
      have turn : adjacentEqual (first :: second :: rest) =
        (first == second) :: adjacentEqual (second :: rest) := rfl
      rw [turn, List.any_cons, Bool.or_eq_false_iff, ih, List.isChain_cons_cons]
      simp

omit [Ord α] in
theorem any_not_adjacentEqual [BEq α] [LawfulBEq α] (term : List α) :
    (adjacentEqual term).any not = false ↔ term.IsChain (· = ·) := by
  induction term with
  | nil => simp [adjacentEqual]
  | cons first rest ih =>
    cases rest with
    | nil => simp [adjacentEqual]
    | cons second rest =>
      have turn : adjacentEqual (first :: second :: rest) =
        (first == second) :: adjacentEqual (second :: rest) := rfl
      rw [turn, List.any_cons, Bool.or_eq_false_iff, ih, List.isChain_cons_cons]
      simp

-- In a sorted term a repeat stands next to what it repeats.
theorem nodup_of_neighbours [Std.TransOrd α] [Std.LawfulEqOrd α] {term : List α} (ascends : term.Pairwise AtMost)
    (different : term.IsChain (· ≠ ·)) : term.Nodup := by
  induction term with
  | nil => exact .nil
  | cons first rest ih =>
    obtain ⟨behind, ascends⟩ := List.pairwise_cons.1 ascends
    refine List.nodup_cons.2 ⟨?_, ih ascends different.tail⟩
    cases rest with
    | nil => simp
    | cons second rest =>
      have unequal := (List.isChain_cons_cons.1 different).1
      intro repeated
      rcases List.mem_cons.1 repeated with same | further
      · exact unequal same
      · have back := (List.pairwise_cons.1 ascends).1 first further
        exact unequal (atMost_antisymm (behind second List.mem_cons_self) back)

-- A sorted term that does not mix repeats has no repeats, or nothing but repeats of one item.
theorem nodup_or_constant [Std.TransOrd α] [Std.LawfulEqOrd α] [BEq α] [LawfulBEq α] {term : List α}
    (ascends : term.Pairwise AtMost) (unmixed : mixesRepeats term = false) :
    term.Nodup ∨ ∀ a ∈ term, ∀ b ∈ term, a = b := by
  have neighbours : (adjacentEqual term).any id = false ∨ (adjacentEqual term).any not = false := by
    match term with
    | [] => exact .inl rfl
    | [_] => exact .inl rfl
    | _ :: _ :: _ => exact Bool.and_eq_false_iff.1 unmixed
  rcases neighbours with different | same
  · exact .inl (nodup_of_neighbours ascends ((any_adjacentEqual term).1 different))
  · right
    have pairwise : term.Pairwise (· = ·) := List.isChain_iff_pairwise.1 ((any_not_adjacentEqual term).1 same)
    intro a first b second
    exact pairwise.forall_of_forall (fun _ _ => rfl) first second

/-! ## Mixed repeats -/

omit [Ord α] in
def Mixed (term : List α) : Prop := ¬ term.Nodup ∧ ¬ ∀ a ∈ term, ∀ b ∈ term, a = b

omit [Ord α] in
instance [DecidableEq α] (term : List α) : Decidable (Mixed term) :=
  inferInstanceAs (Decidable (_ ∧ _))

/-- Sorted if repeats are mixed with other items, else as it is. -/
def tidy [DecidableEq α] (term : List α) : List α :=
  if Mixed term then sort term else term

theorem tidy_perm [DecidableEq α] (term : List α) : (tidy term).Perm term := by
  unfold tidy
  split
  case isTrue => exact sort_perm term
  case isFalse => exact .refl term

omit [Ord α] in
theorem mixed_iff_of_perm {left right : List α} (same : left.Perm right) : Mixed left ↔ Mixed right := by
  unfold Mixed
  simp only [same.nodup_iff, same.mem_iff]

omit [Ord α] in
-- A term of at most one item counts as mixed too; sorting does not change it.
theorem mixed_of_mixesRepeats [BEq α] [LawfulBEq α] {term : List α} (counts : mixesRepeats term = true) :
    Mixed term ∨ ∀ other : List α, term.Perm other → term = other := by
  match term with
  | [] => exact .inr fun other same => same.nil_eq
  | [_] => exact .inr fun other same => (List.singleton_perm.1 same)
  | a :: b :: rest =>
    left
    obtain ⟨repeated, different⟩ := Bool.and_eq_true_iff.1 counts
    constructor
    · intro distinct
      rw [(any_adjacentEqual _).2 distinct.isChain] at repeated
      cases repeated
    · intro constant
      have same : (a :: b :: rest).Pairwise (· = ·) := List.pairwise_of_forall_mem_list constant
      rw [(any_not_adjacentEqual _).2 same.isChain] at different
      cases different

end Term

namespace WrittenTerm

variable {α : Type} [Ord α] [BEq α]

def Honest (term : WrittenTerm α) : Prop := term.sorted = Term.sort term.written

omit [BEq α] in
theorem honest_of_mem_ofList {terms : List (List α)} {term : WrittenTerm α} (member : term ∈ ofList terms) :
    term.Honest := by
  obtain ⟨⟨written, position⟩, -, rfl⟩ := List.mem_map.1 member
  rfl

omit [BEq α] in
theorem map_written_ofList (terms : List (List α)) : (ofList terms).map written = terms := by
  unfold ofList
  rw [List.map_map]
  exact List.zipIdx_map_fst 0 terms

theorem Honest.grouped_perm {term : WrittenTerm α} (honest : term.Honest) : term.grouped.Perm term.written := by
  unfold grouped
  split
  case isTrue => rw [honest]; exact Term.sort_perm _
  case isFalse => exact .refl _

-- The kept form is sorted, or no item is repeated, or all items are one.
theorem Honest.grouped_cases [Std.TransOrd α] [Std.LawfulEqOrd α] [LawfulBEq α] {term : WrittenTerm α}
    (honest : term.Honest) :
    term.grouped.Pairwise AtMost ∨ term.grouped.Nodup ∨ ∀ a ∈ term.grouped, ∀ b ∈ term.grouped, a = b := by
  have ascends : term.sorted.Pairwise AtMost := honest ▸ Term.sort_ascends term.written
  have same : term.sorted.Perm term.written := honest ▸ Term.sort_perm term.written
  unfold grouped
  cases mixed : Term.mixesRepeats term.sorted with
  | true => exact .inl ascends
  | false =>
    right
    rcases Term.nodup_or_constant ascends mixed with distinct | constant
    · exact .inl (same.nodup_iff.1 distinct)
    · exact .inr fun a first b second => constant a (same.mem_iff.2 first) b (same.mem_iff.2 second)

-- Regrouping sorts the terms that mix repeats with other items, and no others.
theorem Honest.grouped_eq_tidy [Std.TransOrd α] [Std.LawfulEqOrd α] [LawfulBEq α] [DecidableEq α]
    {term : WrittenTerm α} (honest : term.Honest) : term.grouped = Term.tidy term.written := by
  have same : term.sorted.Perm term.written := honest ▸ Term.sort_perm term.written
  unfold grouped Term.tidy
  cases counts : Term.mixesRepeats term.sorted with
  | true =>
    rw [if_pos rfl]
    rcases Term.mixed_of_mixesRepeats counts with mixed | short
    · rw [if_pos ((Term.mixed_iff_of_perm same).1 mixed)]
      exact honest
    · rw [← honest, ← short _ same, ite_self]
  | false =>
    have ascends : term.sorted.Pairwise AtMost := honest ▸ Term.sort_ascends term.written
    have unmixed : ¬ Term.Mixed term.written := by
      rw [← Term.mixed_iff_of_perm same]
      rintro ⟨repeated, different⟩
      exact (Term.nodup_or_constant ascends counts).elim repeated different
    rw [if_neg Bool.false_ne_true, if_neg unmixed]

theorem map_grouped_ofList [Std.TransOrd α] [Std.LawfulEqOrd α] [LawfulBEq α] [DecidableEq α]
    (terms : List (List α)) : (ofList terms).map grouped = terms.map Term.tidy := by
  conv_rhs => rw [← map_written_ofList terms, List.map_map]
  exact List.map_congr_left fun term member => (honest_of_mem_ofList member).grouped_eq_tidy

/-! ## Kept terms -/

abbrev InOrder (left right : WrittenTerm α) : Prop := AtMost left.sorted right.sorted

structure Scanned (kept terms : List (WrittenTerm α)) : Prop where
  apart : kept.Pairwise fun later earlier => later.sorted ≠ earlier.sorted
  descends : kept.Pairwise fun later earlier => InOrder earlier later
  ascends : terms.Pairwise InOrder
  before : ∀ earlier ∈ kept, ∀ later ∈ terms, InOrder earlier later

variable [Std.TransOrd α] [Std.LawfulEqOrd α] [LawfulBEq α]

-- One step of the scan keeps the scanned terms apart, and drops a term only for one of its family.
theorem Scanned.keepNew {kept rest : List (WrittenTerm α)} {next : WrittenTerm α}
    (scanned : Scanned kept (next :: rest)) :
    Scanned (WrittenTerm.keepNew kept next) rest ∧ kept ⊆ WrittenTerm.keepNew kept next ∧
      WrittenTerm.keepNew kept next ⊆ next :: kept ∧
      ∃ term ∈ WrittenTerm.keepNew kept next, term.sorted = next.sorted := by
  obtain ⟨apart, descends, ascends, before⟩ := scanned
  obtain ⟨behind, ascends⟩ := List.pairwise_cons.1 ascends
  have onward : ∀ earlier ∈ kept, ∀ later ∈ rest, InOrder earlier later := fun earlier member later inside =>
    before earlier member later (List.mem_cons_of_mem next inside)
  have taken : (∀ earlier ∈ kept, next.sorted ≠ earlier.sorted) → Scanned (next :: kept) rest := fun new =>
    { apart := List.pairwise_cons.2 ⟨new, apart⟩
      descends := List.pairwise_cons.2 ⟨fun earlier member => before earlier member next List.mem_cons_self, descends⟩
      ascends := ascends
      before := List.forall_mem_cons.2 ⟨behind, onward⟩ }
  cases kept with
  | nil => exact ⟨taken (by simp), by simp, by simp [WrittenTerm.keepNew], next, by simp [WrittenTerm.keepNew], rfl⟩
  | cons last kept =>
    by_cases repeated : next.sorted = last.sorted
    · have drops : WrittenTerm.keepNew (last :: kept) next = last :: kept := by
        rw [WrittenTerm.keepNew, if_pos (beq_iff_eq.2 repeated)]
      rw [drops]
      exact ⟨⟨apart, descends, ascends, onward⟩, List.Subset.refl _, List.subset_cons_self _ _, last, by simp,
        repeated.symm⟩
    · have takes : WrittenTerm.keepNew (last :: kept) next = next :: last :: kept := by
        rw [WrittenTerm.keepNew, if_neg fun same => repeated (beq_iff_eq.1 same)]
      rw [takes]
      refine ⟨taken ?_, List.subset_cons_self _ _, List.Subset.refl _, next, by simp, rfl⟩
      -- The last kept term lies between any kept one and the next, so none of them is of its family.
      intro earlier member same
      rcases List.mem_cons.1 member with rfl | inside
      · exact repeated same
      · have upTo := (List.pairwise_cons.1 descends).1 earlier inside
        have from_last := before last List.mem_cons_self next List.mem_cons_self
        unfold InOrder at from_last upTo
        rw [same] at from_last
        exact repeated (same.trans (atMost_antisymm upTo from_last))

theorem Scanned.fold {kept terms : List (WrittenTerm α)} (scanned : Scanned kept terms) :
    (terms.foldl WrittenTerm.keepNew kept).Pairwise (fun later earlier => later.sorted ≠ earlier.sorted) ∧
      terms.foldl WrittenTerm.keepNew kept ⊆ terms ++ kept ∧
      ∀ term ∈ terms ++ kept, ∃ first ∈ terms.foldl WrittenTerm.keepNew kept, first.sorted = term.sorted := by
  induction terms generalizing kept with
  | nil => exact ⟨scanned.apart, List.Subset.refl kept, fun term member => ⟨term, member, rfl⟩⟩
  | cons next rest ih =>
    obtain ⟨scanned, more, fewer, same, inside, family⟩ := scanned.keepNew
    obtain ⟨apart, subset, covers⟩ := ih scanned
    refine ⟨apart, fun term member => ?_, fun term member => ?_⟩
    · rcases List.mem_append.1 (subset member) with inRest | inKept
      · simp [inRest]
      · rcases List.mem_cons.1 (fewer inKept) with rfl | inKept
        · simp
        · simp [inKept]
    · rcases List.mem_append.1 member with inTerms | inKept
      · rcases List.mem_cons.1 inTerms with rfl | inRest
        · obtain ⟨first, kept, equal⟩ := covers same (List.mem_append_right _ inside)
          exact ⟨first, kept, equal.trans family⟩
        · exact covers term (List.mem_append_left _ inRest)
      · exact covers term (List.mem_append_right _ (more inKept))

theorem firsts_spec (terms : List (WrittenTerm α)) :
    (firsts terms).Pairwise (fun left right => left.sorted ≠ right.sorted) ∧ firsts terms ⊆ terms ∧
      ∀ term ∈ terms, ∃ first ∈ firsts terms, first.sorted = term.sorted := by
  have ordered : (terms.mergeSort fun left right => (compare left.sorted right.sorted).isLE).Pairwise InOrder :=
    List.pairwise_mergeSort (fun a b c => atMost_trans a.sorted b.sorted c.sorted)
      (fun a b => atMost_total a.sorted b.sorted) terms
  -- Before the scan nothing is kept, and the sorted terms are in front of it.
  have scanned : Scanned [] (terms.mergeSort fun left right => (compare left.sorted right.sorted).isLE) :=
    ⟨.nil, .nil, ordered, by simp⟩
  obtain ⟨apart, subset, covers⟩ := scanned.fold
  have same : (firsts terms).Perm
      ((terms.mergeSort fun left right => (compare left.sorted right.sorted).isLE).foldl WrittenTerm.keepNew []) :=
    (List.mergeSort_perm _ _).trans (List.reverse_perm _)
  refine ⟨?_, ?_, ?_⟩
  · exact (same.pairwise_iff fun different => Ne.symm different).2 apart
  · intro term member
    simpa using subset (same.subset member)
  · intro term member
    obtain ⟨first, kept, equal⟩ := covers term (by simpa using member)
    exact ⟨first, same.mem_iff.2 kept, equal⟩

end WrittenTerm

end HashedFeatures
