import HashedFeatures.Example.Space
import HashedFeatures.Expansion.Event
import HashedFeatures.Term.Basic
import Mathlib.Data.List.Forall2
import Mathlib.Data.List.Lex

/-! Selections of features for the places of a term, one tuple of positions after the other.

This is the plain enumeration: all tuples in lexicographic order, without those that go back in a
repeated namespace. It knows nothing of loops, prefixes and carries.
-/

set_option autoImplicit false

namespace HashedFeatures

abbrev Occurrence := UInt8 × Nat

namespace Space

def at? (space : Space) (occurrence : Occurrence) : Option Feature := do
  (← space.get? occurrence.1).features[occurrence.2]?

def sizeAt (space : Space) (ns : UInt8) : Nat :=
  ((space.get? ns).map Group.length).getD 0

theorem isSome_at?_iff {space : Space} {occurrence : Occurrence} :
    (space.at? occurrence).isSome ↔ occurrence.2 < space.sizeAt occurrence.1 := by
  unfold at? sizeAt
  cases space.get? occurrence.1 with
  | none => simp
  | some group => simp [Group.length]

theorem isEmptyAt_iff {space : Space} {ns : UInt8} : space.isEmptyAt ns = true ↔ space.sizeAt ns = 0 := by
  unfold isEmptyAt sizeAt
  cases space.get? ns <;> simp [Group.isEmpty, Group.length]

end Space

/-! ## Tuples of positions -/

def tuples : List Nat → List (List Nat)
  | [] => [[]]
  | length :: lengths => (List.range length).flatMap fun p => (tuples lengths).map (p :: ·)

theorem mem_tuples {lengths tuple : List Nat} : tuple ∈ tuples lengths ↔ List.Forall₂ (· < ·) tuple lengths := by
  induction lengths generalizing tuple with
  | nil => simp [tuples]
  | cons length lengths ih =>
    simp only [tuples, List.mem_flatMap, List.mem_range, List.mem_map, ih, List.forall₂_cons_right_iff]
    grind

theorem tuples_sorted (lengths : List Nat) : (tuples lengths).Pairwise (List.Lex (· < ·)) := by
  induction lengths with
  | nil => simp [tuples]
  | cons length lengths ih =>
    simp only [tuples, List.pairwise_flatMap, List.pairwise_map]
    refine ⟨fun p _ => ih.imp .cons, List.pairwise_lt_range.imp ?_⟩
    intro p q before left leftMember right rightMember
    obtain ⟨tail, -, rfl⟩ := List.mem_map.1 leftMember
    obtain ⟨other, -, rfl⟩ := List.mem_map.1 rightMember
    exact .rel before

theorem nodup_tuples (lengths : List Nat) : (tuples lengths).Nodup :=
  (tuples_sorted lengths).imp fun before => ne_of_irrefl before

namespace Term

/-- Where an id repeats the one in front of it, the positions do not go back. -/
def ascends : Term → List Nat → Bool
  | a :: b :: term, p :: q :: tuple => (a != b || p ≤ q) && ascends (b :: term) (q :: tuple)
  | _, _ => true

/-- The selections of one term; unless all orders are wanted, repeated ids ascend. -/
def selections (permutations : Bool) (space : Space) (term : Term) : List (List Occurrence) :=
  if term.isEmpty || term.any space.isEmptyAt then []
  else
    ((tuples (term.map space.sizeAt)).filter fun tuple => permutations || term.ascends tuple).map term.zip

theorem forall₂_positions {space : Space} (selection : List Occurrence) :
    List.Forall₂ (· < ·) (selection.map Prod.snd) ((selection.map Prod.fst).map space.sizeAt) ↔
      ∀ occurrence ∈ selection, (space.at? occurrence).isSome := by
  rw [List.map_map, List.forall₂_map_left_iff, List.forall₂_map_right_iff, List.forall₂_same]
  simp only [Function.comp, Space.isSome_at?_iff]

-- A selection pairs the ids of its term with positions that are there.
theorem exists_of_mem_selections {permutations : Bool} {space : Space} {term : Term} {selection : List Occurrence}
    (member : selection ∈ term.selections permutations space) :
    ∃ tuple, List.Forall₂ (· < ·) tuple (term.map space.sizeAt) ∧ tuple.length = term.length ∧
      term.zip tuple = selection := by
  unfold selections at member
  split at member
  case isTrue => cases member
  case isFalse =>
    obtain ⟨tuple, admitted, rfl⟩ := List.mem_map.1 member
    have within := mem_tuples.1 (List.mem_filter.1 admitted).1
    exact ⟨tuple, within, by simpa using within.length_eq, rfl⟩

theorem map_fst_of_mem_selections {permutations : Bool} {space : Space} {term : Term} {selection : List Occurrence}
    (member : selection ∈ term.selections permutations space) : selection.map Prod.fst = term := by
  obtain ⟨tuple, -, length, rfl⟩ := exists_of_mem_selections member
  exact List.map_fst_zip (Nat.le_of_eq length.symm)

theorem isSome_at?_of_mem_selections {permutations : Bool} {space : Space} {term : Term} {selection : List Occurrence}
    (member : selection ∈ term.selections permutations space) :
    ∀ occurrence ∈ selection, (space.at? occurrence).isSome := by
  obtain ⟨tuple, within, length, rfl⟩ := exists_of_mem_selections member
  rw [← forall₂_positions, List.map_fst_zip (Nat.le_of_eq length.symm), List.map_snd_zip (Nat.le_of_eq length)]
  exact within

end Term

/-! ## What a selection yields -/

def product : List Feature → Float32
  | [] => 1
  | first :: rest => rest.foldl (fun value f => value * f.value) first.value

namespace Addressing

def weigh (addressing : Addressing) (features : List Feature) : Weighted :=
  ⟨product features, addressing.ofFold (.ofWords (features.map fun f => f.index.toUInt32))⟩

end Addressing

end HashedFeatures
