import HashedFeatures.Term.Choice
import Mathlib.Data.List.Perm.Basic

/-! What the selections with repetition are: tuples of the items, and each tuple up to its order. -/

set_option autoImplicit false

namespace HashedFeatures.Choice

variable {α : Type}

theorem ascending_nil (k : Nat) : ascending (k + 1) ([] : List α) = [] := rfl

-- The selections that take the first item come first.
theorem ascending_cons (k : Nat) (item : α) (rest : List α) :
    ascending (k + 1) (item :: rest) =
      (ascending k (item :: rest)).map (item :: ·) ++ ascending (k + 1) rest := by
  simp [ascending, suffixes]

theorem of_mem_ascending {k : Nat} {items selection : List α} (member : selection ∈ ascending k items) :
    selection.length = k ∧ ∀ x ∈ selection, x ∈ items := by
  induction k generalizing items selection with
  | zero =>
    obtain rfl : selection = [] := List.mem_singleton.1 member
    simp
  | succ k ih =>
    induction items with
    | nil => cases member
    | cons item rest smaller =>
      rw [ascending_cons, List.mem_append, List.mem_map] at member
      rcases member with ⟨tail, inside, rfl⟩ | inside
      · obtain ⟨length, members⟩ := ih inside
        exact ⟨by rw [List.length_cons, length], List.forall_mem_cons.2 ⟨by simp, members⟩⟩
      · obtain ⟨length, members⟩ := smaller inside
        exact ⟨length, fun x chosen => List.mem_cons_of_mem item (members x chosen)⟩

-- Every tuple of items is selected in some order.
theorem exists_perm_mem_ascending [DecidableEq α] (items tuple : List α) (members : ∀ x ∈ tuple, x ∈ items) :
    ∃ selection ∈ ascending tuple.length items, selection.Perm tuple := by
  induction items generalizing tuple with
  | nil =>
    obtain rfl : tuple = [] := List.eq_nil_iff_forall_not_mem.2 fun x chosen => by simpa using members x chosen
    exact ⟨[], by simp [ascending], .refl []⟩
  | cons item rest fewer =>
    induction left : tuple.length generalizing tuple with
    | zero =>
      obtain rfl : tuple = [] := List.length_eq_zero_iff.1 left
      exact ⟨[], by simp [ascending], .refl []⟩
    | succ k shorter =>
      rw [ascending_cons]
      by_cases first : item ∈ tuple
      · have length : (tuple.erase item).length = k := by rw [List.length_erase_of_mem first]; omega
        obtain ⟨selection, selected, same⟩ :=
          shorter (tuple.erase item) (fun x chosen => members x (List.mem_of_mem_erase chosen)) length
        refine ⟨item :: selection, ?_, (same.cons item).trans (List.perm_cons_erase first).symm⟩
        exact List.mem_append_left _ (List.mem_map.2 ⟨selection, selected, rfl⟩)
      · have others : ∀ x ∈ tuple, x ∈ rest := fun x chosen =>
          (List.mem_cons.1 (members x chosen)).resolve_left fun same => first (same ▸ chosen)
        obtain ⟨selection, selected, same⟩ := fewer tuple others
        exact ⟨selection, List.mem_append_right _ (left ▸ selected), same⟩

theorem mem_permutations {k : Nat} {items tuple : List α} :
    tuple ∈ permutations k items ↔ tuple.length = k ∧ ∀ x ∈ tuple, x ∈ items := by
  induction k generalizing tuple with
  | zero => simp +contextual [permutations]
  | succ k ih =>
    cases tuple with
    | nil => simp [permutations]
    | cons x tuple => simp [permutations, ih]; grind

end HashedFeatures.Choice
