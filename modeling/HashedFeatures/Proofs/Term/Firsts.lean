import HashedFeatures.Proofs.Arrangement.Stable
import HashedFeatures.Proofs.Term.Regroup

/-! Which terms a regrouped list keeps.

A stable sort by the sorted forms leaves the terms of one family in the order of their places, so the head of each
run, which the scan keeps, is the first of its family.
-/

set_option autoImplicit false

namespace HashedFeatures

open Arrangement (Orders)

variable {α : Type}

namespace WrittenTerm

def Placed (terms : List (WrittenTerm α)) : Prop :=
  terms.Pairwise fun left right => left.position < right.position

def Tied (terms : List (WrittenTerm α)) : Prop :=
  terms.Pairwise fun left right => left.sorted = right.sorted → left.position < right.position

/-- Of one family, and not behind the other term. -/
structure Leads (first term : WrittenTerm α) : Prop where
  family : first.sorted = term.sorted
  position_le : first.position ≤ term.position

theorem Leads.refl (term : WrittenTerm α) : Leads term term := ⟨rfl, Nat.le_refl _⟩

theorem Leads.trans {a b c : WrittenTerm α} (first : Leads a b) (second : Leads b c) : Leads a c :=
  ⟨first.family.trans second.family, Nat.le_trans first.position_le second.position_le⟩

theorem placed_ofList [Ord α] (terms : List (List α)) : Placed (ofList terms) := by
  unfold Placed ofList
  rw [List.pairwise_map]
  exact Arrangement.placed_zipIdx terms 0

theorem Placed.eq_of_position {terms : List (WrittenTerm α)} (placed : Placed terms) {a b : WrittenTerm α}
    (first : a ∈ terms) (second : b ∈ terms) (same : a.position = b.position) : a = b := by
  have distinct : (terms.map position).Nodup := List.pairwise_map.2 (placed.imp Nat.ne_of_lt)
  exact List.inj_on_of_nodup_map distinct first second same

theorem Placed.tied_mergeSort [Ord α] [Std.TransOrd α] {terms : List (WrittenTerm α)} (placed : Placed terms) :
    Tied (terms.mergeSort fun left right => (compare left.sorted right.sorted).isLE) := by
  let entry (term : WrittenTerm α) : List α × Nat := (term.sorted, term.position)
  have orders : Orders fun left right : List α => (compare left right).isLE := ⟨atMost_trans, atMost_total⟩
  have entries : (terms.map entry).Pairwise fun left right => left.2 < right.2 := List.pairwise_map.2 placed
  have ahead := orders.ahead_mergeSort entries
  rw [← List.map_mergeSort (r := fun left right : WrittenTerm α => (compare left.sorted right.sorted).isLE)
    fun _ _ _ _ => rfl, List.pairwise_map] at ahead
  refine ahead.imp fun {left right} inOrder same => inOrder.2 ?_
  have forth : AtMost left.sorted right.sorted := inOrder.1
  have back : AtMost right.sorted left.sorted := by rwa [same] at forth ⊢
  exact back

section

variable [BEq α] [LawfulBEq α]

theorem keepNew_cases (kept : List (WrittenTerm α)) (next : WrittenTerm α) :
    keepNew kept next = next :: kept ∨ ∃ last ∈ kept, last.sorted = next.sorted ∧ keepNew kept next = kept := by
  cases kept with
  | nil => exact .inl rfl
  | cons last kept =>
    by_cases repeated : next.sorted = last.sorted
    · exact .inr ⟨last, List.mem_cons_self, repeated.symm, if_pos (beq_iff_eq.2 repeated)⟩
    · exact .inl (if_neg fun same => repeated (beq_iff_eq.1 same))

/-- A scan keeps, for every term that it has met, one that leads it. -/
theorem exists_leads_foldl {kept terms : List (WrittenTerm α)} (tied : Tied (kept.reverse ++ terms)) :
    ∀ term ∈ kept.reverse ++ terms, ∃ first ∈ terms.foldl keepNew kept, Leads first term := by
  induction terms generalizing kept with
  | nil =>
    intro term member
    rw [List.append_nil, List.mem_reverse] at member
    exact ⟨term, member, .refl term⟩
  | cons next rest ih =>
    intro term member
    rw [List.foldl_cons]
    rcases keepNew_cases kept next with keeps | ⟨last, inside, family, drops⟩
    · rw [keeps]
      rw [List.append_cons, ← List.reverse_cons] at tied member
      exact ih tied term member
    · rw [drops]
      have fewer := ih (tied.sublist ((List.sublist_cons_self next rest).append_left _))
      have before : last.position < next.position :=
        (List.pairwise_append.1 tied).2.2 last (List.mem_reverse.2 inside) next List.mem_cons_self family
      rw [List.mem_append, List.mem_cons, or_left_comm, ← List.mem_append] at member
      rcases member with rfl | met
      · obtain ⟨first, keeps, leads⟩ := fewer last (List.mem_append_left _ (List.mem_reverse.2 inside))
        exact ⟨first, keeps, leads.trans ⟨family, Nat.le_of_lt before⟩⟩
      · exact fewer term met

end

section

variable [Ord α] [Std.TransOrd α] [Std.LawfulEqOrd α] [BEq α] [LawfulBEq α]

omit [Std.LawfulEqOrd α] in
theorem Placed.exists_leads_firsts {terms : List (WrittenTerm α)} (placed : Placed terms) {term : WrittenTerm α}
    (member : term ∈ terms) : ∃ first ∈ firsts terms, Leads first term := by
  have tied : Tied ([].reverse ++ terms.mergeSort fun left right => (compare left.sorted right.sorted).isLE) :=
    placed.tied_mergeSort
  obtain ⟨first, kept, leads⟩ := exists_leads_foldl tied term (by simpa using member)
  exact ⟨first, List.mem_mergeSort.2 (List.mem_reverse.2 kept), leads⟩

theorem Placed.mem_firsts_iff {terms : List (WrittenTerm α)} (placed : Placed terms) {term : WrittenTerm α} :
    term ∈ firsts terms ↔
      term ∈ terms ∧ ∀ other ∈ terms, other.sorted = term.sorted → term.position ≤ other.position := by
  obtain ⟨apart, subset, -⟩ := firsts_spec terms
  constructor
  · intro kept
    refine ⟨subset kept, fun other member same => ?_⟩
    obtain ⟨first, keeps, leads⟩ := placed.exists_leads_firsts member
    have families : ((firsts terms).map sorted).Nodup := List.pairwise_map.2 apart
    obtain rfl : first = term := List.inj_on_of_nodup_map families keeps kept (leads.family.trans same)
    exact leads.position_le
  · rintro ⟨member, least⟩
    obtain ⟨first, keeps, leads⟩ := placed.exists_leads_firsts member
    have same := Nat.le_antisymm leads.position_le (least first (subset keeps) leads.family)
    exact placed.eq_of_position (subset keeps) member same ▸ keeps

theorem Placed.firsts {terms : List (WrittenTerm α)} (placed : Placed terms) : Placed (firsts terms) := by
  obtain ⟨apart, subset, -⟩ := firsts_spec terms
  have ascends : (WrittenTerm.firsts terms).Pairwise fun left right => left.position ≤ right.position := by
    have sorted := @List.pairwise_mergeSort _ (fun left right : WrittenTerm α => left.position ≤ right.position)
      (by simpa using fun a b c => Nat.le_trans) (by simpa using fun a b => Nat.le_total _ _)
      (dropRepeats (terms.mergeSort fun left right => (compare left.sorted right.sorted).isLE))
    exact sorted.imp of_decide_eq_true
  refine (ascends.and apart).imp_of_mem ?_
  rintro left right first second ⟨atMost, different⟩
  refine Nat.lt_of_le_of_ne atMost fun same => different ?_
  rw [placed.eq_of_position (subset first) (subset second) same]

theorem Placed.firsts_eq_filter [DecidableEq α] {terms : List (WrittenTerm α)} (placed : Placed terms) :
    WrittenTerm.firsts terms =
      terms.filter fun term => ∀ other ∈ terms, other.sorted = term.sorted → term.position ≤ other.position := by
  have inOrder := placed.sublist (List.filter_sublist (p := fun term =>
    ∀ other ∈ terms, other.sorted = term.sorted → term.position ≤ other.position))
  have distinct {list : List (WrittenTerm α)} (placed : Placed list) : list.Nodup :=
    placed.imp fun before same => absurd (same ▸ before) (Nat.lt_irrefl _)
  have same := (List.perm_ext_iff_of_nodup (distinct placed.firsts) (distinct inOrder)).2 fun term => by
    rw [placed.mem_firsts_iff, List.mem_filter, decide_eq_true_iff]
  exact same.eq_of_pairwise (fun _ _ _ _ forth back => absurd (Nat.lt_trans forth back) (Nat.lt_irrefl _))
    placed.firsts inOrder

end

end WrittenTerm

end HashedFeatures
