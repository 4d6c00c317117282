import HashedFeatures.Proofs.Term.Firsts
import HashedFeatures.Term.Extraction
import Mathlib

/-! A list of terms that is taken apart is regrouped.

Every term that is kept still stands at its place when its turn comes, since no two of them have one place. The terms
that leave are the first of their families, in their order, each of them tidied.
-/

set_option autoImplicit false

namespace HashedFeatures

variable {α : Type} [BEq α]

namespace Term

-- Both kinds of neighbours are met when those that were met before are counted in.
theorem meetsBoth_eq (term : List α) {equalMet differentMet : Bool} (notBoth : (equalMet && differentMet) = false) :
    meetsBoth equalMet differentMet term =
      ((equalMet || (adjacentEqual term).any id) && (differentMet || (adjacentEqual term).any not)) := by
  induction term generalizing equalMet differentMet with
  | nil => simpa [meetsBoth, adjacentEqual] using notBoth
  | cons a rest ih =>
    cases rest with
    | nil => simpa [meetsBoth, adjacentEqual] using notBoth
    | cons b rest =>
      have turn : adjacentEqual (a :: b :: rest) = (a == b) :: adjacentEqual (b :: rest) := rfl
      rw [meetsBoth, turn, List.any_cons, List.any_cons]
      cases a == b <;> cases equalMet <;> cases differentMet <;> simp_all

theorem needsSorting_eq (sorted : List α) : needsSorting sorted = mixesRepeats sorted := by
  match sorted with
  | [] => rfl
  | [_] => rfl
  | a :: b :: rest => exact meetsBoth_eq (a :: b :: rest) rfl

end Term

/-! ## Taking terms from their places -/

namespace Extraction

structure Standing (places : List (List α)) (terms : List (WrittenTerm α)) : Prop where
  stands : ∀ term ∈ terms, places[term.position]? = some term.written
  apart : terms.Pairwise fun left right => left.position ≠ right.position

variable [LawfulBEq α]

-- One term is taken in the form that regrouping gives it; the other places are left alone.
theorem exists_take_eq {places : List (List α)} {next : WrittenTerm α}
    (stands : places[next.position]? = some next.written) (taken : List (List α)) (changed : Nat) :
    ∃ left, take ⟨places, taken, changed⟩ next =
        .ok ⟨left, taken ++ [next.grouped], changed + if next.grouped != next.written then 1 else 0⟩ ∧
      ∀ place ≠ next.position, left[place]? = places[place]? := by
  by_cases mixes : Term.mixesRepeats next.sorted = true
  · have grouped : next.grouped = next.sorted := if_pos mixes
    refine ⟨places, ?_, fun _ _ => rfl⟩
    simp only [take, stands, Term.needsSorting_eq, if_pos mixes, grouped]
    rw [bne_comm]
    split <;> rfl
  · have grouped : next.grouped = next.written := if_neg mixes
    refine ⟨places.set next.position [], ?_, fun place other => List.getElem?_set_ne (Ne.symm other)⟩
    simp only [take, stands, Term.needsSorting_eq, if_neg mixes, grouped, bne_self_eq_false]
    rfl

theorem exists_foldlM_take_eq {places : List (List α)} {terms : List (WrittenTerm α)} (standing : Standing places terms)
    (taken : List (List α)) (changed : Nat) :
    ∃ left, terms.foldlM take ⟨places, taken, changed⟩ =
      .ok ⟨left, taken ++ terms.map WrittenTerm.grouped,
        changed + terms.countP fun term => term.grouped != term.written⟩ := by
  induction terms generalizing places taken changed with
  | nil => exact ⟨places, by rw [List.map_nil, List.append_nil]; rfl⟩
  | cons next rest ih =>
    obtain ⟨first, others⟩ := List.forall_mem_cons.1 standing.stands
    obtain ⟨elsewhere, apart⟩ := List.pairwise_cons.1 standing.apart
    obtain ⟨places, step, same⟩ := exists_take_eq first taken changed
    have stands : ∀ term ∈ rest, places[term.position]? = some term.written := fun term member =>
      (same term.position (elsewhere term member).symm).trans (others term member)
    obtain ⟨left, run⟩ := ih ⟨stands, apart⟩ (taken ++ [next.grouped])
      (changed + if next.grouped != next.written then 1 else 0)
    refine ⟨left, ?_⟩
    rw [List.foldlM_cons, step]
    refine run.trans ?_
    rw [List.map_cons, List.append_assoc, List.singleton_append, List.countP_cons, Nat.add_assoc,
      Nat.add_comm (ite _ _ _)]

end Extraction

/-! ## The terms that stay -/

namespace Term

/-- No term in front of a place is equal to the one there up to order. -/
def FirstAt {α : Type} (terms : List (List α)) (place : Fin terms.length) : Prop :=
  ∀ earlier < place, ¬ (terms.get earlier).Perm (terms.get place)

instance {α : Type} [DecidableEq α] (terms : List (List α)) (place : Fin terms.length) :
    Decidable (FirstAt terms place) :=
  inferInstanceAs (Decidable (∀ earlier, earlier < place → _))

def staying {α : Type} [DecidableEq α] (dropDuplicates : Bool) (terms : List (List α)) : List (Fin terms.length) :=
  (List.finRange terms.length).filter fun place => dropDuplicates → FirstAt terms place

end Term

namespace WrittenTerm

def atPlace {α : Type} [Ord α] (terms : List (List α)) (place : Fin terms.length) : WrittenTerm α :=
  ⟨Term.sort (terms.get place), terms.get place, place⟩

theorem ofList_eq {α : Type} [Ord α] (terms : List (List α)) :
    ofList terms = (List.finRange terms.length).map (atPlace terms) := by
  apply List.ext_getElem
  · simp [ofList]
  · intro place _ _
    simp [ofList, atPlace]

theorem getElem?_of_mem_ofList {α : Type} [Ord α] {terms : List (List α)} {term : WrittenTerm α}
    (member : term ∈ ofList terms) : terms[term.position]? = some term.written := by
  obtain ⟨⟨written, place⟩, listed, rfl⟩ := List.mem_map.1 member
  exact List.mem_zipIdx_iff_getElem?.1 listed

def remaining [Ord α] (dropDuplicates : Bool) (terms : List (List α)) : List (WrittenTerm α) :=
  if dropDuplicates then firsts (ofList terms) else ofList terms

variable [Ord α] [Std.TransOrd α] [Std.LawfulEqOrd α]

omit [BEq α] in
theorem leads_all_iff (terms : List (List α)) (place : Fin terms.length) :
    (∀ other ∈ ofList terms, other.sorted = (atPlace terms place).sorted →
      (atPlace terms place).position ≤ other.position) ↔ Term.FirstAt terms place := by
  simp only [ofList_eq, List.forall_mem_map, List.mem_finRange, forall_const, atPlace, Term.sort_eq_iff, Term.FirstAt]
  exact forall_congr' fun other => ⟨fun least earlier same => absurd (least same) (Nat.not_le.2 earlier),
    fun different same => Nat.not_lt.1 fun earlier => different earlier same⟩

variable [LawfulBEq α]

theorem remaining_eq [DecidableEq α] (dropDuplicates : Bool) (terms : List (List α)) :
    remaining dropDuplicates terms = (Term.staying dropDuplicates terms).map (atPlace terms) := by
  unfold remaining Term.staying
  cases dropDuplicates with
  | false => simp [ofList_eq]
  | true =>
    rw [if_pos rfl, (placed_ofList terms).firsts_eq_filter]
    conv_lhs => rw [ofList_eq, List.filter_map, ← ofList_eq]
    congr 1
    apply List.filter_congr
    intro place _
    simp only [Function.comp, leads_all_iff, forall_const]

theorem standing_remaining (dropDuplicates : Bool) (terms : List (List α)) :
    Extraction.Standing terms (remaining dropDuplicates terms) := by
  have placed := placed_ofList terms
  unfold remaining
  split
  case isTrue =>
    exact ⟨fun term kept => getElem?_of_mem_ofList ((firsts_spec _).2.1 kept), placed.firsts.imp Nat.ne_of_lt⟩
  case isFalse => exact ⟨fun term => getElem?_of_mem_ofList, placed.imp Nat.ne_of_lt⟩

end WrittenTerm

theorem regroup_eq [Ord α] (dropDuplicates : Bool) (terms : List (List α)) : regroup dropDuplicates terms =
    { terms := (WrittenTerm.remaining dropDuplicates terms).map WrittenTerm.grouped
      removed := (WrittenTerm.ofList terms).length - (WrittenTerm.remaining dropDuplicates terms).length
      sorted := (WrittenTerm.remaining dropDuplicates terms).countP fun term => term.grouped != term.written } := rfl

variable [Ord α] [Std.TransOrd α] [Std.LawfulEqOrd α] [LawfulBEq α] (dropDuplicates : Bool) (terms : List (List α))

/-- Taking a list apart never looks behind its end, and regroups it. -/
theorem regroupByExtraction_eq : regroupByExtraction dropDuplicates terms = .ok (regroup dropDuplicates terms) := by
  obtain ⟨left, run⟩ :=
    Extraction.exists_foldlM_take_eq (WrittenTerm.standing_remaining dropDuplicates terms) [] 0
  rw [List.nil_append, Nat.zero_add] at run
  rw [regroup_eq]
  unfold regroupByExtraction
  exact congrArg (· >>= _) run

omit [BEq α] [Std.LawfulEqOrd α] [LawfulBEq α] in
theorem Term.tidy_cases [DecidableEq α] (term : List α) :
    (Mixed term → (tidy term).Perm term ∧ (tidy term).Pairwise AtMost) ∧ (¬ Mixed term → tidy term = term) := by
  refine ⟨fun mixed => ?_, fun unmixed => if_neg unmixed⟩
  rw [tidy, if_pos mixed]
  exact ⟨sort_perm term, sort_ascends term⟩

/-- Regrouping keeps the terms that no earlier term is equal to up to order, or all of them, in their order. A term that
has a repeated item together with a different one is sorted, any other stays as it was written. The terms that are
dropped are counted, and the kept ones that differ from what was written. -/
theorem regroup_keeps_first [DecidableEq α] :
    ∃ places : List (Fin terms.length), places.Pairwise (· < ·) ∧
      (∀ place, place ∈ places ↔ (dropDuplicates = true → Term.FirstAt terms place)) ∧
      ∃ result, regroupByExtraction dropDuplicates terms = .ok result ∧
        regroup dropDuplicates terms = result ∧
        result.terms = places.map (fun place => Term.tidy (terms.get place)) ∧
        result.removed + places.length = terms.length ∧
        (result.sorted = places.countP fun place => Term.tidy (terms.get place) ≠ terms.get place) ∧
        ∀ term : List α, (Term.Mixed term → (Term.tidy term).Perm term ∧ (Term.tidy term).Pairwise AtMost) ∧
          (¬ Term.Mixed term → Term.tidy term = term) := by
  have kept := WrittenTerm.remaining_eq dropDuplicates terms
  have form (place : Fin terms.length) : (WrittenTerm.atPlace terms place).grouped = Term.tidy (terms.get place) :=
    WrittenTerm.Honest.grouped_eq_tidy rfl
  have fewer : (Term.staying dropDuplicates terms).length ≤ terms.length := by
    have filtered := List.length_filter_le (fun place => dropDuplicates = true → Term.FirstAt terms place)
      (List.finRange terms.length)
    rwa [List.length_finRange] at filtered
  refine ⟨Term.staying dropDuplicates terms, (List.pairwise_lt_finRange _).filter _, fun place => ?_, _,
    regroupByExtraction_eq dropDuplicates terms, rfl, ?_, ?_, ?_, Term.tidy_cases⟩
  · rw [Term.staying, List.mem_filter, decide_eq_true_iff, and_iff_right (List.mem_finRange place)]
  · rw [regroup_eq, kept, List.map_map]
    exact List.map_congr_left fun place _ => form place
  · rw [regroup_eq, kept, List.length_map, WrittenTerm.ofList_eq, List.length_map, List.length_finRange]
    exact Nat.sub_add_cancel fewer
  · rw [regroup_eq, kept, List.countP_map]
    apply List.countP_congr
    intro place _
    simp only [Function.comp, form, bne_iff_ne, decide_eq_true_eq]
    rfl

/-- The second of four terms is dropped, the third one is sorted, and the last one has nothing but repeats. -/
theorem regroup_keeps_first_four :
    Std.TransOrd Nat ∧ Std.LawfulEqOrd Nat ∧ LawfulBEq Nat ∧
      ∃ places : List (Fin 4),
        (∀ place, place ∈ places ↔ Term.FirstAt [[1, 2], [2, 1], [1, 2, 1], [3, 3]] place) ∧
        ([[1, 2], [1, 1, 2], [3, 3]] : List (List Nat)) =
          places.map (fun place => Term.tidy ([[1, 2], [2, 1], [1, 2, 1], [3, 3]].get place)) ∧
        regroupByExtraction true [[1, 2], [2, 1], [1, 2, 1], [3, 3]] = .ok ⟨[[1, 2], [1, 1, 2], [3, 3]], 1, 1⟩ := by
  obtain ⟨places, -, members, result, run, same, tidied, -⟩ :=
    regroup_keeps_first true [[1, 2], [2, 1], [1, 2, 1], [3, 3]]
  have evaluated : regroup true [[1, 2], [2, 1], [1, 2, 1], [3, 3]] = ⟨[[1, 2], [1, 1, 2], [3, 3]], 1, 1⟩ := by
    cbv
  obtain rfl := same.symm.trans evaluated
  exact ⟨inferInstance, inferInstance, inferInstance, places, fun place => by simpa using members place, tidied, run⟩

end HashedFeatures
