import HashedFeatures.Proofs.Expansion.Coverage
import HashedFeatures.Proofs.Expansion.Runs
import HashedFeatures.Proofs.Term.Lexicographic

/-! How many features the terms yield.

A selection that counts one for each of its occurrences counts one, so the closed sums over the selections of a term are
their number. The ways to fill wildcards in all orders multiply out to a power.
-/

set_option autoImplicit false

namespace HashedFeatures

/-! ## Selections of one term -/

theorem Choice.homogeneousSum_ones (k : Nat) (items : List Nat) (ones : ∀ item ∈ items, item = 1) :
    Choice.homogeneousSum k items = items.length.multichoose k := by
  have one : ∀ selection ∈ Choice.ascending k items, selection.prod = 1 := fun selection member =>
    List.prod_eq_one fun item chosen => ones item ((Choice.of_mem_ascending member).2 item chosen)
  rw [Choice.homogeneousSum, List.map_congr_left one, ← Choice.length_ascending]
  simp

namespace Term

variable (space : Space)

theorem length_selections {term : Term} (nonempty : term ≠ []) (permutations : Bool) :
    (term.selections permutations space).length =
      if permutations then (term.map space.sizeAt).prod
      else ((Norm.runs term).map fun run => (space.sizeAt run.1 + run.2 - 1).choose run.2).prod := by
  have ones (ns : UInt8) : ∀ weight ∈ space.weights (fun _ => 1) ns, weight = 1 := by simp [Space.weights]
  have each : weighed (fun _ => 1) = fun _ => 1 := funext fun selection => by simp [weighed]
  have sum (ns : UInt8) : (space.weights (fun _ => 1) ns).sum = space.sizeAt ns := by simp [Space.weights]
  have run : runSum space (fun _ => 1) = fun run => (space.sizeAt run.1 + run.2 - 1).choose run.2 := by
    funext run
    rw [runSum, Choice.homogeneousSum_ones _ _ (ones run.1), Space.length_weights, Nat.multichoose_eq]
  have total := sum_selections space (fun _ => 1) nonempty permutations
  simp only [each, sum, run] at total
  rw [← total]
  simp

end Term

/-! ## Templates of wildcards alone -/

namespace Space

variable (space : Space) (namespaces : NamespaceSet)

theorem length_occurrences :
    (space.occurrences namespaces).length = (namespaces.toList.map space.sizeAt).sum := by
  simp [occurrences, List.length_flatMap]

-- Every place multiplies by all features once more.
theorem sum_fillings (k : Nat) :
    ((Term.fillings namespaces (List.replicate k Namespace.wildcard)).map fun term =>
      (term.map space.sizeAt).prod).sum = (space.occurrences namespaces).length ^ k := by
  induction k with
  | zero => rfl
  | succ k ih =>
    have first (ns : UInt8) : (((Term.fillings namespaces (List.replicate k Namespace.wildcard)).map (ns :: ·)).map
        fun term => (term.map space.sizeAt).prod).sum =
        space.sizeAt ns * (space.occurrences namespaces).length ^ k := by
      rw [← ih, ← List.sum_map_mul_left, List.map_map]
      rfl
    rw [List.replicate_succ, Term.fillings, if_pos rfl, sum_map_flatMap]
    simp only [first]
    rw [List.sum_map_mul_right, ← length_occurrences, Nat.pow_succ']

-- Tidied or not, a term has the same namespaces, and in all orders these alone count.
theorem length_compiled {k : Nat} (positive : 0 < k) :
    ((Term.compile .permutations true namespaces [List.replicate k Namespace.wildcard]).terms.flatMap
      (Term.selections true space)).length = (space.occurrences namespaces).length ^ k := by
  have each : ∀ term ∈ Term.fillings namespaces (List.replicate k Namespace.wildcard),
      (Term.selections true space (Term.tidy term)).length = (term.map space.sizeAt).prod := by
    intro term member
    have length : term.length = k := by
      rw [← (Term.mem_fillings.1 member).length_eq, List.length_replicate]
    have nonempty : Term.tidy term ≠ [] := by
      rw [← List.length_pos_iff, (Term.tidy_perm term).length_eq]
      omega
    rw [Term.length_selections space nonempty, if_pos rfl]
    exact ((Term.tidy_perm term).map space.sizeAt).prod_eq
  have unfolded := Term.unfold_perm .permutations true namespaces [List.replicate k Namespace.wildcard]
  rw [List.flatMap_singleton, Term.instances_permutations] at unfolded
  rw [Term.compile_leaving, List.length_flatMap, List.map_map, (unfolded.map _).sum_eq, ← sum_fillings]
  exact congrArg List.sum (List.map_congr_left each)

end Space

namespace Example

theorem count_crossed (ec : Example) (audit : Bool) (terms : List Term) (permutations : Bool) (hashBits : UInt32)
    (scratch : Scratch) : (ec.crossed audit terms permutations hashBits scratch).1.count =
      (terms.flatMap fun term => term.selections permutations ec.space).length := by
  have counted := Expansion.terms_counted ⟨audit, ec.addressing hashBits⟩ permutations ec.space terms scratch
  rw [Emission.Counted, Expansion.terms_features, List.length_map] at counted
  exact counted

/-- In all orders a term yields as many features as its groups multiply to. Otherwise each of its maximal runs takes a
multiset of its length from its group. Wildcards that are filled in all orders yield every tuple of features. -/
theorem crossed_count (ec : Example) (audit : Bool) (hashBits : UInt32) (scratch : Scratch) :
    (∀ term : Term, term ≠ [] →
      (ec.crossed audit [term] true hashBits scratch).1.count = (term.map ec.space.sizeAt).prod ∧
      (∃! runs, term.MaximalRuns runs) ∧
      ∀ runs, term.MaximalRuns runs → (ec.crossed audit [term] false hashBits scratch).1.count =
        (runs.map fun run => (ec.space.sizeAt run.1 + run.2 - 1).choose run.2).prod) ∧
    ∀ (k : Nat) (namespaces : NamespaceSet), 0 < k →
      (ec.crossed audit (Term.compile .permutations true namespaces [List.replicate k Namespace.wildcard]).terms true
        hashBits scratch).1.count = (ec.space.occurrences namespaces).length ^ k := by
  refine ⟨fun term nonempty => ⟨?_, term.existsUnique_maximalRuns, fun runs maximal => ?_⟩,
    fun k namespaces positive => ?_⟩
  · rw [count_crossed, List.flatMap_singleton, Term.length_selections ec.space nonempty, if_pos rfl]
  · rw [count_crossed, List.flatMap_singleton, Term.length_selections ec.space nonempty, maximal.eq_runs]
    rfl
  · rw [count_crossed, ec.space.length_compiled namespaces positive]

/-- Two features of one namespace make four ordered pairs, three unordered ones, and eight triples for three
wildcards. -/
theorem crossed_count_two :
    let ec := { new 0 with space := Space.empty.insert 97 ((Group.empty.push 5 .one).push 7 .one) }
    (ec.crossed false [[97, 97]] true 18 #[]).1.count = 4 ∧ (ec.crossed false [[97, 97]] false 18 #[]).1.count = 3 ∧
      (ec.crossed false (Term.compile .permutations true (.ofList [97]) [List.replicate 3 Namespace.wildcard]).terms
        true 18 #[]).1.count = 8 := by
  intro ec
  obtain ⟨single, wild⟩ := crossed_count ec false 18 #[]
  obtain ⟨ordered, -, unordered⟩ := single [97, 97] (by decide)
  exact ⟨ordered.trans (by decide), (unordered [(97, 2)] ⟨by decide, by decide, by decide⟩).trans (by decide),
    (wild 3 (.ofList [97]) (by decide)).trans (by decide)⟩

end Example

end HashedFeatures
