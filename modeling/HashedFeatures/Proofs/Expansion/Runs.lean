import HashedFeatures.Expansion.Norm
import HashedFeatures.Proofs.Expansion.Enumeration
import HashedFeatures.Proofs.Term.Homogeneous

/-! Sums over all selections of a term, in closed form.

Every occurrence has a weight, and a selection the product of its weights. In all orders the sum over
the selections is the product of the sums of the namespaces. Otherwise every run of one namespace
contributes the complete homogeneous sum of its weights.
-/

set_option autoImplicit false

namespace HashedFeatures

theorem sum_map_flatMap {R α β : Type} [CommSemiring R] (items : List α) (f : α → List β) (g : β → R) :
    ((items.flatMap f).map g).sum = (items.map fun item => ((f item).map g).sum).sum := by
  rw [List.map_flatMap, List.flatMap_def, List.sum_flatten, List.map_map]
  rfl

def weighed {R : Type} [CommSemiring R] (weight : Occurrence → R) (selection : List Occurrence) : R :=
  (selection.map weight).prod

namespace Space

def weights {R : Type} (space : Space) (weight : Occurrence → R) (ns : UInt8) : List R :=
  (List.range (space.sizeAt ns)).map fun p => weight (ns, p)

@[simp] theorem length_weights {R : Type} (space : Space) (weight : Occurrence → R) (ns : UInt8) :
    (space.weights weight ns).length = space.sizeAt ns := by
  simp [weights]

theorem getD_weights {R : Type} [CommSemiring R] {space : Space} {ns : UInt8} {p : Nat}
    (inside : p < space.sizeAt ns) (weight : Occurrence → R) :
    (space.weights weight ns).getD p 0 = weight (ns, p) := by
  simp [weights, inside]

end Space

namespace Term

/-! ## Maximal runs -/

/-- Runs of one namespace each that make up a term, and that cannot be joined any further. -/
structure MaximalRuns (term : Term) (runs : List (UInt8 × Nat)) : Prop where
  joined : (runs.flatMap fun run => List.replicate run.2 run.1) = term
  filled : ∀ run ∈ runs, 0 < run.2
  apart : runs.IsChain fun run next => run.1 ≠ next.1

theorem maximalRuns_nil : MaximalRuns [] [] := ⟨rfl, by simp, .nil⟩

theorem MaximalRuns.cons_same {ns : UInt8} {length : Nat} {more : List (UInt8 × Nat)} {rest : Term}
    (maximal : MaximalRuns rest ((ns, length) :: more)) : MaximalRuns (ns :: rest) ((ns, length + 1) :: more) where
  joined := by
    rw [← maximal.joined, List.flatMap_cons, List.flatMap_cons, List.replicate_succ, List.cons_append]
  filled := List.forall_mem_cons.2 ⟨Nat.succ_pos length, (List.forall_mem_cons.1 maximal.filled).2⟩
  apart := by
    have apart := maximal.apart
    rw [List.isChain_cons] at apart ⊢
    exact apart

theorem MaximalRuns.cons_other {ns : UInt8} {runs : List (UInt8 × Nat)} {rest : Term}
    (maximal : MaximalRuns rest runs) (other : ∀ run ∈ runs.head?, ns ≠ run.1) :
    MaximalRuns (ns :: rest) ((ns, 1) :: runs) where
  joined := by
    rw [List.flatMap_cons, maximal.joined]
    rfl
  filled := List.forall_mem_cons.2 ⟨Nat.one_pos, maximal.filled⟩
  apart := List.isChain_cons.2 ⟨other, maximal.apart⟩

theorem maximalRuns_runs (term : Term) : MaximalRuns term (Norm.runs term) := by
  induction term with
  | nil => exact maximalRuns_nil
  | cons ns rest ih =>
    unfold Norm.runs
    split
    next next length more found =>
      rw [found] at ih
      split
      case isTrue same =>
        subst same
        exact ih.cons_same
      case isFalse different => exact ih.cons_other (by simpa using different)
    next found =>
      rw [found] at ih
      exact ih.cons_other (by simp)

theorem runs_cons_same {ns : UInt8} {length : Nat} {more : List (UInt8 × Nat)} {rest : Term}
    (found : Norm.runs rest = (ns, length) :: more) : Norm.runs (ns :: rest) = (ns, length + 1) :: more := by
  rw [Norm.runs, found]
  exact if_pos rfl

theorem runs_cons_other {ns : UInt8} {rest : Term} (other : ∀ run ∈ (Norm.runs rest).head?, ns ≠ run.1) :
    Norm.runs (ns :: rest) = (ns, 1) :: Norm.runs rest := by
  rw [Norm.runs]
  cases found : Norm.runs rest with
  | nil => rfl
  | cons run more =>
    rw [found] at other
    exact if_neg (other run rfl)

theorem runs_replicate_append {ns : UInt8} {rest : Term} (other : ∀ run ∈ (Norm.runs rest).head?, ns ≠ run.1)
    (count : Nat) : Norm.runs (List.replicate (count + 1) ns ++ rest) = (ns, count + 1) :: Norm.runs rest := by
  induction count with
  | zero => exact runs_cons_other other
  | succ count ih => exact runs_cons_same ih

-- Read from the back, a run takes up every repeat of its namespace, and no other list of runs is maximal.
theorem MaximalRuns.eq_runs {term : Term} {runs : List (UInt8 × Nat)} (maximal : MaximalRuns term runs) :
    runs = Norm.runs term := by
  induction runs generalizing term with
  | nil =>
    rw [← maximal.joined]
    rfl
  | cons run more ih =>
    obtain ⟨positive, filled⟩ := List.forall_mem_cons.1 maximal.filled
    obtain ⟨other, apart⟩ := List.isChain_cons.1 maximal.apart
    obtain ⟨count, length⟩ := Nat.exists_eq_succ_of_ne_zero positive.ne'
    have behind : more = Norm.runs (more.flatMap fun run => List.replicate run.2 run.1) := ih ⟨rfl, filled, apart⟩
    rw [← maximal.joined, List.flatMap_cons, length, runs_replicate_append (behind ▸ other), ← behind]
    exact congrArg (· :: more) (Prod.ext rfl length)

theorem existsUnique_maximalRuns (term : Term) : ∃! runs, MaximalRuns term runs :=
  ⟨Norm.runs term, maximalRuns_runs term, fun _ maximal => maximal.eq_runs⟩

variable {R : Type} [CommSemiring R] (space : Space) (weight : Occurrence → R)

/-! ## Ascending selections -/

/-- The positions ascend in repeated namespaces, and the first one is not in front of `start`. -/
def ascendsFrom (start : Nat) (term : Term) (tuple : List Nat) : Bool :=
  tuple.head?.all (start ≤ ·) && term.ascends tuple

/-- Where the positions of the next id start when the id in front of it stands at `p`. -/
def onward (ns : UInt8) (p : Nat) (rest : Term) : Nat :=
  if rest.head? = some ns then p else 0

theorem ascendsFrom_cons (start : Nat) (ns : UInt8) (rest : Term) (p : Nat) (tuple : List Nat) :
    ascendsFrom start (ns :: rest) (p :: tuple) =
      (decide (start ≤ p) && ascendsFrom (onward ns p rest) rest tuple) := by
  cases rest with
  | nil => cases tuple <;> simp [ascendsFrom, ascends, onward]
  | cons next rest =>
    cases tuple with
    | nil => simp [ascendsFrom, ascends]
    | cons q tuple =>
      by_cases same : next = ns
      · simp [ascendsFrom, ascends, onward, same]
      · have other : (ns != next) = true := bne_iff_ne.2 (Ne.symm same)
        simp [ascendsFrom, ascends, onward, same, other]

def sumFrom : Nat → Term → R
  | _, [] => 1
  | start, ns :: rest =>
    ((List.range' start (space.sizeAt ns - start)).map fun p =>
      weight (ns, p) * sumFrom (onward ns p rest) rest).sum

theorem sum_ascendsFrom (start : Nat) (term : Term) :
    (((tuples (term.map space.sizeAt)).filter (ascendsFrom start term)).map fun tuple =>
      weighed weight (term.zip tuple)).sum = sumFrom space weight start term := by
  induction term generalizing start with
  | nil => simp [tuples, ascendsFrom, ascends, weighed, sumFrom]
  | cons ns rest ih =>
    -- The tuples that begin with `p` are all there from `start` on, and none in front of it.
    have turn (p : Nat) : ((tuples (rest.map space.sizeAt)).map (p :: ·)).filter (ascendsFrom start (ns :: rest)) =
        if start ≤ p then
          ((tuples (rest.map space.sizeAt)).filter (ascendsFrom (onward ns p rest) rest)).map (p :: ·)
        else [] := by
      rw [List.filter_map]
      by_cases inside : start ≤ p
      · rw [if_pos inside]
        congr 2
        funext tuple
        simp [ascendsFrom_cons, inside]
      · simp [Function.comp_def, ascendsFrom_cons, inside]
    rw [List.map_cons, tuples, List.filter_flatMap]
    simp only [turn]
    rw [flatMap_range_from, sum_map_flatMap, sumFrom]
    congr 1
    apply List.map_congr_left
    intro p _
    rw [← ih, ← List.sum_map_mul_left, List.map_map]
    rfl

/-! ## Runs of one namespace -/

def runSum (run : UInt8 × Nat) : R := Choice.homogeneousSum run.2 (space.weights weight run.1)

theorem head?_runs (term : Term) : (Norm.runs term).head?.map Prod.fst = term.head? := by
  induction term with
  | nil => rfl
  | cons ns rest ih =>
    unfold Norm.runs
    cases found : Norm.runs rest with
    | nil => rfl
    | cons run more =>
      by_cases same : ns = run.1 <;> simp [same]

theorem sum_onward (k start : Nat) (ns : UInt8) :
    ((List.range' start (space.sizeAt ns - start)).map fun p =>
      weight (ns, p) * Choice.homogeneousSum k ((space.weights weight ns).drop p)).sum =
      Choice.homogeneousSum (k + 1) ((space.weights weight ns).drop start) := by
  rw [Choice.homogeneousSum_drop, Space.length_weights]
  congr 1
  apply List.map_congr_left
  intro p member
  have inside : p < space.sizeAt ns := by have := List.mem_range'_1.1 member; omega
  rw [Space.getD_weights inside]

-- The first run is cut off at the start; every other one begins at the first feature.
theorem sumFrom_eq (start : Nat) (term : Term) :
    sumFrom space weight start term =
      match Norm.runs term with
      | [] => 1
      | (ns, length) :: more =>
        Choice.homogeneousSum length ((space.weights weight ns).drop start) *
          (more.map (runSum space weight)).prod := by
  induction term generalizing start with
  | nil => rfl
  | cons ns rest ih =>
    have head := head?_runs rest
    unfold sumFrom Norm.runs
    simp only [ih]
    cases found : Norm.runs rest with
    | nil => simpa using sum_onward space weight 0 start ns
    | cons run more =>
      rw [found] at head
      simp only [List.head?_cons, Option.map_some] at head
      by_cases same : ns = run.1
      · subst same
        simp only [if_true, onward, ← head, ← mul_assoc, List.sum_map_mul_right]
        rw [sum_onward]
      · have apart : ¬ some run.1 = some ns := fun equal => same (Option.some.inj equal).symm
        have single := sum_onward space weight 0 start ns
        simp only [Choice.homogeneousSum_zero, mul_one] at single
        simp only [onward, ← head, if_neg apart, if_neg same, List.drop_zero, List.sum_map_mul_right]
        rw [single, List.map_cons, List.prod_cons]
        rfl

/-! ## All selections -/

theorem sum_tuples (term : Term) :
    ((tuples (term.map space.sizeAt)).map fun tuple => weighed weight (term.zip tuple)).sum =
      (term.map fun ns => (space.weights weight ns).sum).prod := by
  induction term with
  | nil => simp [tuples, weighed]
  | cons ns rest ih =>
    rw [List.map_cons, tuples, sum_map_flatMap, List.map_cons, List.prod_cons, ← ih, Space.weights,
      ← List.sum_map_mul_right]
    congr 1
    apply List.map_congr_left
    intro p _
    rw [List.map_map, ← List.sum_map_mul_left]
    rfl

theorem tuples_eq_nil {lengths : List Nat} (empty : 0 ∈ lengths) : tuples lengths = [] := by
  induction lengths with
  | nil => cases empty
  | cons length lengths ih =>
    rcases List.mem_cons.1 empty with rfl | later
    · rfl
    · simp [tuples, ih later]

theorem sum_selections {term : Term} (nonempty : term ≠ []) (permutations : Bool) :
    ((term.selections permutations space).map (weighed weight)).sum =
      if permutations then (term.map fun ns => (space.weights weight ns).sum).prod
      else ((Norm.runs term).map (runSum space weight)).prod := by
  have kept : term.selections permutations space =
      ((tuples (term.map space.sizeAt)).filter fun tuple => permutations || term.ascends tuple).map term.zip := by
    unfold selections
    split
    case isTrue without =>
      obtain ⟨ns, member, empty⟩ : ∃ ns ∈ term, space.isEmptyAt ns = true := by
        simpa [nonempty] using without
      rw [tuples_eq_nil (List.mem_map.2 ⟨ns, member, Space.isEmptyAt_iff.1 empty⟩)]
      rfl
    case isFalse => rfl
  rw [kept, List.map_map]
  cases permutations with
  | true => simpa [Function.comp_def] using sum_tuples space weight term
  | false =>
    have ascending : (fun tuple => false || term.ascends tuple) = ascendsFrom 0 term := by
      funext tuple
      cases tuple <;> simp [ascendsFrom]
    have total := (sum_ascendsFrom space weight 0 term).trans (sumFrom_eq space weight 0 term)
    rw [ascending]
    refine total.trans ?_
    cases Norm.runs term with
    | nil => rfl
    | cons run more => simp [runSum]

end Term

end HashedFeatures
