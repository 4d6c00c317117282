import HashedFeatures.Proofs.Binary32.Integer
import HashedFeatures.Proofs.Expansion.Runs

/-! The squared norm in closed form, over integers.

Where the values are integers and the closed form meets small integers only, no binary32 number is
rounded: the closed form of a term is the sum over its selections. The table of homogeneous sums is
updated variable by variable, by the split of a homogeneous sum at its last item.
-/

set_option autoImplicit false

namespace HashedFeatures

open Binary32 (Small Stands IsInteger integer)

/-! ## Integral groups -/

namespace Group

def squares (group : Group) : List Int := group.features.map fun f => integer f.value ^ 2

structure Integral (group : Group) : Prop where
  values : ∀ f ∈ group.features, IsInteger f.value
  sum : Stands group.sumSquares group.squares.sum

instance (group : Group) : Decidable group.Integral :=
  decidable_of_iff ((∀ f ∈ group.features, IsInteger f.value) ∧ Stands group.sumSquares group.squares.sum)
    ⟨fun ⟨values, sum⟩ => ⟨values, sum⟩, fun ⟨values, sum⟩ => ⟨values, sum⟩⟩

theorem squares_nonneg (group : Group) : ∀ square ∈ group.squares, 0 ≤ square := by
  intro square member
  obtain ⟨f, -, rfl⟩ := List.mem_map.1 member
  exact sq_nonneg _

end Group

namespace Space

def Integral (space : Space) : Prop := ∀ ns group, space.get? ns = some group → group.Integral

instance (space : Space) : Decidable space.Integral :=
  decidable_of_iff (∀ entry ∈ space.toList, entry.2.Integral)
    ⟨fun each ns group found => each (ns, group) (mem_toList.2 found),
      fun each _ member => each _ _ (mem_toList.1 member)⟩

def integerAt (space : Space) (occurrence : Occurrence) : Int :=
  ((space.at? occurrence).map fun f => integer f.value).getD 0

def squareAt (space : Space) (occurrence : Occurrence) : Int := space.integerAt occurrence ^ 2

def squaresAt (space : Space) (ns : UInt8) : List Int := ((space.get? ns).map Group.squares).getD []

theorem weights_squareAt (space : Space) (ns : UInt8) : space.weights space.squareAt ns = space.squaresAt ns := by
  unfold weights squaresAt sizeAt
  cases found : space.get? ns with
  | none => rfl
  | some group =>
    apply List.ext_getElem
    · simp [Group.squares, Group.length]
    · intro p inside _
      have bound : p < group.features.length := by simpa [Group.length] using inside
      simp [squareAt, integerAt, at?, found, Group.squares, bound]

end Space

/-! ## The closed form -/

namespace Norm

open Choice (homogeneousSum)

/-- The numbers are the homogeneous sums of one degree after the other. -/
def Table (items : List Int) : Nat → List Float32 → Prop
  | _, [] => True
  | degree, sum :: higher => Stands sum (homogeneousSum degree items) ∧ Table items (degree + 1) higher

theorem table_nil (degree count : Nat) : Table [] (degree + 1) (List.replicate count 0) := by
  induction count generalizing degree with
  | zero => trivial
  | succ count ih => exact ⟨Choice.homogeneousSum_nil (R := Int) degree ▸ Stands.zero, ih (degree + 1)⟩

theorem Table.getD {items : List Int} {degree : Nat} {sums : List Float32} (table : Table items degree sums) {k : Nat}
    (inside : k < sums.length) : Stands (sums.getD k 0) (homogeneousSum (degree + k) items) := by
  induction sums generalizing degree k with
  | nil => exact absurd inside (Nat.not_lt_zero k)
  | cons sum higher ih =>
    cases k with
    | zero => exact table.1
    | succ k =>
      have later := ih table.2 (Nat.lt_of_succ_lt_succ inside)
      rwa [Nat.add_right_comm] at later

-- Every degree takes in the new sum of the degree below.
theorem Table.go {items : List Int} {x below : Float32} {square : Int} {degree most : Nat} {sums : List Float32}
    (nonneg : ∀ item ∈ items ++ [square], 0 ≤ item) (factor : Stands x square)
    (start : Stands below (homogeneousSum degree (items ++ [square]))) (bound : degree + sums.length ≤ most)
    (small : ∀ k, 0 < k → k ≤ most → Small (homogeneousSum k (items ++ [square])))
    (table : Table items (degree + 1) sums) :
    Table (items ++ [square]) (degree + 1) (takeVariable.go x below sums) := by
  induction sums generalizing below degree with
  | nil => trivial
  | cons sum higher ih =>
    rw [List.length_cons] at bound
    obtain ⟨old, fewer⟩ := List.forall_mem_append.1 nonneg
    have whole := small (degree + 1) (by omega) (by omega)
    have split := Choice.homogeneousSum_concat degree items square
    have present := Choice.homogeneousSum_nonneg old (degree + 1)
    have taken := mul_nonneg (Choice.homogeneousSum_nonneg nonneg degree) (fewer square (by simp))
    have product := start.mul factor (whole.mono taken (by omega))
    have raised := table.1.add product (split ▸ whole)
    rw [← split] at raised
    exact ⟨raised, ih raised (by omega) table.2⟩

@[simp] theorem length_go (x below : Float32) (sums : List Float32) :
    (takeVariable.go x below sums).length = sums.length := by
  induction sums generalizing below with
  | nil => rfl
  | cons sum higher ih => simp [takeVariable.go, ih]

@[simp] theorem length_takeVariable (x : Float32) (sums : List Float32) :
    (takeVariable x sums).length = sums.length := by
  cases sums <;> simp [takeVariable]

theorem length_foldl (features : List Feature) (sums : List Float32) :
    (features.foldl (fun sums f => takeVariable (f.value * f.value) sums) sums).length = sums.length := by
  induction features generalizing sums with
  | nil => rfl
  | cons f rest ih => rw [List.foldl_cons, ih, length_takeVariable]

theorem Table.more {items : List Int} {x : Float32} {square : Int} {sums : List Float32}
    (nonneg : ∀ item ∈ items ++ [square], 0 ≤ item) (factor : Stands x square)
    (small : ∀ k, 0 < k → k ≤ sums.length → Small (homogeneousSum k (items ++ [square])))
    (table : Table items 1 sums) : Table (items ++ [square]) 1 (takeVariable x sums) := by
  cases sums with
  | nil => trivial
  | cons sum higher =>
    have split := Choice.homogeneousSum_concat 0 items square
    rw [Choice.homogeneousSum_zero, one_mul] at split
    have raised := table.1.add factor (split ▸ small 1 (by omega) (by simp))
    rw [← split] at raised
    exact ⟨raised, table.2.go nonneg factor raised (by simp; omega) small⟩

-- The table of the variables that were taken in, up to the last one.
theorem Table.foldl {items : List Int} {features : List Feature} {sums : List Float32} (filled : 0 < sums.length)
    (values : ∀ f ∈ features, IsInteger f.value) (nonneg : ∀ item ∈ items, 0 ≤ item)
    (small : ∀ k, 0 < k → k ≤ sums.length →
      Small (homogeneousSum k (items ++ features.map fun f => integer f.value ^ 2)))
    (table : Table items 1 sums) :
    Table (items ++ features.map fun f => integer f.value ^ 2) 1
      (features.foldl (fun sums f => takeVariable (f.value * f.value) sums) sums) := by
  induction features generalizing items sums with
  | nil => simpa using table
  | cons f rest ih =>
    obtain ⟨first, others⟩ := List.forall_mem_cons.1 values
    rw [List.map_cons, List.append_cons] at small ⊢
    have later : ∀ square ∈ rest.map fun f => integer f.value ^ 2, 0 ≤ square := by
      intro square member
      obtain ⟨g, -, rfl⟩ := List.mem_map.1 member
      exact sq_nonneg _
    have now : ∀ item ∈ items ++ [integer f.value ^ 2], 0 ≤ item :=
      List.forall_mem_append.2 ⟨nonneg, by simpa using sq_nonneg (integer f.value)⟩
    have soon (k : Nat) (positive : 0 < k) (below : k ≤ sums.length) :
        Small (homogeneousSum k (items ++ [integer f.value ^ 2])) :=
      (small k positive below).mono (Choice.homogeneousSum_nonneg now k)
        (Choice.homogeneousSum_le_append (List.forall_mem_append.2 ⟨now, later⟩) k)
    have square : Small (integer f.value * integer f.value) := by
      have sum := soon 1 (by omega) filled
      have total := List.sum_nonneg nonneg
      rw [Choice.homogeneousSum_one, List.sum_append, List.sum_singleton, sq] at sum
      exact sum.mono (mul_self_nonneg _) (by omega)
    have factor := first.mul first square
    rw [← sq] at factor
    have next := table.more now factor soon
    simp only [List.foldl_cons]
    exact ih (by simpa using filled) others now (by simpa using small) next

theorem homogeneous_stands {degree : Nat} (positive : 0 < degree) {group : Group} (integral : group.Integral)
    (small : Small (homogeneousSum degree group.squares)) :
    Stands (homogeneous degree group.features) (homogeneousSum degree group.squares) := by
  have each (k : Nat) (present : 0 < k) (below : k ≤ degree) : Small (homogeneousSum k group.squares) :=
    small.mono (Choice.homogeneousSum_nonneg group.squares_nonneg k)
      (Choice.homogeneousSum_le_of_le group.squares_nonneg present below)
  have table : Table group.squares 1 (group.features.foldl (fun sums f => takeVariable (f.value * f.value) sums)
      (List.replicate degree 0)) := by
    apply Table.foldl (by simpa using positive) integral.values (by simp) _ (table_nil 0 degree)
    rw [List.length_replicate]
    exact each
  have last := table.getD (k := degree - 1) (by rw [length_foldl, List.length_replicate]; omega)
  rwa [Nat.add_sub_cancel' positive] at last

/-! ## Terms -/

/-- The runs that the closed form multiplies: it ends at the first missing namespace. -/
def present (space : Space) (term : Term) : List (UInt8 × Nat) :=
  (runs term).takeWhile fun run => (space.get? run.1).isSome

def exactRun (space : Space) (run : UInt8 × Nat) : Int := homogeneousSum run.2 (space.squaresAt run.1)

def factors (permutations : Bool) (space : Space) (term : Term) : List Int :=
  if permutations then term.map fun ns => (space.squaresAt ns).sum else (present space term).map (exactRun space)

/-- The integers that the closed form of a term computes; the factor of a single id is only read. -/
def steps (permutations : Bool) (space : Space) (term : Term) : List Int :=
  (if permutations then [] else ((present space term).filter fun run => run.2 ≠ 1).map (exactRun space)) ++
    ((factors permutations space term).scanl (· * ·) 1).tail

theorem squaresAt_eq {space : Space} {ns : UInt8} {group : Group} (found : space.get? ns = some group) :
    space.squaresAt ns = group.squares := by
  simp [Space.squaresAt, found]

theorem ofRun_stands {group : Group} (integral : group.Integral) {length : Nat} (positive : 0 < length)
    (small : length ≠ 1 → Small (homogeneousSum length group.squares)) :
    Stands (ofRun group length) (homogeneousSum length group.squares) := by
  unfold ofRun
  split
  case isTrue single =>
    rw [single, Choice.homogeneousSum_one]
    exact integral.sum
  case isFalse several => exact homogeneous_stands positive integral (small several)

theorem ofRuns_stands {space : Space} (integral : space.Integral) {product : Float32} {n : Int}
    {runs : List (UInt8 × Nat)} (positive : ∀ run ∈ runs, 0 < run.2)
    (small : ∀ run ∈ runs.takeWhile fun run => (space.get? run.1).isSome, run.2 ≠ 1 → Small (exactRun space run))
    (products : ∀ result ∈ (((runs.takeWhile fun run => (space.get? run.1).isSome).map (exactRun space)).scanl
      (· * ·) n).tail, Small result)
    (start : Stands product n) : Stands (ofRuns space product runs) (n * (runs.map (exactRun space)).prod) := by
  induction runs generalizing product n with
  | nil => simpa [ofRuns] using start
  | cons run rest ih =>
    obtain ⟨filled, others⟩ := List.forall_mem_cons.1 positive
    unfold ofRuns
    cases found : space.get? run.1 with
    | none =>
      -- Nothing is selected from a missing namespace.
      obtain ⟨k, length⟩ := Nat.exists_eq_succ_of_ne_zero filled.ne'
      have nothing : exactRun space run = 0 := by simp [exactRun, Space.squaresAt, found, length]
      simpa [nothing] using Stands.zero
    | some group =>
      have kept : (run :: rest).takeWhile (fun run => (space.get? run.1).isSome) =
          run :: rest.takeWhile fun run => (space.get? run.1).isSome := by simp [found]
      rw [kept] at small products
      obtain ⟨single, smaller⟩ := List.forall_mem_cons.1 small
      obtain ⟨next, later⟩ := Binary32.forall_mem_tail_scanl_cons.1 products
      have exact : exactRun space run = homogeneousSum run.2 group.squares := by
        rw [exactRun, squaresAt_eq found]
      have factor := ofRun_stands (integral _ _ found) filled (exact ▸ single)
      rw [← exact] at factor
      rw [List.map_cons, List.prod_cons, ← mul_assoc]
      exact ih others smaller later (start.mul factor next)

def exactTerm (permutations : Bool) (space : Space) (term : Term) : Int :=
  ((term.selections permutations space).map (weighed space.squareAt)).sum

theorem ofTerm_stands {permutations : Bool} {space : Space} (integral : space.Integral) {term : Term}
    (nonempty : term ≠ []) (small : ∀ n ∈ steps permutations space term, Small n) :
    Stands (ofTerm permutations space term) (exactTerm permutations space term) := by
  obtain ⟨single, products⟩ := List.forall_mem_append.1 small
  unfold exactTerm ofTerm
  rw [Term.sum_selections space space.squareAt nonempty permutations]
  cases permutations with
  | true =>
    have step (ns : UInt8) (_ : ns ∈ term) {x : Float32} {n : Int} (start : Stands x n)
        (next : Small (n * (space.squaresAt ns).sum)) :
        Stands (x * ((space.get? ns).map Group.sumSquares).getD 0) (n * (space.squaresAt ns).sum) := by
      refine start.mul ?_ next
      cases found : space.get? ns with
      | none => simpa [Space.squaresAt, found] using Stands.zero
      | some group => simpa [squaresAt_eq found] using (integral ns group found).sum
    have products : ∀ result ∈ (term.scanl (fun n ns => n * (space.squaresAt ns).sum) 1).tail, Small result := by
      simpa [factors, List.scanl_map] using products
    have total := Stands.foldl step Stands.one products
    simpa [Space.weights_squareAt, List.prod_eq_foldl, List.foldl_map] using total
  | false =>
    have several (run : UInt8 × Nat) (member : run ∈ present space term) (long : run.2 ≠ 1) :
        Small (exactRun space run) :=
      single _ (List.mem_map.2 ⟨run, List.mem_filter.2 ⟨member, by simpa using long⟩, rfl⟩)
    have total := ofRuns_stands integral (Term.maximalRuns_runs term).filled several products Stands.one
    rw [one_mul] at total
    have same : exactRun space = Term.runSum space space.squareAt := by
      funext run
      rw [exactRun, Term.runSum, Space.weights_squareAt]
    rw [same] at total
    exact total

end Norm

end HashedFeatures
