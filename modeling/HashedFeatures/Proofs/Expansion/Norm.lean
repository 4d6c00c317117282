import HashedFeatures.Proofs.Expansion.ClosedForm
import HashedFeatures.Proofs.Expansion.Traversal

/-! The squared norm in closed form is the sum of the squares that the expansion emits.

The values are integers, and the integers that either computation meets are small, so that no binary32
number is rounded. The closed form of a term is the sum over its selections, and each of these is emitted.
-/

set_option autoImplicit false

namespace HashedFeatures

open Binary32 (Small Stands IsInteger integer)

/-! ## The enumeration -/

def productSteps : List Feature → List Int
  | [] => []
  | first :: rest => (rest.scanl (fun n f => n * integer f.value) (integer first.value)).tail

theorem product_stands {features : List Feature} (values : ∀ f ∈ features, IsInteger f.value)
    (small : ∀ n ∈ productSteps features, Small n) :
    Stands (product features) (features.map fun f => integer f.value).prod := by
  cases features with
  | nil => exact Stands.one
  | cons first rest =>
    obtain ⟨start, others⟩ := List.forall_mem_cons.1 values
    have total := Stands.foldl (fun f member _ _ value next => value.mul (others f member) next) start small
    rw [List.map_cons, List.prod_eq_foldl, List.foldl_cons, one_mul, List.foldl_map]
    exact total

namespace Space

variable {space : Space}

theorem Integral.values_at? (integral : space.Integral) (selection : List Occurrence) :
    ∀ f ∈ selection.filterMap space.at?, IsInteger f.value := by
  intro f member
  obtain ⟨occurrence, -, found⟩ := List.mem_filterMap.1 member
  obtain ⟨group, present, member⟩ : ∃ group, space.get? occurrence.1 = some group ∧
      group.features[occurrence.2]? = some f := by
    simpa [Space.at?, Option.bind_eq_some_iff] using found
  exact (integral _ group present).values f (List.mem_of_getElem? member)

theorem map_integer_at? {selection : List Occurrence}
    (present : ∀ occurrence ∈ selection, (space.at? occurrence).isSome) :
    ((selection.filterMap space.at?).map fun f => integer f.value) = selection.map space.integerAt := by
  induction selection with
  | nil => rfl
  | cons occurrence rest ih =>
    obtain ⟨first, others⟩ := List.forall_mem_cons.1 present
    obtain ⟨f, found⟩ := Option.isSome_iff_exists.1 first
    rw [List.filterMap_cons, found, List.map_cons, List.map_cons, ih others, integerAt, found]
    rfl

end Space

/-! ## Sums of squares -/

def squaredNorm (features : List Weighted) : Float32 := features.foldl (fun sum w => sum + w.value * w.value) 0

def exactNorm (features : List Weighted) : Int := (features.map fun w => integer w.value ^ 2).sum

theorem squaredNorm_stands {features : List Weighted} (values : ∀ w ∈ features, IsInteger w.value)
    (small : Small (exactNorm features)) : Stands (squaredNorm features) (exactNorm features) := by
  have nonneg : ∀ square ∈ features.map fun w => integer w.value ^ 2, 0 ≤ square := by
    intro square member
    obtain ⟨w, -, rfl⟩ := List.mem_map.1 member
    exact sq_nonneg _
  have each (w : Weighted) (member : w ∈ features) : Stands (w.value * w.value) (integer w.value ^ 2) := by
    have below := List.single_le_sum nonneg _ (List.mem_map_of_mem member)
    rw [sq] at below ⊢
    exact (values w member).mul (values w member) (small.mono (mul_self_nonneg _) below)
  have total := Stands.zero.foldl_add each (fun w _ => sq_nonneg _) le_rfl (by rwa [Int.zero_add])
  rwa [Int.zero_add] at total

namespace Space

def exactLinear (space : Space) : Int := (space.toList.map fun (_, group) => group.squares.sum).sum

theorem exactLinear_nonneg (space : Space) : 0 ≤ space.exactLinear := by
  apply List.sum_nonneg
  intro sum member
  obtain ⟨entry, -, rfl⟩ := List.mem_map.1 member
  exact List.sum_nonneg entry.2.squares_nonneg

end Space

theorem Norm.linear_stands {space : Space} (integral : space.Integral) (small : Small space.exactLinear) :
    Stands (Norm.linear space) space.exactLinear := by
  have each (entry : UInt8 × Group) (member : entry ∈ space.toList) :
      Stands entry.2.sumSquares entry.2.squares.sum :=
    (integral _ _ (Space.mem_toList.1 member)).sum
  have total := Stands.negZero.foldl_add each (fun entry _ => List.sum_nonneg entry.2.squares_nonneg) le_rfl
    (by rwa [Int.zero_add])
  rwa [Int.zero_add] at total

namespace Norm

def exactTerms (permutations : Bool) (space : Space) (terms : List Term) : Int :=
  (terms.map (exactTerm permutations space)).sum

/-- No number that the closed form and the expansion compute for a term is rounded. -/
structure Exact (permutations : Bool) (space : Space) (term : Term) : Prop where
  nonempty : term ≠ []
  closed : ∀ n ∈ steps permutations space term, Small n
  products : ∀ selection ∈ term.selections permutations space,
    ∀ n ∈ productSteps (selection.filterMap space.at?), Small n

instance (permutations : Bool) (space : Space) (term : Term) : Decidable (Exact permutations space term) :=
  decidable_of_iff (term ≠ [] ∧ (∀ n ∈ steps permutations space term, Small n) ∧
      ∀ selection ∈ term.selections permutations space, ∀ n ∈ productSteps (selection.filterMap space.at?), Small n)
    ⟨fun ⟨nonempty, closed, products⟩ => ⟨nonempty, closed, products⟩,
      fun ⟨nonempty, closed, products⟩ => ⟨nonempty, closed, products⟩⟩

variable {permutations : Bool} {space : Space} {terms : List Term}

theorem exactTerm_nonneg (term : Term) : 0 ≤ exactTerm permutations space term := by
  apply List.sum_nonneg
  intro summand member
  obtain ⟨selection, -, rfl⟩ := List.mem_map.1 member
  apply List.prod_nonneg
  intro square member
  obtain ⟨occurrence, -, rfl⟩ := List.mem_map.1 member
  exact sq_nonneg _

theorem exactTerms_nonneg (terms : List Term) : 0 ≤ exactTerms permutations space terms := by
  apply List.sum_nonneg
  intro sum member
  obtain ⟨term, -, rfl⟩ := List.mem_map.1 member
  exact exactTerm_nonneg term

theorem ofTerms_stands (integral : space.Integral) (exact : ∀ term ∈ terms, Exact permutations space term)
    (small : Small (exactTerms permutations space terms)) :
    Stands (ofTerms permutations space terms) (exactTerms permutations space terms) := by
  have each (term : Term) (member : term ∈ terms) :
      Stands (ofTerm permutations space term) (exactTerm permutations space term) :=
    ofTerm_stands integral (exact term member).nonempty (exact term member).closed
  have total := Stands.zero.foldl_add each (fun term _ => exactTerm_nonneg term) le_rfl (by rwa [Int.zero_add])
  rwa [Int.zero_add] at total

theorem weigh_stands (integral : space.Integral) {term : Term} (exact : Exact permutations space term)
    {selection : List Occurrence} (member : selection ∈ term.selections permutations space) :
    Stands (product (selection.filterMap space.at?)) (selection.map space.integerAt).prod := by
  have value := product_stands (integral.values_at? selection) (exact.products selection member)
  rwa [Space.map_integer_at? (Term.isSome_at?_of_mem_selections member)] at value

end Norm

namespace Example

variable {ec : Example} {permutations : Bool} {terms : List Term}

theorem crossed_isInteger (integral : ec.space.Integral)
    (exact : ∀ term ∈ terms, Norm.Exact permutations ec.space term) (hashBits : UInt32) :
    ∀ w ∈ (terms.flatMap fun term => term.selections permutations ec.space).map (ec.weigh hashBits),
      IsInteger w.value := by
  intro w member
  obtain ⟨selection, selected, rfl⟩ := List.mem_map.1 member
  obtain ⟨term, listed, inside⟩ := List.mem_flatMap.1 selected
  exact (Norm.weigh_stands integral (exact term listed) inside).isInteger

theorem exactNorm_crossed (integral : ec.space.Integral)
    (exact : ∀ term ∈ terms, Norm.Exact permutations ec.space term) (hashBits : UInt32) :
    exactNorm ((terms.flatMap fun term => term.selections permutations ec.space).map (ec.weigh hashBits)) =
      Norm.exactTerms permutations ec.space terms := by
  unfold exactNorm Norm.exactTerms
  rw [List.map_map, sum_map_flatMap]
  congr 1
  apply List.map_congr_left
  intro term listed
  unfold Norm.exactTerm
  congr 1
  apply List.map_congr_left
  intro selection inside
  have value := Norm.weigh_stands integral (exact term listed) inside
  change integer (product _) ^ 2 = (selection.map fun occurrence => ec.space.integerAt occurrence ^ 2).prod
  simp only [value.integer_eq, sq, List.prod_map_mul]

theorem linear_isInteger (integral : ec.space.Integral) : ∀ f ∈ ec.space.linearFeatures .empty, IsInteger f.value := by
  intro f member
  obtain ⟨⟨ns, group⟩, listed, inside⟩ := List.mem_flatMap.1 member
  simp only [NamespaceSet.not_mem_empty, if_false] at inside
  exact (integral ns group (Space.mem_toList.1 listed)).values f inside

theorem exactNorm_linear (scale : Feature → UInt64) :
    exactNorm ((ec.space.linearFeatures .empty).map fun f => ⟨f.value, scale f⟩) = ec.space.exactLinear := by
  unfold exactNorm Space.exactLinear Space.linearFeatures
  rw [List.map_map, sum_map_flatMap]
  congr 1
  apply List.map_congr_left
  rintro ⟨ns, group⟩ -
  simp only [NamespaceSet.not_mem_empty, if_false]
  rfl

/-- As long as all integers are small, the squared norm in closed form is the sum of the squares that the
expansion emits, and with the linear features that of a whole traversal. -/
theorem norm_eq_squaredNorm (ec : Example) (audit : Bool) (terms : List Term) (permutations : Bool) (hashBits : UInt32)
    (scratch : Scratch) (integral : ec.space.Integral)
    (exact : ∀ term ∈ terms, Norm.Exact permutations ec.space term)
    (small : Small (Norm.exactTerms permutations ec.space terms)) :
    let crossed := Event.features (ec.crossed audit terms permutations hashBits scratch).1.events
    let all := Event.features (ec.traverse false .empty terms permutations hashBits scratch).1.events
    Stands (Norm.ofTerms permutations ec.space terms) (Norm.exactTerms permutations ec.space terms) ∧
      (Norm.ofTerms permutations ec.space terms == squaredNorm crossed) = true ∧
      (Small (ec.space.exactLinear + Norm.exactTerms permutations ec.space terms) →
        (Norm.total permutations ec.space terms == squaredNorm all) = true) := by
  intro crossed all
  have closed := Norm.ofTerms_stands integral exact small
  have integers := crossed_isInteger integral exact hashBits
  have norm := exactNorm_crossed integral exact hashBits
  have emitted : Stands (squaredNorm crossed) (Norm.exactTerms permutations ec.space terms) := by
    have features : crossed = _ := Expansion.terms_features _ permutations ec.space terms scratch
    rw [features, ← norm]
    exact squaredNorm_stands integers (norm ▸ small)
  refine ⟨closed, closed.beq emitted, fun smallTotal => ?_⟩
  have linear := Norm.linear_stands integral (smallTotal.mono ec.space.exactLinear_nonneg
    (Int.le_add_of_nonneg_right (Norm.exactTerms_nonneg terms)))
  have whole : Stands (squaredNorm all) (ec.space.exactLinear + Norm.exactTerms permutations ec.space terms) := by
    have features : all = _ := features_traverse ec .empty terms permutations hashBits scratch
    have sum : exactNorm all = ec.space.exactLinear + Norm.exactTerms permutations ec.space terms := by
      rw [features, exactNorm, List.map_append, List.sum_append, ← exactNorm, ← exactNorm, exactNorm_linear, norm]
    rw [← sum]
    refine squaredNorm_stands ?_ (sum ▸ smallTotal)
    rw [features]
    refine List.forall_mem_append.2 ⟨fun w member => ?_, integers⟩
    obtain ⟨f, inside, rfl⟩ := List.mem_map.1 member
    exact linear_isInteger integral f inside
  exact (linear.add closed smallTotal).beq whole

/-- A split repeat, a run of three, a negative value and a namespace without a group. -/
theorem norm_eq_squaredNorm_runs :
    let ec := ((new 0).setGroup 97 (Group.empty.append [⟨1, .ofFloat 2⟩, ⟨2, .ofFloat (-1)⟩])).setGroup 98
      (Group.empty.append [⟨3, .ofFloat 3⟩])
    let terms : List Term := [[97, 98, 97], [97, 97, 97], [98, 99]]
    ec.space.Integral ∧ (∀ term ∈ terms, Norm.Exact false ec.space term) ∧
      Norm.exactTerms false ec.space terms = 310 ∧
      (Norm.total false ec.space terms ==
        squaredNorm (Event.features (ec.traverse false .empty terms false 18 #[]).1.events)) = true := by
  intro ec terms
  have integral : ec.space.Integral := by decide +kernel
  have exact : ∀ term ∈ terms, Norm.Exact false ec.space term := by decide +kernel
  have sum : Norm.exactTerms false ec.space terms = 310 := by decide +kernel
  have small : Small (ec.space.exactLinear + Norm.exactTerms false ec.space terms) := by decide +kernel
  exact ⟨integral, exact, sum,
    (norm_eq_squaredNorm ec false terms false 18 #[] integral exact (sum ▸ by decide)).2.2 small⟩

end Example

end HashedFeatures
