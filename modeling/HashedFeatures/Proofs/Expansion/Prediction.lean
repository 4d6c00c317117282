import HashedFeatures.Proofs.Binary32.Integer
import HashedFeatures.Proofs.Expansion.Flatten
import HashedFeatures.Proofs.Expansion.Runs
import HashedFeatures.Proofs.Expansion.Traversal
import HashedFeatures.Proofs.Weights.Reading

/-! Predicting from the flattened features is predicting directly.

Flattening permutes the features and sums up runs of one index, and neither changes the sum of the values
times the weights of their indices. The scale and the offset are put aside for the flattening, which does
not see them; put back, they lead every index to the weight that the direct prediction reads.
-/

set_option autoImplicit false

namespace HashedFeatures

open Binary32 (Small Stands IsInteger integer)

/-! ## Sums over merged runs -/

namespace Run

def steps (run : Run) : List Int := (run.rest.scanl (fun sum f => sum + integer f.value) (integer run.first.value)).tail

def exact (run : Run) : Int := (run.features.map fun f => integer f.value).sum

theorem merged_stands {run : Run} (values : ∀ f ∈ run.features, IsInteger f.value)
    (small : ∀ n ∈ run.steps, Small n) : Stands run.merged.value run.exact := by
  obtain ⟨first, others⟩ := List.forall_mem_cons.1 values
  have total := Stands.foldl (fun f member _ _ sum next => sum.add (others f member) next) first small
  have merged : run.merged.value = run.rest.foldl (fun sum f => sum + f.value) run.first.value := by
    rw [value_merged, features, List.map_cons, Binary32.sum, List.foldl_map]
  have sum : run.exact = run.rest.foldl (fun sum f => sum + integer f.value) (integer run.first.value) := by
    rw [exact, features, List.map_cons, List.sum_eq_foldl, List.foldl_cons, zero_add, List.foldl_map]
  rw [merged, sum]
  exact total

-- The features of a run share the weight of its index.
theorem Constant.sum_mul {run : Run} (constant : run.Constant) (weight : UInt64 → Int) :
    (run.features.map fun f => integer f.value * weight f.index).sum = run.exact * weight run.index := by
  rw [exact, ← List.sum_map_mul_right]
  congr 1
  apply List.map_congr_left
  intro f member
  rw [constant f member]

end Run

namespace Feature

variable {mask : UInt64} {features : List Feature}

def runs (mask : UInt64) (features : List Feature) : List Run := Run.ofFeatures (features.mergeSort (upTo mask))

theorem sum_flattened (values : ∀ f ∈ features, IsInteger f.value)
    (small : ∀ run ∈ runs mask features, ∀ n ∈ run.steps, Small n) (weight : UInt64 → Int) :
    ((flattened mask features).map fun f => integer f.value * weight f.index).sum =
      (features.map fun f => integer f.value * weight f.index).sum := by
  have cut : (runs mask features).flatMap Run.features = features.mergeSort (upTo mask) := Run.flatMap_ofFeatures _
  have sorted := List.mergeSort_perm features (upTo mask)
  rw [← (sorted.map fun f => integer f.value * weight f.index).sum_eq, ← cut, sum_map_flatMap, flattened, List.map_map]
  congr 1
  apply List.map_congr_left
  intro run member
  have inside (f : Feature) (chosen : f ∈ run.features) : IsInteger f.value := by
    have kept : f ∈ features.mergeSort (upTo mask) := cut ▸ List.mem_flatMap.2 ⟨run, member, chosen⟩
    exact values f (List.mem_mergeSort.1 kept)
  rw [(Run.constant_ofFeatures _ run member).sum_mul, Function.comp_apply,
    (Run.merged_stands inside (small run member)).integer_eq, Run.index_merged]

end Feature

/-! ## Predictions over integers -/

namespace Weights

variable {weights : Weights} {memory : Memory} {start : Float32} {features : List Weighted}

/-- The weight that a read of an index finds, as an integer; of a read that fails it says nothing. -/
def integerAt (weights : Weights) (memory : Memory) (index : UInt64) : Int :=
  match weights.peek memory index with
  | .ok weight => integer weight
  | .error _ => 0

def contribution (weights : Weights) (memory : Memory) (w : Weighted) : Int :=
  integer w.value * weights.integerAt memory w.index

/-- Values and weights are integers, and no step of the prediction from `start` is rounded. -/
structure Exact (weights : Weights) (memory : Memory) (start : Int) (features : List Weighted) : Prop where
  values : ∀ w ∈ features, IsInteger w.value
  reads : ∀ w ∈ features, ∃ weight, weights.peek memory w.index = .ok weight ∧ IsInteger weight
  products : ∀ w ∈ features, Small (weights.contribution memory w)
  sums : ∀ sum ∈ (features.scanl (fun sum w => sum + weights.contribution memory w) start).tail, Small sum

instance (weights : Weights) (memory : Memory) (start : Int) (features : List Weighted) :
    Decidable (weights.Exact memory start features) :=
  decidable_of_iff ((∀ w ∈ features, IsInteger w.value) ∧
      (∀ w ∈ features, (weights.peek memory w.index).toOption.any fun weight => decide (IsInteger weight)) ∧
      (∀ w ∈ features, Small (weights.contribution memory w)) ∧
      ∀ sum ∈ (features.scanl (fun sum w => sum + weights.contribution memory w) start).tail, Small sum) <| by
    have read (w : Weighted) : ((weights.peek memory w.index).toOption.any fun weight => decide (IsInteger weight)) =
        true ↔ ∃ weight, weights.peek memory w.index = .ok weight ∧ IsInteger weight := by
      cases weights.peek memory w.index <;> simp [Except.toOption]
    simp only [read]
    exact ⟨fun ⟨values, reads, products, sums⟩ => ⟨values, reads, products, sums⟩,
      fun ⟨values, reads, products, sums⟩ => ⟨values, reads, products, sums⟩⟩

theorem integerAt_after_get (read index : UInt64) :
    weights.integerAt ((weights.get read).run memory).2 index = weights.integerAt memory index := by
  rw [integerAt, peek_after_get]
  rfl

theorem contribution_after_get (read : UInt64) :
    weights.contribution ((weights.get read).run memory).2 = weights.contribution memory := by
  funext w
  simp only [contribution, integerAt_after_get]

-- A read leaves what is still to be added as it was.
theorem Exact.after_get {n : Int} (exact : weights.Exact memory n features) (read : UInt64) :
    weights.Exact ((weights.get read).run memory).2 n features where
  values := exact.values
  reads := fun w member => by rw [peek_after_get]; exact exact.reads w member
  products := by rw [contribution_after_get]; exact exact.products
  sums := by rw [contribution_after_get]; exact exact.sums

theorem Exact.run_dot {n : Int} (exact : weights.Exact memory n features) (stands : Stands start n) :
    ∃ total reached, (weights.dot start features).run memory = (.ok total, reached) ∧
      Stands total (n + (features.map (weights.contribution memory)).sum) := by
  induction features generalizing memory start n with
  | nil => exact ⟨start, memory, rfl, by simpa using stands⟩
  | cons w rest ih =>
    obtain ⟨value, values⟩ := List.forall_mem_cons.1 exact.values
    obtain ⟨⟨weight, found, integral⟩, reads⟩ := List.forall_mem_cons.1 exact.reads
    obtain ⟨product, products⟩ := List.forall_mem_cons.1 exact.products
    obtain ⟨sum, sums⟩ := Binary32.forall_mem_tail_scanl_cons.1 exact.sums
    have contributed : weights.contribution memory w = integer w.value * integer weight := by
      rw [contribution, integerAt, found]
    have next := stands.add (value.mul integral (contributed ▸ product)) (contributed ▸ sum)
    rw [← contributed] at next
    have others : weights.Exact memory (n + weights.contribution memory w) rest := ⟨values, reads, products, sums⟩
    obtain ⟨total, reached, run, stands⟩ := ih (others.after_get w.index) next
    have read : (weights.get w.index).run memory = (.ok weight, ((weights.get w.index).run memory).2) :=
      Prod.ext found rfl
    rw [contribution_after_get, Int.add_assoc] at stands
    rw [dot, Attempt.run_bind_ok read]
    exact ⟨total, reached, run, stands⟩

end Weights

/-! ## Flattening -/

namespace Group

def gathered (mask : UInt64) (features : List Feature) : Except Fault Group :=
  let (outcome, flat) := Attempt.run (do let _ ← Group.sort mask; let _ ← Group.mergeRuns) (empty.append features)
  outcome.map fun _ => flat

end Group

namespace Example

variable (ec : Example) (ignored : NamespaceSet) (permutations : Bool) (hashBits : UInt32) (mask : UInt64)
  (scratch : Scratch)

theorem emitted_eq : ec.emitted ignored permutations hashBits scratch =
    (ec.weightedFeatures ignored ec.interactions permutations hashBits).map fun w => ⟨w.index, .ofFloat w.value⟩ := by
  unfold emitted
  have unscaled : Addressing.readdress (addressing { ec with scale := 1, offset := 0 } hashBits) = id := by
    funext w
    simp [Addressing.readdress, addressing, Addressing.weightIndex]
  simp only [features_traverse_eq_readdress, unscaled, List.map_id]
  rfl

/-- Flattening is sorting and merging what is emitted, and the example is as it was before. -/
theorem run_flatten_gathered :
    ((flatten ignored permutations hashBits mask scratch).run ec).1.map Prod.fst =
        Group.gathered mask (ec.emitted ignored permutations hashBits scratch) ∧
      ((flatten ignored permutations hashBits mask scratch).run ec).2 = ec := by
  unfold flatten
  rw [Guard.run_scope, Attempt.run_bind_ok (Attempt.run_modify _ _), Attempt.run_bind_ok (Attempt.run_get _)]
  unfold Group.gathered emitted
  simp only [stashScaleOffset, id_eq]
  -- Either the sort and the merge are done, or they stop; the guard closes both ways.
  generalize Attempt.run _ (Group.empty.append _) = merged
  obtain ⟨outcome, flat⟩ := merged
  cases outcome <;> exact ⟨rfl, rfl⟩

variable {ec ignored permutations hashBits mask scratch}

def addressed (ec : Example) (f : Feature) : Weighted := ⟨f.value, f.index * ec.scale + ec.offset⟩

theorem features_traverse_eq_addressed :
    Event.features (ec.traverse false ignored ec.interactions permutations hashBits scratch).1.events =
      (ec.emitted ignored permutations hashBits scratch).map ec.addressed := by
  rw [features_traverse_eq_readdress, emitted_eq, List.map_map]
  rfl

end Example

namespace Weights

theorem sum_contribution (weights : Weights) (memory : Memory) (ec : Example) (features : List Feature) :
    ((features.map ec.addressed).map (weights.contribution memory)).sum =
      (features.map fun f => integer f.value * weights.integerAt memory (f.index * ec.scale + ec.offset)).sum := by
  rw [List.map_map]
  rfl

/-- As long as no number is rounded, a prediction is its start and, for each flattened feature, the value
times the weight. Flattening leaves the example as it was, and sees neither its scale and offset nor the
frames that it takes over. -/
theorem predict_eq_flattened (weights : Weights) (memory : Memory) (ec : Example) (ignored : NamespaceSet)
    (permutations : Bool) (mask : UInt64) (scratch left : Scratch) (start : Float32) :
    let hashBits := weights.layout.hashBits
    let emitted := ec.emitted ignored permutations hashBits scratch
    ((Example.flatten ignored permutations hashBits mask left).run ec).2 = ec ∧
      (∀ (scale offset : UInt64) (others : Scratch),
        ((Example.flatten ignored permutations hashBits mask others).run { ec with scale, offset }).1.map Prod.fst =
          ((Example.flatten ignored permutations hashBits mask left).run ec).1.map Prod.fst) ∧
      (IsInteger start → weights.Exact memory (integer start) (emitted.map ec.addressed) →
        (∀ run ∈ Feature.runs mask emitted, ∀ n ∈ run.steps, Small n) →
        ∃ prediction count reached after flat taken,
          (weights.predict ec ignored ec.interactions permutations scratch start).run memory =
              (.ok (prediction, count, reached), after) ∧
            (Example.flatten ignored permutations hashBits mask left).run ec = (.ok (flat, taken), ec) ∧
            Stands prediction (integer start + (flat.features.map fun f =>
              integer f.value * weights.integerAt memory (f.index * ec.scale + ec.offset)).sum) ∧
            (weights.Exact memory (integer start) (flat.features.map ec.addressed) →
              ∃ sum, ((weights.dot start (flat.features.map ec.addressed)).run memory).1 = .ok sum ∧
                (prediction == sum) = true)) := by
  intro hashBits emitted
  refine ⟨(Example.run_flatten_gathered ec ignored permutations hashBits mask left).2, ?_, ?_⟩
  · intro scale offset others
    rw [(Example.run_flatten_gathered ec ignored permutations hashBits mask left).1,
      (Example.run_flatten_gathered { ec with scale, offset } ignored permutations hashBits mask others).1,
      Example.emitted_eq, Example.emitted_eq]
    rfl
  · intro integral exact small
    have values : ∀ f ∈ emitted, IsInteger f.value := fun f member =>
      exact.values (ec.addressed f) (List.mem_map_of_mem member)
    have same : ec.emitted ignored permutations hashBits left = emitted := by
      rw [Example.emitted_eq, ← Example.emitted_eq ec ignored permutations hashBits scratch]
    have flattening := @Example.run_flatten ec ignored permutations hashBits left mask
      fun f member => (values f (same ▸ member)).isNaN
    rw [same] at flattening
    obtain ⟨taken, flattening⟩ := flattening
    obtain ⟨prediction, after, predicted, stands⟩ := exact.run_dot integral
    rw [sum_contribution, ← Feature.sum_flattened values small
      fun index => weights.integerAt memory (index * ec.scale + ec.offset)] at stands
    have direct : (weights.predict ec ignored ec.interactions permutations scratch start).run memory =
        (.ok (prediction, (ec.traverse false ignored ec.interactions permutations hashBits scratch).1.count,
          (ec.traverse false ignored ec.interactions permutations hashBits scratch).2), after) := by
      unfold predict
      simp only [Example.features_traverse_eq_addressed]
      rw [Attempt.run_bind_ok predicted]
      rfl
    refine ⟨prediction, _, _, after, _, taken, direct, flattening, stands, fun through => ?_⟩
    obtain ⟨sum, reached, added, alsoStands⟩ := through.run_dot integral
    rw [sum_contribution] at alsoStands
    exact ⟨sum, congrArg Prod.fst added, stands.beq alsoStands⟩

/-- A sparse store whose blocks are filled when they are read, and two indices that several features share. -/
theorem predict_eq_flattened_sparse :
    let weights : Weights := .sparse ⟨⟨4, 0, 2, by decide⟩, 0, some (.fill 3)⟩
    let memory : Memory := { Memory.empty with maps := #[.empty] }
    let space := (Example.new 0).setGroup 97 (Group.empty.append [⟨3, .ofFloat (-4)⟩, ⟨3, .ofFloat 1⟩])
    let ec := { space.setGroup 98 (Group.empty.append [⟨3, .ofFloat 2⟩]) with
      scale := 4, offset := 2, interactions := [[97, 98]] }
    let emitted := ec.emitted .empty false 4 #[]
    IsInteger 7 ∧ weights.Exact memory (integer 7) (emitted.map ec.addressed) ∧
      (∀ run ∈ Feature.runs 15 emitted, ∀ n ∈ run.steps, Small n) ∧
      ∃ prediction count reached after flat taken,
        (weights.predict ec .empty ec.interactions false #[] 7).run memory =
            (.ok (prediction, count, reached), after) ∧
          (Example.flatten .empty false 4 15 #[]).run ec = (.ok (flat, taken), ec) ∧
          Stands prediction (integer 7 + (flat.features.map fun f =>
            integer f.value * weights.integerAt memory (f.index * ec.scale + ec.offset)).sum) := by
  intro weights memory space ec emitted
  have start : IsInteger 7 := by decide +kernel
  have exact : weights.Exact memory (integer 7) (emitted.map ec.addressed) := by decide +kernel
  have sorted : emitted.Pairwise fun left right => Feature.upTo 15 left right = true := by decide +kernel
  have small : ∀ run ∈ Feature.runs 15 emitted, ∀ n ∈ run.steps, Small n := by
    rw [Feature.runs, List.mergeSort_of_pairwise sorted]
    decide +kernel
  obtain ⟨prediction, count, reached, after, flat, taken, direct, flattening, stands, -⟩ :=
    (predict_eq_flattened weights memory ec .empty false 15 #[] #[] 7).2.2 start exact small
  exact ⟨start, exact, small, prediction, count, reached, after, flat, taken, direct, flattening, stands⟩

end Weights

end HashedFeatures
