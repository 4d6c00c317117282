import HashedFeatures.Expansion.Basic
import HashedFeatures.Proofs.Binary32.Product
import Mathlib.Tactic.Ring

/-! Crossing any number of groups by nested loops, one loop for each factor.

The specialised loops for one, two and three groups are the nested loops for so many factors.
-/

set_option autoImplicit false

namespace HashedFeatures

namespace Emission

@[simp] theorem events_empty : empty.events = [] := rfl

@[simp] theorem count_empty : empty.count = 0 := rfl

@[simp] theorem events_append (left right : Emission) :
    (left.append right).events = left.events ++ right.events := rfl

@[simp] theorem count_append (left right : Emission) :
    (left.append right).count = left.count + right.count := rfl

theorem append_assoc (first second third : Emission) :
    (first.append second).append third = first.append (second.append third) := by
  simp [append, Nat.add_assoc]

@[simp] theorem append_empty (emission : Emission) : emission.append empty = emission := by
  simp [append, empty]

@[simp] theorem empty_append (emission : Emission) : empty.append emission = emission := by
  simp [append, empty]

@[simp] theorem concat_nil : concat [] = empty := rfl

@[simp] theorem concat_cons (first : Emission) (rest : List Emission) :
    concat (first :: rest) = first.append (concat rest) := rfl

theorem concat_append (left right : List Emission) :
    concat (left ++ right) = (concat left).append (concat right) := by
  induction left with
  | nil => rw [List.nil_append, concat_nil, empty_append]
  | cons first rest ih => rw [List.cons_append, concat_cons, concat_cons, ih, append_assoc]

end Emission

namespace Factor

@[simp] theorem start_tied (group : Group) (outer : Nat) : start ⟨group, true⟩ outer = outer := rfl

@[simp] theorem start_free (group : Group) (outer : Nat) : start ⟨group, false⟩ outer = 0 := rfl

end Factor

namespace Group

def place (group : Group) (feature : Feature) (position : Nat) : Place :=
  { feature, position, label := group.labelAt position }

theorem onward_eq_map (group : Group) (start : Nat) :
    group.onward start =
      ((group.features.drop start).zipIdx start).map fun entry => group.place entry.1 entry.2 := by
  simp [onward, place, labelAt]

theorem onward_of_lt (group : Group) {start : Nat} (bound : start < group.length) :
    group.onward start = group.place group.features[start] start :: group.onward (start + 1) := by
  rw [onward_eq_map, onward_eq_map, List.drop_eq_getElem_cons bound, List.zipIdx_cons, List.map_cons]

theorem onward_of_le (group : Group) {start : Nat} (beyond : group.length ≤ start) :
    group.onward start = [] := by
  rw [onward_eq_map, List.drop_eq_nil_of_le beyond]
  rfl

theorem map_feature_onward (group : Group) (start : Nat) :
    (group.onward start).map Place.feature = group.features.drop start := by
  rw [onward_eq_map, List.map_map]
  exact List.zipIdx_map_fst start _

theorem length_onward (group : Group) (start : Nat) :
    (group.onward start).length = group.length - start := by
  simp [onward_eq_map, length]

end Group

namespace Expansion

variable (expansion : Expansion)

def single (value : Float32) (fold : Hash.Fold) : Emission :=
  ⟨[.feature ⟨value, expansion.addressing.ofFold fold⟩], 1⟩

/-- The loop over a group from a position on, around other loops. -/
def around (group : Group) (start : Nat) (value : Float32) (fold : Hash.Fold)
    (inside : Nat → Float32 → Hash.Fold → Emission) : Emission :=
  .concat <| (group.onward start).map fun p =>
    .nested expansion.audit p.label <|
      inside p.position (value * p.feature.value) (fold.pushIndex p.feature.index)

def loops : List Factor → Nat → Float32 → Hash.Fold → Emission
  | [], _, value, fold => expansion.single value fold
  | factor :: inner, outer, value, fold =>
    expansion.around factor.group (factor.start outer) value fold (loops inner)

theorem around_of_lt (group : Group) {start : Nat} (bound : start < group.length) (value : Float32)
    (fold : Hash.Fold) (inside : Nat → Float32 → Hash.Fold → Emission) :
    expansion.around group start value fold inside =
      (Emission.nested expansion.audit (group.labelAt start) <|
        inside start (value * group.features[start].value)
          (fold.pushIndex group.features[start].index)).append
        (expansion.around group (start + 1) value fold inside) := by
  rw [around, group.onward_of_lt bound]
  rfl

theorem around_of_le (group : Group) {start : Nat} (beyond : group.length ≤ start) (value : Float32)
    (fold : Hash.Fold) (inside : Nat → Float32 → Hash.Fold → Emission) :
    expansion.around group start value fold inside = .empty := by
  rw [around, group.onward_of_le beyond]
  rfl

-- The run through a last group is a loop whose body is a single feature.
theorem last_eq_around (group : Group) (start : Nat) (value : Float32) (fold : Hash.Fold) :
    expansion.last group start value fold =
      expansion.around group start value fold fun _ => expansion.single := by
  have counts : ((group.onward start).map fun _ => 1).sum = group.length - start := by
    rw [List.map_const', List.sum_replicate_nat, Nat.mul_one, group.length_onward]
  have values : (group.features.drop start).map (fun f =>
        Event.feature ⟨value * f.value, expansion.addressing.ofFold (fold.pushIndex f.index)⟩) =
      (group.onward start).flatMap fun p =>
        [.feature ⟨value * p.feature.value, expansion.addressing.ofFold (fold.pushIndex p.feature.index)⟩] := by
    rw [← group.map_feature_onward, List.map_map, List.map_eq_flatMap]
    rfl
  unfold last around Emission.concat
  rw [List.flatMap_map, List.map_map]
  rw [Emission.mk.injEq]
  constructor
  · cases audit : expansion.audit with
    | true => simp [Emission.nested, nested, single]
    | false => simp [Emission.nested, nested, single, values]
  · exact counts.symm

theorem pairs_eq_loops (first second : Factor) :
    expansion.pairs first second = expansion.loops [first, second] 0 1 .start := by
  have begins : first.start 0 = 0 := by simp [Factor.start]
  simp only [pairs, loops, around, begins, last_eq_around, Binary32.one_mul]

theorem triples_eq_loops (first second third : Factor) :
    expansion.triples first second third = expansion.loops [first, second, third] 0 1 .start := by
  have begins : first.start 0 = 0 := by simp [Factor.start]
  simp only [triples, loops, around, begins, last_eq_around, Binary32.one_mul]

end Expansion

end HashedFeatures
