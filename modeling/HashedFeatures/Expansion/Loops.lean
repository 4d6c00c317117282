import HashedFeatures.Expansion.Event

/-! Crossing up to three groups by nested loops. -/

set_option autoImplicit false

namespace HashedFeatures

/-- A group in a term; a tied factor starts where the factor in front of it stands. -/
structure Factor where
  group : Group
  tied : Bool

namespace Factor

def start (factor : Factor) (outer : Nat) : Nat :=
  if factor.tied then outer else 0

end Factor

structure Place where
  feature : Feature
  position : Nat
  label : Label

def Group.onward (group : Group) (start : Nat) : List Place :=
  let labels := group.labels.toArray
  ((group.features.drop start).zipIdx start).map fun (feature, position) =>
    { feature, position, label := labels[position]?.getD .empty }

structure Expansion where
  audit : Bool
  addressing : Addressing

namespace Expansion

variable (expansion : Expansion)

def last (group : Group) (start : Nat) (value : Float32) (fold : Hash.Fold) : Emission :=
  let cross := fun (feature : Feature) =>
    Event.feature ⟨value * feature.value, expansion.addressing.ofFold (fold.pushIndex feature.index)⟩
  { events :=
      if expansion.audit then
        (group.onward start).flatMap fun place => nested true place.label [cross place.feature]
      else (group.features.drop start).map cross
    count := group.length - start }

def pairs (first second : Factor) : Emission :=
  .concat <| (first.group.onward 0).map fun p =>
    .nested expansion.audit p.label <|
      expansion.last second.group (second.start p.position) p.feature.value
        (Hash.Fold.start.pushIndex p.feature.index)

def triples (first second third : Factor) : Emission :=
  .concat <| (first.group.onward 0).map fun p =>
    .nested expansion.audit p.label <|
      .concat <| (second.group.onward (second.start p.position)).map fun q =>
        .nested expansion.audit q.label <|
          expansion.last third.group (third.start q.position) (p.feature.value * q.feature.value)
            ((Hash.Fold.start.pushIndex p.feature.index).pushIndex q.feature.index)

end Expansion

end HashedFeatures
