import HashedFeatures.Group.Merge

/-! Runs of equal indices, in one pass over a group.

The pass reads the features in order and moves those that stay to the front of the same group. A feature is written
over the one behind the last that is kept, and the labels of the two places are exchanged. Looking past the end stops
the pass.
-/

set_option autoImplicit false

namespace HashedFeatures

structure Pass where
  group : Group
  /-- The place of the last feature that is kept. -/
  last : Nat
  /-- The squares of the runs that are summed up already. -/
  sum : Float32

namespace Pass

def start (group : Group) : Pass := ⟨group, 0, 0⟩

def featureAt (place : Nat) : Attempt Pass Feature := do
  match (← get).group.features[place]? with
  | some feature => pure feature
  | none => throw .outOfBounds

def put (place : Nat) (feature : Feature) : Attempt Pass Unit := do
  let features := (← get).group.features
  if place < features.length then
    modify fun pass => { pass with group := { pass.group with features := features.set place feature } }
  else throw .outOfBounds

def swapLabels (i j : Nat) : Attempt Pass Unit := do
  let labels := (← get).group.labels
  match labels[i]?, labels[j]? with
  | some left, some right =>
    modify fun pass => { pass with group := { pass.group with labels := (labels.set i right).set j left } }
  | _, _ => throw .outOfBounds

def bring (audited : Bool) (target place : Nat) : Attempt Pass Unit := do
  put target (← featureAt place)
  if audited then swapLabels target place

def mergeNext (audited : Bool) (place : Nat) : Attempt Pass Unit := do
  let last := (← get).last
  let kept ← featureAt last
  let next ← featureAt place
  if next.index = kept.index then put last { kept with amount := kept.amount.add next.amount }
  else
    modify fun pass => { pass with last := last + 1, sum := pass.sum + kept.value * kept.value }
    bring audited (last + 1) place

def keepNext (audited : Bool) (place : Nat) : Attempt Pass Unit := do
  let last := (← get).last
  let kept ← featureAt last
  let next ← featureAt place
  if next.index ≠ kept.index then
    modify fun pass => { pass with last := last + 1 }
    if last + 1 ≠ place then bring audited (last + 1) place

/-- The answer is the sum of the squares of all runs. -/
def mergeAll (audited : Bool) (places : List Nat) : Attempt Pass Float32 := do
  places.forM (mergeNext audited)
  let kept ← featureAt (← get).last
  return (← get).sum + kept.value * kept.value

def keepUpTo (cap : Option Nat) (audited : Bool) : List Nat → Attempt Pass Unit
  | [] => pure ()
  | place :: places => do
    let found := (← get).last + 1
    if cap.any (· ≤ found) then pure ()
    else
      keepNext audited place
      keepUpTo cap audited places

def front (pass : Pass) : Group :=
  { pass.group with
    features := pass.group.features.take (pass.last + 1)
    labels := pass.group.labels.take (pass.last + 1) }

end Pass

namespace Group

def laterPlaces (group : Group) : List Nat := List.range' 1 (group.length - 1)

def mergeInPlace : Attempt Group Float32 := .make fun group =>
  if group.isEmpty then (.ok 0, { group with sumSquares := 0 })
  else
    match (Pass.mergeAll group.isAudited group.laterPlaces).run (.start group) with
    | (.ok sum, pass) => (.ok sum, { pass.front with sumSquares := sum })
    | (.error fault, pass) => (.error fault, pass.group)

def keepInPlace (cap : Option Nat) (group : Group) : Except Fault Unit × Group :=
  match (Pass.keepUpTo cap group.isAudited group.laterPlaces).run (.start group) with
  | (.ok (), pass) => (.ok (), pass.front.recompute)
  | (.error fault, pass) => (.error fault, pass.group)

/-- Under a cap of none or one no pass is needed. -/
def uniqueInPlace (cap : Option Nat) : Attempt Group Unit := .make fun group =>
  if group.isEmpty then (.ok (), group)
  else
    match cap with
    | some 0 => (.ok (), group.clear)
    | some 1 => (Attempt.change fun group => group.truncate 1).run group
    | _ => group.keepInPlace cap

end Group

end HashedFeatures
