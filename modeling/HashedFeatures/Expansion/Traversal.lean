import HashedFeatures.Example.Scope
import HashedFeatures.Expansion.Basic
import HashedFeatures.Group.Merge
import HashedFeatures.Group.Sort
import HashedFeatures.Weights.Handle

/-! All features of an example, linear and crossed, and what is made of them. -/

set_option autoImplicit false

namespace HashedFeatures

namespace Group

def weighted (group : Group) (addressing : Addressing) (factor : Float32) : List Weighted :=
  group.features.map fun f => ⟨factor * f.value, addressing.weightIndex f.index⟩

def audited (group : Group) (addressing : Addressing) : List Event :=
  (group.onward 0).flatMap fun place =>
    nested true place.label [.feature ⟨place.feature.value, addressing.weightIndex place.feature.index⟩]

end Group

namespace Example

def addressing (ec : Example) (hashBits : UInt32) : Addressing :=
  { hashBits, scale := ec.scale, offset := ec.offset }

def linear (ec : Example) (audit : Bool) (ignored : NamespaceSet) : List Event :=
  let addressing := ec.addressing 0
  ec.space.toList.flatMap fun (ns, group) =>
    if ns ∈ ignored then []
    else if audit then group.audited addressing
    else (group.weighted addressing 1).map .feature

def crossed (ec : Example) (audit : Bool) (terms : List Term) (permutations : Bool) (hashBits : UInt32)
    (scratch : Scratch) : Emission × Scratch :=
  Expansion.terms ⟨audit, ec.addressing hashBits⟩ permutations ec.space terms scratch

/-- The linear features and then the crossed ones, of which only the latter are counted. -/
def traverse (ec : Example) (audit : Bool) (ignored : NamespaceSet) (terms : List Term)
    (permutations : Bool) (hashBits : UInt32) (scratch : Scratch) : Emission × Scratch :=
  let (emission, scratch) := ec.crossed audit terms permutations hashBits scratch
  ({ emission with events := ec.linear audit ignored ++ emission.events }, scratch)

def flatten (ignored : NamespaceSet) (permutations : Bool) (hashBits : UInt32) (mask : UInt64)
    (scratch : Scratch) : Attempt Example (Group × Scratch) :=
  stashScaleOffset.scope do
    modify fun ec => { ec with scale := 1, offset := 0 }
    let ec ← get
    let (emission, scratch) := ec.traverse false ignored ec.interactions permutations hashBits scratch
    let features := (Event.features emission.events).map fun w => ⟨w.index, .ofFloat w.value⟩
    let merged : Attempt Group Unit := do
      let _ ← Group.sort mask
      let _ ← Group.mergeRuns
    match merged.run (Group.empty.append features) with
    | (.ok _, flat) => return (flat, scratch)
    | (.error fault, _) => throw fault

end Example

namespace Weights

def dot (weights : Weights) (start : Float32) : List Weighted → Attempt Memory Float32
  | [] => return start
  | w :: rest => do
    let weight ← weights.get w.index
    dot weights (start + w.value * weight) rest

def predict (weights : Weights) (ec : Example) (ignored : NamespaceSet) (terms : List Term)
    (permutations : Bool) (scratch : Scratch) (start : Float32) :
    Attempt Memory (Float32 × Nat × Scratch) := do
  let (emission, scratch) := ec.traverse false ignored terms permutations weights.layout.hashBits scratch
  let prediction ← weights.dot start (Event.features emission.events)
  return (prediction, emission.count, scratch)

def learn (weights : Weights) (rate : Float32) (features : List Weighted) : Attempt Memory Unit :=
  features.forM fun w => weights.add w.index (rate * w.value)

end Weights

end HashedFeatures
