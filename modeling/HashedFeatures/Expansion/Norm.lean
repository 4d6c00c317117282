import HashedFeatures.Example.Space
import HashedFeatures.Term.Basic

/-! The squared norm of the crossed features, in closed form.

When all orders are wanted, it is a product of the groups' sums of squares. Otherwise a run of one
namespace contributes the complete homogeneous sum over its squared values, one degree for each
repetition.
-/

set_option autoImplicit false

namespace HashedFeatures.Norm

def takeVariable (x : Float32) : List Float32 → List Float32
  | [] => []
  | degreeOne :: higher =>
    let raised := degreeOne + x
    raised :: go raised higher
where
  go (below : Float32) : List Float32 → List Float32
    | [] => []
    | degree :: higher =>
      let raised := degree + below * x
      raised :: go raised higher

/-- The complete homogeneous sum of a positive degree over the squared values. -/
def homogeneous (degree : Nat) (features : List Feature) : Float32 :=
  let sums := features.foldl (fun sums f => takeVariable (f.value * f.value) sums)
    (List.replicate degree 0)
  sums.getD (degree - 1) 0

def runs : Term → List (UInt8 × Nat)
  | [] => []
  | ns :: rest =>
    match runs rest with
    | (next, length) :: more =>
      if ns = next then (ns, length + 1) :: more else (ns, 1) :: (next, length) :: more
    | [] => [(ns, 1)]

def ofRun (group : Group) (length : Nat) : Float32 :=
  if length = 1 then group.sumSquares else homogeneous length group.features

/-- Multiply the factors of the runs; a missing namespace makes the product zero. -/
def ofRuns (space : Space) (product : Float32) : List (UInt8 × Nat) → Float32
  | [] => product
  | (ns, length) :: rest =>
    match space.get? ns with
    | none => 0
    | some group => ofRuns space (product * ofRun group length) rest

def ofTerm (permutations : Bool) (space : Space) (term : Term) : Float32 :=
  if permutations then
    term.foldl (fun product ns => product * ((space.get? ns).map Group.sumSquares).getD 0) 1
  else ofRuns space 1 (runs term)

def ofTerms (permutations : Bool) (space : Space) (terms : List Term) : Float32 :=
  terms.foldl (fun sum term => sum + ofTerm permutations space term) 0

def linear (space : Space) : Float32 :=
  space.toList.foldl (fun sum (_, group) => sum + group.sumSquares) (-0.0)

def total (permutations : Bool) (space : Space) (terms : List Term) : Float32 :=
  linear space + ofTerms permutations space terms

end HashedFeatures.Norm
