import HashedFeatures.Weights.Dense
import HashedFeatures.Weights.Sparse

/-! A handle on weights of either kind. -/

set_option autoImplicit false

namespace HashedFeatures

inductive Weights where
  | dense (weights : DenseWeights)
  | sparse (weights : SparseWeights)

namespace Weights

def new (sparse : Bool) (layout : Layout) : Attempt Memory Weights :=
  if sparse then return .sparse (← SparseWeights.new layout)
  else return .dense (← DenseWeights.new layout)

def layout : Weights → Layout
  | .dense weights => weights.layout
  | .sparse weights => weights.layout

def isSparse : Weights → Bool
  | .dense _ => false
  | .sparse _ => true

def get : Weights → UInt64 → Attempt Memory Float32
  | .dense weights => weights.get
  | .sparse weights => weights.get

def update : Weights → UInt64 → (Float32 → Float32) → Attempt Memory Unit
  | .dense weights => weights.update
  | .sparse weights => weights.update

def set (weights : Weights) (index : UInt64) (value : Float32) : Attempt Memory Unit :=
  weights.update index fun _ => value

def add (weights : Weights) (index : UInt64) (delta : Float32) : Attempt Memory Unit :=
  weights.update index (· + delta)

/-- Install an initialiser; the answer is the handle that has it. -/
def setDefault (weights : Weights) (init : Initialiser) : Attempt Memory Weights :=
  match weights with
  | .dense array => do
    array.setDefault init
    return weights
  | .sparse blocks => return .sparse (blocks.setDefault init)

def setZero : Weights → Nat → Attempt Memory Unit
  | .dense weights => weights.setZero
  | .sparse weights => weights.setZero

def shallowCopy (weights : Weights) : Weights := weights

def share : Weights → Attempt Memory Weights
  | .dense weights => return .dense (← weights.share)
  | .sparse _ => throw .shareSparse

def denseCells : Weights → Attempt Memory (Array Float32)
  | .dense weights => weights.cells
  | .sparse _ => throw .sliceSparse

def notNull : Weights → Attempt Memory Bool
  | .dense weights => return !(← weights.cells).isEmpty
  | .sparse weights => return 0 < weights.layout.weightMask

def blockKeys : Weights → Attempt Memory (Option (List UInt64))
  | .dense _ => return none
  | .sparse weights => return some (← Memory.map weights.address).keys

def allocated : Weights → Attempt Memory (List (UInt64 × Float32))
  | .dense weights => return (← weights.cells).toList.zipIdx.map fun (cell, i) => (UInt64.ofNat i, cell)
  | .sparse weights => do
    let map ← Memory.map weights.address
    return map.toList.flatMap fun (key, cells) =>
      cells.toList.zipIdx.map fun (cell, place) =>
        (key * UInt64.ofNat cells.size + UInt64.ofNat place, cell)

private def describeLayout (layout : Layout) : String :=
  "hash_bits: " ++ toString layout.hashBits.toNat ++
  ", feature_width_bits: " ++ toString layout.widthBits.toNat ++
  ", stride_shift: " ++ toString layout.strideShift.toNat

def describe : Weights → Attempt Memory String
  | .dense weights => do
    let array ← Memory.array weights.address
    return "Dense(DenseParameters \x7b " ++ describeLayout weights.layout ++
      ", len: " ++ toString array.cells.size ++ ", shared: " ++ toString array.shared ++ " \x7d)"
  | .sparse weights => do
    let count ← weights.blockCount
    return "Sparse(SparseParameters \x7b " ++ describeLayout weights.layout ++
      ", blocks: " ++ toString count ++ ", has_default: " ++ toString weights.initialiser.isSome ++
      " \x7d)"

end Weights

end HashedFeatures
