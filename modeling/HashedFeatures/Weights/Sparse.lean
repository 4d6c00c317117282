import HashedFeatures.Weights.Layout
import HashedFeatures.Weights.Memory

/-! Sparse weights: a block of cells for every feature hash that was touched. -/

set_option autoImplicit false

namespace HashedFeatures

structure SparseWeights where
  layout : Layout
  address : Nat
  initialiser : Option Initialiser

namespace SparseWeights

def new (layout : Layout) : Attempt Memory SparseWeights := do
  let address ← Memory.newMap .empty
  return { layout, address, initialiser := none }

variable (weights : SparseWeights)

def blockSize : Nat := 1 <<< weights.layout.blockShift

def strideSize : Nat := 1 <<< weights.layout.strideShift.toNat

def freshBlock (key : UInt64) : Array Float32 :=
  let zeroed := Array.replicate weights.blockSize 0
  match weights.initialiser with
  | none => zeroed
  | some init =>
    let start := key <<< UInt64.ofNat weights.layout.blockShift
    zeroed |> mapSlots weights.strideSize fun slot =>
      init.run (start + (UInt64.ofNat slot <<< UInt64.ofNat weights.layout.strideShift.toNat))

def block (key : UInt64) : Attempt Memory (Array Float32) := do
  let map ← Memory.map weights.address
  match map.find? key with
  | some cells => return cells
  | none =>
    Memory.reserve weights.blockSize
    let cells := weights.freshBlock key
    Memory.log ⟨.trace, "Allocated sparse weight block " ++ toString key.toNat⟩
    Memory.updateMap weights.address (·.insert key cells)
    return cells

/-- A missing block reads as zero, and is allocated only if there is an initialiser. -/
def get (index : UInt64) : Attempt Memory Float32 := do
  let (key, place) ← weights.layout.split index
  let map ← Memory.map weights.address
  if (map.find? key).isNone && weights.initialiser.isNone then return 0
  return (← weights.block key).getD place 0

def update (index : UInt64) (f : Float32 → Float32) : Attempt Memory Unit := do
  let (key, place) ← weights.layout.split index
  let _ ← weights.block key
  Memory.updateMap weights.address (·.modify key (·.modify place f))

/-- Blocks that are allocated later start with this initialiser. -/
def setDefault (init : Initialiser) : SparseWeights :=
  { weights with initialiser := some init }

def setZero (place : Nat) : Attempt Memory Unit := do
  let stride ← weights.layout.stride
  if place < stride.toNat then
    Memory.updateMap weights.address (·.mapBlocks (zeroPlace stride.toNat place))

def blockCount : Attempt Memory Nat := do
  return (← Memory.map weights.address).size

def slots : Attempt Memory (List (UInt64 × Float32)) := do
  let stride ← weights.layout.stride
  let map ← Memory.map weights.address
  return map.toList.flatMap fun (key, cells) =>
    (List.range (cells.size / stride.toNat)).map fun slot =>
      let place := slot * stride.toNat
      ((key <<< UInt64.ofNat weights.layout.blockShift) + UInt64.ofNat place, cells.getD place 0)

end SparseWeights

end HashedFeatures
