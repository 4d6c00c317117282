import HashedFeatures.Weights.Layout
import HashedFeatures.Weights.Memory
import HashedFeatures.Weights.Slots

/-! Dense weights: one array with a cell for every index. -/

set_option autoImplicit false

namespace HashedFeatures

structure DenseWeights where
  layout : Layout
  address : Nat

namespace DenseWeights

/-- The number of cells; a mask of all 64 bits leaves none. -/
def cellCount (layout : Layout) : Nat :=
  layout.rawLength.toNat

def new (layout : Layout) : Attempt Memory DenseWeights := do
  Memory.reserve (cellCount layout)
  let address ← Memory.newArray ⟨Array.replicate (cellCount layout) 0, false⟩
  return { layout, address }

variable (weights : DenseWeights)

def cells : Attempt Memory (Array Float32) := do
  return (← Memory.array weights.address).cells

def place (index : UInt64) : Nat :=
  (index &&& weights.layout.weightMask).toNat

def get (index : UInt64) : Attempt Memory Float32 := do
  match (← weights.cells)[weights.place index]? with
  | some cell => return cell
  | none => throw .outOfBounds

def update (index : UInt64) (f : Float32 → Float32) : Attempt Memory Unit := do
  let _ ← weights.get index
  Memory.updateCells weights.address fun cells => cells.modify (weights.place index) f

/-- Run an initialiser over every slot, on a copy of the slot. -/
def setDefault (init : Initialiser) : Attempt Memory Unit := do
  let stride ← weights.layout.stride
  Memory.reserve stride.toNat
  Memory.updateCells weights.address <| mapSlots stride.toNat fun slot cells =>
    init.run (UInt64.ofNat slot <<< UInt64.ofNat weights.layout.strideShift.toNat) cells

def setZero (place : Nat) : Attempt Memory Unit := do
  let stride ← weights.layout.stride
  if place < stride.toNat then
    Memory.updateCells weights.address (zeroPlace stride.toNat place)

def cursor : Attempt Memory SlotCursor := do
  return .start (← weights.cells) weights.layout.strideShift.toNat

def slots (nonZero : Bool) : Attempt Memory (List Slot) := do
  let _ ← weights.layout.stride
  return (← weights.cursor).toList nonZero

def deepCopy : Attempt Memory DenseWeights := do
  let address ← Memory.newArray ⟨← weights.cells, false⟩
  return { weights with address }

def isShared : Attempt Memory Bool := do
  return (← Memory.array weights.address).shared

/-- A handle on cells that other processes see; handles made before keep the old cells. -/
def share : Attempt Memory DenseWeights := do
  let array ← Memory.array weights.address
  if array.shared then return weights
  if array.cells.isEmpty then throw .shareEmpty
  let address ← Memory.newArray ⟨array.cells, true⟩
  Memory.log ⟨.info, "Moved " ++ toString array.cells.size ++ " dense weights into shared memory"⟩
  return { weights with address }

end DenseWeights

end HashedFeatures
