/-! Initial values for the cells of a stride slot. -/

set_option autoImplicit false

namespace HashedFeatures

/-- From the flat index of a slot and the cells it has to the cells it gets. -/
abbrev Initialiser := UInt64 → Array Float32 → Array Float32

namespace Initialiser

/-- Run on one slot; a slot keeps its number of cells. -/
def run (init : Initialiser) (index : UInt64) (slot : Array Float32) : Array Float32 :=
  let filled := init index slot
  slot.mapIdx fun place cell => filled.getD place cell

def fill (value : Float32) : Initialiser := fun _ slot =>
  slot.map fun _ => value

def first (value : Float32) : Initialiser := fun _ slot =>
  slot.setIfInBounds 0 value

def raise (delta : Float32) : Initialiser := fun _ slot =>
  slot.map (· + delta)

def ramp (step : Float32) : Initialiser := fun index slot =>
  slot.mapIdx fun place _ => index.toFloat32 + step * (UInt64.ofNat place).toFloat32

end Initialiser

def mapSlots (stride : Nat) (f : Nat → Array Float32 → Array Float32) (cells : Array Float32) :
    Array Float32 :=
  (Array.range (cells.size / stride)).flatMap fun slot =>
    f slot (cells.extract (slot * stride) (slot * stride + stride))

def zeroPlace (stride place : Nat) (cells : Array Float32) : Array Float32 :=
  cells.mapIdx fun i cell => if i % stride = place then 0 else cell

end HashedFeatures
