import HashedFeatures.Attempt
import HashedFeatures.Record
import HashedFeatures.Weights.Initialiser
import Std.Data.TreeMap.AdditionalOperations

/-! The memory in which weights live.

Dense stores own an array of cells, sparse stores a map of blocks. Both are reached by address, so
that several handles may refer to one of them. The memory also keeps the log of what happened to it.
-/

set_option autoImplicit false

namespace HashedFeatures

structure DenseArray where
  cells : Array Float32
  shared : Bool

structure BlockMap where
  blocks : Std.TreeMap UInt64 (Array Float32)

namespace BlockMap

def empty : BlockMap := ⟨∅⟩

def find? (map : BlockMap) (key : UInt64) : Option (Array Float32) :=
  map.blocks[key]?

def insert (map : BlockMap) (key : UInt64) (block : Array Float32) : BlockMap :=
  ⟨map.blocks.insert key block⟩

def modify (map : BlockMap) (key : UInt64) (f : Array Float32 → Array Float32) : BlockMap :=
  ⟨map.blocks.modify key f⟩

def mapBlocks (map : BlockMap) (f : Array Float32 → Array Float32) : BlockMap :=
  ⟨map.blocks.map fun _ cells => f cells⟩

def size (map : BlockMap) : Nat := map.blocks.size

def toList (map : BlockMap) : List (UInt64 × Array Float32) := map.blocks.toList

def keys (map : BlockMap) : List UInt64 := map.blocks.keys

end BlockMap

structure Memory where
  arrays : Array DenseArray
  maps : Array BlockMap
  records : Array Record

namespace Memory

def empty : Memory := { arrays := #[], maps := #[], records := #[] }

/-- As many cells, of four bytes each, cannot be addressed at once. -/
def cellLimit : Nat := 1 <<< 61

def reserve (count : Nat) : Attempt Memory Unit :=
  if count < cellLimit then return else throw .unaddressable

def log (record : Record) : Attempt Memory Unit :=
  modify fun memory => { memory with records := memory.records.push record }

def newArray (array : DenseArray) : Attempt Memory Nat := do
  let memory ← get
  set { memory with arrays := memory.arrays.push array }
  return memory.arrays.size

def newMap (map : BlockMap) : Attempt Memory Nat := do
  let memory ← get
  set { memory with maps := memory.maps.push map }
  return memory.maps.size

def array (address : Nat) : Attempt Memory DenseArray := do
  match (← get).arrays[address]? with
  | some array => return array
  | none => throw .outOfBounds

def map (address : Nat) : Attempt Memory BlockMap := do
  match (← get).maps[address]? with
  | some map => return map
  | none => throw .outOfBounds

def updateCells (address : Nat) (f : Array Float32 → Array Float32) : Attempt Memory Unit :=
  modify fun memory => { memory with
    arrays := memory.arrays.modify address fun array => { array with cells := f array.cells } }

def updateMap (address : Nat) (f : BlockMap → BlockMap) : Attempt Memory Unit :=
  modify fun memory => { memory with maps := memory.maps.modify address f }

end Memory

end HashedFeatures
