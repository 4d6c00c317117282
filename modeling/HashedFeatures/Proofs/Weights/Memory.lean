import HashedFeatures.Proofs.Attempt.Invariant
import HashedFeatures.Weights.Memory
import Std.Data.TreeMap.Lemmas

/-! What the steps on a memory do to its arrays and maps, one law for each step. -/

set_option autoImplicit false

namespace HashedFeatures

namespace Attempt

variable {σ α : Type}

@[simp] theorem run_lift (outcome : Except Fault α) (state : σ) :
    (liftM outcome : Attempt σ α).run state = (outcome, state) := by
  cases outcome <;> rfl

end Attempt

namespace Memory

variable {memory : Memory} {address : Nat}

theorem run_reserve {count : Nat} (room : count < cellLimit) : (reserve count).run memory = (.ok (), memory) := by
  rw [reserve, if_pos room]
  rfl

@[simp] theorem run_newArray (array : DenseArray) :
    (newArray array).run memory = (.ok memory.arrays.size, { memory with arrays := memory.arrays.push array }) := rfl

@[simp] theorem run_newMap (map : BlockMap) :
    (newMap map).run memory = (.ok memory.maps.size, { memory with maps := memory.maps.push map }) := rfl

@[simp] theorem run_log (record : Record) :
    (log record).run memory = (.ok (), { memory with records := memory.records.push record }) := rfl

@[simp] theorem run_updateCells (f : Array Float32 → Array Float32) :
    (updateCells address f).run memory = (.ok (), { memory with
      arrays := memory.arrays.modify address fun array => { array with cells := f array.cells } }) := rfl

@[simp] theorem run_updateMap (f : BlockMap → BlockMap) :
    (updateMap address f).run memory = (.ok (), { memory with maps := memory.maps.modify address f }) := rfl

theorem run_array {array : DenseArray} (found : memory.arrays[address]? = some array) :
    (Memory.array address).run memory = (.ok array, memory) := by
  rw [Memory.array, Attempt.run_bind_ok (Attempt.run_get memory), found]
  rfl

theorem run_map {map : BlockMap} (found : memory.maps[address]? = some map) :
    (Memory.map address).run memory = (.ok map, memory) := by
  rw [Memory.map, Attempt.run_bind_ok (Attempt.run_get memory), found]
  rfl

theorem run_array_of_none (missing : memory.arrays[address]? = none) :
    (Memory.array address).run memory = (.error .outOfBounds, memory) := by
  rw [Memory.array, Attempt.run_bind_ok (Attempt.run_get memory), missing]
  rfl

theorem run_map_of_none (missing : memory.maps[address]? = none) :
    (Memory.map address).run memory = (.error .outOfBounds, memory) := by
  rw [Memory.map, Attempt.run_bind_ok (Attempt.run_get memory), missing]
  rfl

end Memory

namespace BlockMap

@[simp] theorem find?_empty (key : UInt64) : empty.find? key = none := by
  simp [empty, find?]

theorem find?_insert (map : BlockMap) (key : UInt64) (block : Array Float32) (other : UInt64) :
    (map.insert key block).find? other = if key = other then some block else map.find? other := by
  simp [insert, find?, Std.TreeMap.getElem?_insert]

theorem find?_modify (map : BlockMap) (key : UInt64) (f : Array Float32 → Array Float32) (other : UInt64) :
    (map.modify key f).find? other = if key = other then (map.find? other).map f else map.find? other := by
  by_cases same : key = other
  · subst same
    simp [modify, find?]
  · simp [modify, find?, Std.TreeMap.getElem?_modify, same]

theorem find?_mapBlocks (map : BlockMap) (f : Array Float32 → Array Float32) (key : UInt64) :
    (map.mapBlocks f).find? key = (map.find? key).map f := by
  simp [mapBlocks, find?]

end BlockMap

end HashedFeatures
