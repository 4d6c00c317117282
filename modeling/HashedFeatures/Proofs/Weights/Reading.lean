import HashedFeatures.Proofs.Weights.Sparse
import HashedFeatures.Weights.Handle

/-! A read changes no later read.

A dense store is not touched by reading. A sparse store may allocate a block, but the block then holds
what every read of it has found before. This is so for any handle and any memory, and also for reads that
stop with a fault.
-/

set_option autoImplicit false

namespace HashedFeatures

namespace SparseWeights

variable (weights : SparseWeights)

/-- The cells that a read of a block finds in a map; a block that would not be allocated has none. -/
def seen (map : BlockMap) (key : UInt64) : Except Fault (Array Float32) :=
  match map.find? key with
  | some cells => .ok cells
  | none =>
    if weights.initialiser.isNone then .ok #[]
    else if weights.blockSize < Memory.cellLimit then .ok (weights.freshBlock key)
    else .error .unaddressable

theorem seen_of_some {map : BlockMap} {key : UInt64} {cells : Array Float32} (present : map.find? key = some cells) :
    weights.seen map key = .ok cells := by
  rw [seen, present]

def allocated (memory : Memory) (key : UInt64) : Memory :=
  { memory with
    records := memory.records.push ⟨.trace, "Allocated sparse weight block " ++ toString key.toNat⟩
    maps := memory.maps.modify weights.address (·.insert key (weights.freshBlock key)) }

theorem seen_insert {map : BlockMap} {key : UInt64} (fresh : weights.seen map key = .ok (weights.freshBlock key))
    (other : UInt64) :
    weights.seen (map.insert key (weights.freshBlock key)) other = weights.seen map other := by
  by_cases same : key = other
  · subst same
    rw [fresh, seen, BlockMap.find?_insert, if_pos rfl]
  · rw [seen, seen, BlockMap.find?_insert, if_neg same]

/-- A read finds what the map shows; it leaves the memory alone, or allocates the block that was shown. -/
theorem run_get_cases {memory : Memory} {map : BlockMap} (found : memory.maps[weights.address]? = some map)
    {index key : UInt64} {place : Nat} (split : weights.layout.split index = .ok (key, place)) :
    ((weights.get index).run memory).1 = (weights.seen map key).map (·.getD place 0) ∧
      (((weights.get index).run memory).2 = memory ∨
        ((weights.get index).run memory).2 = weights.allocated memory key ∧
          weights.seen map key = .ok (weights.freshBlock key)) := by
  rw [get, split, Attempt.run_bind_ok (Attempt.run_lift (.ok _) memory), Attempt.run_bind_ok (Memory.run_map found)]
  cases lookup : map.find? key with
  | some cells =>
    rw [weights.seen_of_some lookup, if_neg (by simp), Attempt.run_bind_ok (run_block_of_some found lookup)]
    exact ⟨rfl, .inl rfl⟩
  | none =>
    by_cases plain : weights.initialiser.isNone = true
    · have shown : weights.seen map key = .ok #[] := by rw [seen, lookup]; simp [plain]
      rw [shown, if_pos (by simp [plain])]
      exact ⟨by simp [Except.map], .inl rfl⟩
    · rw [if_neg (by simp [plain])]
      by_cases room : weights.blockSize < Memory.cellLimit
      · have shown : weights.seen map key = .ok (weights.freshBlock key) := by rw [seen, lookup]; simp [plain, room]
        rw [shown, Attempt.run_bind_ok (run_block_of_none found lookup room)]
        exact ⟨rfl, .inr ⟨rfl, rfl⟩⟩
      · have shown : weights.seen map key = .error .unaddressable := by rw [seen, lookup]; simp [plain, room]
        have stopped : (weights.block key).run memory = (.error .unaddressable, memory) := by
          rw [block, Attempt.run_bind_ok (Memory.run_map found), lookup, Memory.reserve, if_neg room]
          rfl
        rw [shown, Attempt.run_bind, stopped]
        exact ⟨rfl, .inl rfl⟩

theorem run_get_of_error {memory : Memory} {index : UInt64} {fault : Fault}
    (failed : weights.layout.split index = .error fault) :
    (weights.get index).run memory = (.error fault, memory) := by
  rw [get, failed]
  rfl

theorem run_get_of_none {memory : Memory} {index key : UInt64} {place : Nat}
    (split : weights.layout.split index = .ok (key, place)) (missing : memory.maps[weights.address]? = none) :
    (weights.get index).run memory = (.error .outOfBounds, memory) := by
  rw [get, split, Attempt.run_bind_ok (Attempt.run_lift (.ok _) memory), Attempt.run_bind,
    Memory.run_map_of_none missing]

theorem run_get_congr {memory after : Memory} {map shown : BlockMap}
    (found : memory.maps[weights.address]? = some map) (alsoFound : after.maps[weights.address]? = some shown)
    (same : ∀ key, weights.seen shown key = weights.seen map key) (index : UInt64) :
    ((weights.get index).run after).1 = ((weights.get index).run memory).1 := by
  cases split : weights.layout.split index with
  | error fault => rw [weights.run_get_of_error split, weights.run_get_of_error split]
  | ok parts =>
    obtain ⟨key, place⟩ := parts
    rw [(weights.run_get_cases alsoFound split).1, (weights.run_get_cases found split).1, same]

theorem run_get_after (memory : Memory) (read index : UInt64) :
    ((weights.get index).run ((weights.get read).run memory).2).1 = ((weights.get index).run memory).1 := by
  cases split : weights.layout.split read with
  | error fault => rw [weights.run_get_of_error split]
  | ok parts =>
    obtain ⟨key, place⟩ := parts
    cases found : memory.maps[weights.address]? with
    | none => rw [weights.run_get_of_none split found]
    | some map =>
      rcases (weights.run_get_cases found split).2 with untouched | ⟨allocated, fresh⟩
      · rw [untouched]
      · have after : (weights.allocated memory key).maps[weights.address]? =
            some (map.insert key (weights.freshBlock key)) := by
          rw [SparseWeights.allocated, Array.getElem?_modify, if_pos rfl, found]
          rfl
        rw [allocated]
        exact weights.run_get_congr found after (weights.seen_insert fresh) index

end SparseWeights

namespace DenseWeights

theorem run_get_snd (weights : DenseWeights) (memory : Memory) (index : UInt64) :
    ((weights.get index).run memory).2 = memory := by
  rw [get, Attempt.run_bind, cells, Attempt.run_bind]
  cases found : memory.arrays[weights.address]? with
  | none => rw [Memory.run_array_of_none found]
  | some array =>
    rw [Memory.run_array found]
    simp only [Attempt.run_pure]
    cases array.cells[weights.place index]? <;> rfl

end DenseWeights

namespace Weights

def peek (weights : Weights) (memory : Memory) (index : UInt64) : Except Fault Float32 :=
  ((weights.get index).run memory).1

theorem peek_after_get (weights : Weights) (memory : Memory) (read index : UInt64) :
    weights.peek ((weights.get read).run memory).2 index = weights.peek memory index := by
  cases weights with
  | dense weights => exact congrArg (fun memory => ((weights.get index).run memory).1) (weights.run_get_snd memory read)
  | sparse weights => exact weights.run_get_after memory read index

end Weights

end HashedFeatures
