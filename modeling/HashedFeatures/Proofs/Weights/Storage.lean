import HashedFeatures.Proofs.Attempt.Invariant
import HashedFeatures.Proofs.Weights.Family
import HashedFeatures.Proofs.Weights.Reading

/-! What a command through a handle can change.

It writes to the storage of its handle, and it makes new storage; nothing else in the memory changes but the log.
What is read through a handle is what lies in its storage.
-/

set_option autoImplicit false

namespace HashedFeatures

open Attempt (Keeps)

inductive Storage where
  | cells (address : Nat)
  | blocks (address : Nat)
  deriving DecidableEq

namespace Storage

def Kept (start : Memory) (place : Storage) (memory : Memory) : Prop :=
  match place with
  | .cells address => ∃ array, start.arrays[address]? = some array ∧ memory.arrays[address]? = some array
  | .blocks address => ∃ map, start.maps[address]? = some map ∧ memory.maps[address]? = some map

def Lives (place : Storage) (memory : Memory) : Prop :=
  match place with
  | .cells address => address < memory.arrays.size
  | .blocks address => address < memory.maps.size

/-- A property of memories that survives new storage and records of the log. -/
structure Grows (P : Memory → Prop) : Prop where
  push : ∀ memory array, P memory → P { memory with arrays := memory.arrays.push array }
  log : ∀ memory records, P memory → P { memory with records }

/-- It also survives whatever is written to `used`. -/
structure Spares (used : Storage) (P : Memory → Prop) : Prop extends Grows P where
  cells : ∀ memory address f, used = .cells address → P memory →
    P { memory with arrays := memory.arrays.modify address f }
  blocks : ∀ memory address f, used = .blocks address → P memory →
    P { memory with maps := memory.maps.modify address f }

variable {used place : Storage} {start memory : Memory}

theorem Lives.kept (lives : place.Lives memory) : place.Kept memory memory := by
  cases place with
  | cells address => exact ⟨_, Array.getElem?_eq_getElem lives, Array.getElem?_eq_getElem lives⟩
  | blocks address => exact ⟨_, Array.getElem?_eq_getElem lives, Array.getElem?_eq_getElem lives⟩

theorem spares_lives (used place : Storage) : used.Spares place.Lives := by
  cases place with
  | cells address =>
    exact
      { push := fun memory array lives => by
          rw [Lives, Array.size_push]
          exact Nat.lt_succ_of_lt lives
        log := fun _ _ lives => lives
        cells := fun memory other f _ lives => by
          rw [Lives, Array.size_modify]
          exact lives
        blocks := fun _ _ _ _ lives => lives }
  | blocks address =>
    exact
      { push := fun _ _ lives => lives
        log := fun _ _ lives => lives
        cells := fun _ _ _ _ lives => lives
        blocks := fun memory other f _ lives => by
          rw [Lives, Array.size_modify]
          exact lives }

-- New storage lies behind the old one.
theorem grows_kept (place : Storage) (start : Memory) : Grows (place.Kept start) where
  push := fun memory array kept => by
    cases place with
    | cells address =>
      obtain ⟨found, before, now⟩ := kept
      have inside := (Array.getElem?_eq_some_iff.1 now).1
      exact ⟨found, before, by rw [Array.getElem?_push_lt inside, ← Array.getElem?_eq_getElem inside, now]⟩
    | blocks address => exact kept
  log := fun _ _ kept => by cases place <;> exact kept

-- Writing to one storage keeps what lies in another one.
theorem spares_kept (used : Storage) (apart : used ≠ place) : used.Spares (place.Kept start) where
  toGrows := grows_kept place start
  cells := fun memory other f same kept => by
    cases place with
    | cells address =>
      obtain ⟨found, before, now⟩ := kept
      have different : other ≠ address := fun equal => apart (same.trans (congrArg _ equal))
      exact ⟨found, before, by rw [Array.getElem?_modify, if_neg different, now]⟩
    | blocks address => exact kept
  blocks := fun memory other f same kept => by
    cases place with
    | cells address => exact kept
    | blocks address =>
      obtain ⟨found, before, now⟩ := kept
      have different : other ≠ address := fun equal => apart (same.trans (congrArg _ equal))
      exact ⟨found, before, by rw [Array.getElem?_modify, if_neg different, now]⟩

end Storage

/-! ## Steps on a memory -/

theorem Attempt.Keeps.lift {σ α : Type} {P : σ → Prop} (outcome : Except Fault α) :
    Keeps P (liftM outcome : Attempt σ α) := by
  intro state holds
  rw [run_lift]
  exact holds

namespace Memory

variable {P : Memory → Prop} {address : Nat}

theorem keeps_reserve (count : Nat) : Keeps P (reserve count) := by
  unfold reserve
  split
  · exact Keeps.pure _
  · exact Keeps.throw _

theorem keeps_array : Keeps P (Memory.array address) := by
  refine Keeps.get.bind fun memory => ?_
  split
  · exact Keeps.pure _
  · exact Keeps.throw _

theorem keeps_map : Keeps P (Memory.map address) := by
  refine Keeps.get.bind fun memory => ?_
  split
  · exact Keeps.pure _
  · exact Keeps.throw _

end Memory

/-! ## Commands through a handle -/

namespace DenseWeights

variable {P : Memory → Prop} {weights : DenseWeights}

theorem keeps_cells : Keeps P weights.cells := Memory.keeps_array.bind fun _ => Keeps.pure _

theorem keeps_get (index : UInt64) : Keeps P (weights.get index) := by
  refine keeps_cells.bind fun cells => ?_
  split
  · exact Keeps.pure _
  · exact Keeps.throw _

theorem keeps_deepCopy (grows : Storage.Grows P) : Keeps P weights.deepCopy :=
  keeps_cells.bind fun _ => Keeps.bind (fun memory => grows.push memory _) fun _ => Keeps.pure _

theorem keeps_share (grows : Storage.Grows P) : Keeps P weights.share := by
  refine Memory.keeps_array.bind fun array => ?_
  split
  · exact Keeps.pure _
  · split
    · exact Keeps.throw _
    · exact Keeps.bind (fun memory => grows.push memory _) fun _ =>
        Keeps.bind (fun memory => grows.log memory _) fun _ => Keeps.pure _

variable (spares : (Storage.cells weights.address).Spares P)

include spares

theorem keeps_update (index : UInt64) (f : Float32 → Float32) : Keeps P (weights.update index f) :=
  (keeps_get index).bind fun _ => Keeps.modify fun memory => spares.cells memory _ _ rfl

theorem keeps_setDefault (init : Initialiser) : Keeps P (weights.setDefault init) :=
  (Keeps.lift _).bind fun _ => (Memory.keeps_reserve _).bind fun _ =>
    Keeps.modify fun memory => spares.cells memory _ _ rfl

theorem keeps_setZero (place : Nat) : Keeps P (weights.setZero place) := by
  refine (Keeps.lift _).bind fun stride => ?_
  split
  · exact Keeps.modify fun memory => spares.cells memory _ _ rfl
  · exact Keeps.pure _

end DenseWeights

namespace SparseWeights

variable {P : Memory → Prop} {weights : SparseWeights} (spares : (Storage.blocks weights.address).Spares P)

include spares

theorem keeps_block (key : UInt64) : Keeps P (weights.block key) := by
  refine Memory.keeps_map.bind fun map => ?_
  split
  · exact Keeps.pure _
  · exact (Memory.keeps_reserve _).bind fun _ => Keeps.bind (fun memory => spares.log memory _) fun _ =>
      Keeps.bind (fun memory => spares.blocks memory _ _ rfl) fun _ => Keeps.pure _

theorem keeps_get (index : UInt64) : Keeps P (weights.get index) := by
  refine (Keeps.lift _).bind fun (key, place) => Memory.keeps_map.bind fun map => ?_
  split
  · exact Keeps.pure _
  · exact (keeps_block spares key).bind fun _ => Keeps.pure _

theorem keeps_update (index : UInt64) (f : Float32 → Float32) : Keeps P (weights.update index f) :=
  (Keeps.lift _).bind fun (key, _) => (keeps_block spares key).bind fun _ =>
    Keeps.modify fun memory => spares.blocks memory _ _ rfl

theorem keeps_setZero (place : Nat) : Keeps P (weights.setZero place) := by
  refine (Keeps.lift _).bind fun stride => ?_
  split
  · exact Keeps.modify fun memory => spares.blocks memory _ _ rfl
  · exact Keeps.pure _

end SparseWeights

namespace Weights

def storage : Weights → Storage
  | .dense weights => .cells weights.address
  | .sparse weights => .blocks weights.address

variable {P : Memory → Prop} {weights : Weights} (spares : weights.storage.Spares P)

include spares

theorem keeps_get (index : UInt64) : Keeps P (weights.get index) := by
  cases weights with
  | dense weights => exact DenseWeights.keeps_get index
  | sparse weights => exact SparseWeights.keeps_get spares index

theorem keeps_update (index : UInt64) (f : Float32 → Float32) : Keeps P (weights.update index f) := by
  cases weights with
  | dense weights => exact DenseWeights.keeps_update spares index f
  | sparse weights => exact SparseWeights.keeps_update spares index f

theorem keeps_setZero (place : Nat) : Keeps P (weights.setZero place) := by
  cases weights with
  | dense weights => exact DenseWeights.keeps_setZero spares place
  | sparse weights => exact SparseWeights.keeps_setZero spares place

theorem keeps_setDefault (init : Initialiser) : Keeps P (weights.setDefault init) := by
  cases weights with
  | dense weights => exact (DenseWeights.keeps_setDefault spares init).bind fun _ => Keeps.pure _
  | sparse weights => exact Keeps.pure _

theorem keeps_perform (operation : Operation) : Keeps P (weights.perform operation) := by
  cases operation with
  | get index => exact (keeps_get spares index).bind fun _ => Keeps.pure _
  | set | add | update => exact (keeps_update spares _ _).bind fun _ => Keeps.pure _
  | setZero place => exact (keeps_setZero spares place).bind fun _ => Keeps.pure _

theorem keeps_attempt (command : Command) : Keeps P (command.attempt weights) := by
  cases command with
  | operate operation => exact (keeps_perform spares operation).bind fun _ => Keeps.pure _
  | setDefault init => exact (keeps_setDefault spares init).bind fun _ => Keeps.pure _
  | shallowCopy => exact Keeps.pure _
  | deepCopy =>
    cases weights with
    | dense weights => exact (DenseWeights.keeps_deepCopy spares.toGrows).bind fun _ => Keeps.pure _
    | sparse weights => exact Keeps.pure _
  | share =>
    cases weights with
    | dense weights =>
      exact Keeps.bind ((DenseWeights.keeps_share spares.toGrows).bind fun _ => Keeps.pure _) fun _ => Keeps.pure _
    | sparse weights => exact (Keeps.throw _).bind fun _ => Keeps.pure _

end Weights

end HashedFeatures
