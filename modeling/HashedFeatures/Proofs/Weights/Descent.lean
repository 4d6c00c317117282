import HashedFeatures.Proofs.Weights.Storage

/-! The handles that a command leaves.

Each of them has the storage of the handle that it comes from, or storage that did not exist before: deep copies
and moves into shared memory make new storage, and put the same cells there.
-/

set_option autoImplicit false

namespace HashedFeatures

open Attempt (Keeps)

/-! ## New storage -/

namespace DenseWeights

variable {weights : DenseWeights} {memory : Memory} {array : DenseArray}

theorem run_cells (found : memory.arrays[weights.address]? = some array) :
    weights.cells.run memory = (.ok array.cells, memory) := by
  rw [cells, Attempt.run_bind_ok (Memory.run_array found)]
  rfl

theorem run_get_of_some (found : memory.arrays[weights.address]? = some array) (index : UInt64) :
    ((weights.get index).run memory).1 =
      match array.cells[weights.place index]? with
      | some cell => .ok cell
      | none => .error .outOfBounds := by
  rw [get, Attempt.run_bind_ok (run_cells found)]
  cases array.cells[weights.place index]? <;> rfl

theorem run_deepCopy (found : memory.arrays[weights.address]? = some array) :
    weights.deepCopy.run memory = (.ok { weights with address := memory.arrays.size },
      { memory with arrays := memory.arrays.push ⟨array.cells, false⟩ }) := by
  rw [deepCopy, Attempt.run_bind_ok (run_cells found)]
  rfl

theorem run_share_of_shared (found : memory.arrays[weights.address]? = some array) (shared : array.shared = true) :
    weights.share.run memory = (.ok weights, memory) := by
  rw [share, Attempt.run_bind_ok (Memory.run_array found), if_pos shared]
  rfl

theorem run_share_of_isEmpty (found : memory.arrays[weights.address]? = some array) (shared : array.shared = false)
    (none : array.cells = #[]) : weights.share.run memory = (.error .shareEmpty, memory) := by
  rw [share, Attempt.run_bind_ok (Memory.run_array found), if_neg (by simp [shared]), if_pos (by simp [none])]
  rfl

theorem run_share (found : memory.arrays[weights.address]? = some array) (shared : array.shared = false)
    (some : array.cells ≠ #[]) :
    weights.share.run memory = (.ok { weights with address := memory.arrays.size },
      { memory with
        arrays := memory.arrays.push ⟨array.cells, true⟩
        records := memory.records.push
          ⟨.info, "Moved " ++ toString array.cells.size ++ " dense weights into shared memory"⟩ }) := by
  rw [share, Attempt.run_bind_ok (Memory.run_array found), if_neg (by simp [shared]), if_neg (by simpa using some)]
  rfl

end DenseWeights

namespace Weights

/-! ## Reads and the storage of a handle -/

theorem peek_of_kept {weights : Weights} {start memory : Memory} (kept : weights.storage.Kept start memory)
    (index : UInt64) : weights.peek memory index = weights.peek start index := by
  cases weights with
  | dense weights =>
    obtain ⟨array, before, now⟩ := kept
    exact (DenseWeights.run_get_of_some now index).trans (DenseWeights.run_get_of_some before index).symm
  | sparse weights =>
    obtain ⟨map, before, now⟩ := kept
    exact weights.run_get_congr before now (fun _ => rfl) index

theorem peek_dense_congr {weights made : DenseWeights} {memory after : Memory} {array copied : DenseArray}
    (found : memory.arrays[weights.address]? = some array) (foundAfter : after.arrays[made.address]? = some copied)
    (layout : made.layout = weights.layout) (cells : copied.cells = array.cells) (index : UInt64) :
    (Weights.dense made).peek after index = (Weights.dense weights).peek memory index := by
  refine (DenseWeights.run_get_of_some foundAfter index).trans
    (.trans ?_ (DenseWeights.run_get_of_some found index).symm)
  rw [cells, DenseWeights.place, DenseWeights.place, layout]

structure Copies (weights : Weights) (memory after : Memory) (handle : Weights) : Prop where
  layout : handle.layout = weights.layout
  cells : ∃ source array shared, weights.storage = .cells source ∧ memory.arrays[source]? = some array ∧
    handle.storage = .cells memory.arrays.size ∧ after.arrays[memory.arrays.size]? = some ⟨array.cells, shared⟩

/-- The handle lives on, in the storage of the handle that it comes from or in a new one. -/
structure Descends (weights : Weights) (memory after : Memory) (handle : Weights) : Prop where
  place : handle.layout = weights.layout ∧ handle.storage = weights.storage ∨ weights.Copies memory after handle
  lives : handle.storage.Lives after

theorem Copies.new {weights handle : Weights} {memory after : Memory} (copies : weights.Copies memory after handle) :
    ¬ handle.storage.Lives memory := by
  obtain ⟨_, _, _, _, _, place, _⟩ := copies.cells
  rw [place]
  exact Nat.lt_irrefl memory.arrays.size

theorem Descends.origin {weights handle : Weights} {memory after : Memory}
    (descends : Descends weights memory after handle) :
    handle.storage = weights.storage ∨ ¬ handle.storage.Lives memory :=
  descends.place.imp And.right Copies.new

theorem Descends.of_push {source : DenseWeights} {memory : Memory} {array : DenseArray}
    (found : memory.arrays[source.address]? = some array) (shared : Bool) (records : Array Record) :
    Descends (.dense source) memory { memory with arrays := memory.arrays.push ⟨array.cells, shared⟩, records }
      (.dense { source with address := memory.arrays.size }) where
  place := .inr ⟨rfl, source.address, array, shared, rfl, found, rfl, Array.getElem?_push_size⟩
  lives := Nat.lt_of_lt_of_eq (Nat.lt_succ_self _) (Array.size_push _).symm

theorem descends_of_share {weights moved : DenseWeights} {memory after : Memory}
    (lives : (Weights.dense weights).storage.Lives memory) (run : weights.share.run memory = (.ok moved, after)) :
    Descends (.dense weights) memory after (.dense moved) := by
  obtain ⟨array, found, -⟩ := lives.kept
  cases shared : array.shared with
  | true =>
    rw [weights.run_share_of_shared found shared] at run
    cases run
    exact ⟨.inl ⟨rfl, rfl⟩, lives⟩
  | false =>
    by_cases none : array.cells = #[]
    · rw [weights.run_share_of_isEmpty found shared none] at run
      cases run
    · rw [weights.run_share found shared none] at run
      cases run
      exact .of_push found true _

theorem attempt_descends {weights : Weights} {command : Command} {memory after : Memory} {effect : Effect}
    (lives : weights.storage.Lives memory) (run : (command.attempt weights).run memory = (.ok effect, after)) :
    Descends weights memory after effect.handle ∧ ∀ made ∈ effect.made, Descends weights memory after made := by
  have own : Descends weights memory after weights := by
    have kept := keeps_attempt (Storage.spares_lives weights.storage weights.storage) command memory lives
    rw [run] at kept
    exact ⟨.inl ⟨rfl, rfl⟩, kept⟩
  cases command with
  | operate operation =>
    obtain ⟨_, _, _, last⟩ := Attempt.run_bind_eq_ok.1 run
    cases last
    exact ⟨own, nofun⟩
  | setDefault init =>
    obtain ⟨installed, _, run, last⟩ := Attempt.run_bind_eq_ok.1 run
    cases last
    refine ⟨?_, nofun⟩
    cases weights with
    | dense weights =>
      obtain ⟨_, _, _, last⟩ := Attempt.run_bind_eq_ok.1 run
      cases last
      exact own
    | sparse weights =>
      cases run
      exact ⟨.inl ⟨rfl, rfl⟩, lives⟩
  | shallowCopy =>
    cases run
    exact ⟨own, fun made member => Option.mem_some.1 member ▸ own⟩
  | deepCopy =>
    cases weights with
    | dense weights =>
      obtain ⟨array, found, -⟩ := lives.kept
      obtain ⟨_, _, run, last⟩ := Attempt.run_bind_eq_ok.1 run
      rw [weights.run_deepCopy found] at run
      cases run
      cases last
      exact ⟨own, fun made member => Option.mem_some.1 member ▸ .of_push found false _⟩
    | sparse weights =>
      cases run
      exact ⟨own, nofun⟩
  | share =>
    obtain ⟨moved, _, run, last⟩ := Attempt.run_bind_eq_ok.1 run
    cases last
    refine ⟨?_, nofun⟩
    cases weights with
    | dense weights =>
      obtain ⟨_, _, run, last⟩ := Attempt.run_bind_eq_ok.1 run
      cases last
      exact descends_of_share lives run
    | sparse weights => cases run

namespace Family

variable {family : Family} {number : Nat} {command : Command}

theorem step_keeps {P : Memory → Prop} (keeps : ∀ handle ∈ family.handles, Keeps P (command.attempt handle))
    (holds : P family.memory) : P (family.step number command).2.memory := by
  cases named : family.handles[number]? with
  | none =>
    rw [step_of_none named]
    exact holds
  | some weights =>
    have kept := keeps weights (List.mem_of_getElem? named) family.memory holds
    revert kept
    cases run : (command.attempt weights).run family.memory with
    | mk outcome after =>
      intro kept
      cases outcome with
      | ok effect => exact step_of_ok named run ▸ kept
      | error fault => exact step_of_error named run ▸ kept

/-- The handles behind a command live, each in the storage of a handle that was there or in a new one. -/
theorem step_descends (family : Family) (number : Nat) (command : Command)
    (lives : ∀ handle ∈ family.handles, handle.storage.Lives family.memory) :
    ∀ handle ∈ (family.step number command).2.handles,
      ∃ weights ∈ family.handles, Descends weights family.memory (family.step number command).2.memory handle := by
  intro handle member
  have onward (old : Weights) (place : old ∈ family.handles) :
      Descends old family.memory (family.step number command).2.memory old :=
    ⟨.inl ⟨rfl, rfl⟩, step_keeps (fun _ _ => keeps_attempt (Storage.spares_lives _ _) command) (lives old place)⟩
  cases named : family.handles[number]? with
  | none =>
    rw [step_of_none named] at member
    exact ⟨handle, member, onward handle member⟩
  | some weights =>
    have present := List.mem_of_getElem? named
    cases run : (command.attempt weights).run family.memory with
    | mk outcome after =>
      cases outcome with
      | error fault =>
        rw [step_of_error named run] at member
        exact ⟨handle, member, onward handle member⟩
      | ok effect =>
        obtain ⟨kept, made⟩ := attempt_descends (lives weights present) run
        rw [step_of_ok named run] at member ⊢
        rcases List.mem_append.1 member with old | new
        · rcases List.mem_or_eq_of_mem_set old with old | rfl
          · have := onward handle old
            rw [step_of_ok named run] at this
            exact ⟨handle, old, this⟩
          · exact ⟨weights, present, kept⟩
        · exact ⟨weights, present, made handle (Option.mem_toList.1 new)⟩

end Family

end Weights

end HashedFeatures
