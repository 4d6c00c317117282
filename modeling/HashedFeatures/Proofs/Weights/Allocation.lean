import HashedFeatures.Expansion.Traversal
import HashedFeatures.Proofs.Attempt.Invariant
import HashedFeatures.Proofs.Weights.Family
import HashedFeatures.Proofs.Weights.Listing

/-! Sparse weights have the blocks that were touched, and no others.

Whatever goes through the handles on one map, each with an initialiser of its own or with none: a block is allocated
exactly if an operation has touched an index of it. From then on only the operations write to it.
-/

set_option autoImplicit false

namespace HashedFeatures

open Attempt (Keeps)

namespace Weights

def blocks? (weights : Weights) (memory : Memory) : Option BlockMap :=
  match weights with
  | .dense _ => none
  | .sparse weights => memory.maps[weights.address]?

def Command.touches (command : Command) (weights : Weights) : Option UInt64 :=
  match weights, command with
  | .sparse weights, .operate operation => operation.touches weights.initialiser.isSome
  | _, _ => none

def Command.writes (layout : Layout) (key : UInt64) (cells : Array Float32) : Command → Array Float32
  | .operate operation => operation.writes layout key cells
  | _ => cells

namespace Family

def touched : Family → List (Nat × Command) → List UInt64
  | _, [] => []
  | family, (number, command) :: rest =>
    (family.handles[number]?.bind command.touches).toList ++ touched (family.step number command).2 rest

def written (layout : Layout) (key : UInt64) : Family → List (Nat × Command) → Array Float32 → Array Float32
  | _, [], cells => cells
  | family, (number, command) :: rest, cells =>
    written layout key (family.step number command).2 rest
      (if family.handles[number]?.isSome then command.writes layout key cells else cells)

/-- All handles are on one map of blocks, of one layout. -/
structure OnMap (layout : Layout) (address : Nat) (family : Family) (map : BlockMap) : Prop where
  handles : ∀ handle ∈ family.handles, ∃ initialiser, handle = .sparse ⟨layout, address, initialiser⟩
  found : family.memory.maps[address]? = some map
  fits : map.Fits layout

variable {layout : Layout} {address : Nat} {family : Family} {map : BlockMap}

/-- One command allocates the block that it touches, and writes to those that were there. -/
theorem OnMap.step (on : family.OnMap layout address map) (narrow : layout.total ≤ 48) (number : Nat)
    (command : Command) :
    ∃ now, (family.step number command).2.OnMap layout address now ∧
      map.Becomes now layout (family.handles[number]?.bind command.touches) fun key cells =>
        if family.handles[number]?.isSome then command.writes layout key cells else cells := by
  cases named : family.handles[number]? with
  | none =>
    rw [step_of_none named]
    exact ⟨map, on, .refl map layout⟩
  | some weights =>
    obtain ⟨initialiser, rfl⟩ := on.handles weights (List.mem_of_getElem? named)
    -- Only an operation changes the map; the other commands leave handles on it.
    have unchanged {answer : Option (Option Float32)} {made : Option Weights} {next : Option Initialiser}
        (run : (command.attempt (.sparse ⟨layout, address, initialiser⟩)).run family.memory =
          (.ok ⟨answer, .sparse ⟨layout, address, next⟩, made⟩, family.memory))
        (same : ∀ handle ∈ made, handle = .sparse ⟨layout, address, initialiser⟩) :
        (family.step number command).2.OnMap layout address map := by
      rw [step_of_ok named run]
      refine ⟨fun handle member => ?_, on.found, on.fits⟩
      rcases List.mem_append.1 member with old | new
      · rcases List.mem_or_eq_of_mem_set old with old | rfl
        · exact on.handles handle old
        · exact ⟨next, rfl⟩
      · exact ⟨initialiser, same handle (Option.mem_toList.1 new)⟩
    cases command with
    | operate operation =>
      obtain ⟨answer, after, now, run, found, becomes⟩ :=
        SparseWeights.run_perform_becomes ⟨layout, address, initialiser⟩ narrow on.found operation
      rw [step_of_ok named (Attempt.run_bind_ok run)]
      refine ⟨now, ⟨fun handle member => ?_, found, becomes.fits on.fits⟩, becomes⟩
      rcases List.mem_append.1 member with old | new
      · rcases List.mem_or_eq_of_mem_set old with old | rfl
        · exact on.handles handle old
        · exact ⟨initialiser, rfl⟩
      · cases new
    | setDefault init => exact ⟨map, unchanged rfl nofun, .refl map layout⟩
    | shallowCopy =>
      exact ⟨map, unchanged rfl fun handle same => (Option.mem_some.1 same).symm, .refl map layout⟩
    | deepCopy => exact ⟨map, unchanged rfl nofun, .refl map layout⟩
    | share =>
      have stopped : (Command.share.attempt (.sparse ⟨layout, address, initialiser⟩)).run family.memory =
        (.error .shareSparse, family.memory) := rfl
      rw [step_of_error named stopped]
      exact ⟨map, on, .refl map layout⟩

theorem OnMap.run (on : family.OnMap layout address map) (narrow : layout.total ≤ 48) (steps : List (Nat × Command)) :
    ∃ now, (family.after steps).OnMap layout address now ∧
      (∀ key, (now.find? key).isSome ↔
        (map.find? key).isSome ∨ ∃ index ∈ family.touched steps, layout.blockOf index = key) ∧
      ∀ key cells, map.find? key = some cells → now.find? key = some (family.written layout key steps cells) := by
  induction steps generalizing family map with
  | nil => exact ⟨map, on, by simp [touched], fun _ _ found => found⟩
  | cons first rest ih =>
    obtain ⟨number, command⟩ := first
    obtain ⟨middle, onMiddle, becomes⟩ := on.step narrow number command
    obtain ⟨now, onNow, allocated, written⟩ := ih onMiddle
    refine ⟨now, onNow, fun key => ?_, fun key cells found => written key _ (becomes.written key cells found)⟩
    rw [allocated, becomes.allocated, touched, or_assoc]
    simp only [List.mem_append, Option.mem_toList, Option.mem_def, or_and_right, exists_or]

end Family

/-! ## Reading without an initialiser -/

theorem run_get_of_plain (weights : Weights) (plain : weights.Plain) (memory : Memory) (index : UInt64) :
    ((weights.get index).run memory).2 = memory := by
  cases weights with
  | dense weights => exact weights.run_get_snd memory index
  | sparse weights => exact SparseWeights.run_get_plain plain memory index

theorem run_predict_of_plain (weights : Weights) (plain : weights.Plain) (memory : Memory) (ec : Example)
    (ignored : NamespaceSet) (terms : List Term) (permutations : Bool) (scratch : Scratch) (start : Float32) :
    ((weights.predict ec ignored terms permutations scratch start).run memory).2 = memory := by
  have read (index : UInt64) : Keeps (· = memory) (weights.get index) := by
    rintro _ rfl
    exact weights.run_get_of_plain plain _ index
  have dot (features : List Weighted) (start : Float32) : Keeps (· = memory) (weights.dot start features) := by
    induction features generalizing start with
    | nil => exact Keeps.pure _
    | cons feature rest ih => exact (read _).bind fun _ => ih _
  exact (dot _ start).bind (fun _ => Keeps.pure _) memory rfl

structure Allocated (layout : Layout) (first : Family) (steps : List (Nat × Command)) (map : BlockMap) : Prop where
  /-- All handles, the first ones and those that came of them, are on this map. -/
  blocks : ∀ handle ∈ first.handles ++ (first.after steps).handles,
    handle.blocks? (first.after steps).memory = some map
  /-- The allocated blocks are those that were touched. -/
  keys : ∀ key, key ∈ map.keys ↔ ∃ index ∈ first.touched steps, layout.blockOf index = key
  fits : map.Fits layout
  /-- However the run goes on, a block that is there stays there, and only operations write to it. -/
  kept : ∀ more, ∃ later,
    (∀ handle ∈ first.handles, handle.blocks? ((first.after steps).after more).memory = some later) ∧
    ∀ key cells, map.find? key = some cells →
      later.find? key = some ((first.after steps).written layout key more cells)
  /-- Reading allocates nothing without an initialiser. -/
  read : ∀ handle ∈ (first.after steps).handles, handle.Plain →
    (∀ index, ((handle.get index).run (first.after steps).memory).2 = (first.after steps).memory) ∧
    ∀ ec ignored terms permutations scratch start,
      ((handle.predict ec ignored terms permutations scratch start).run (first.after steps).memory).2 =
        (first.after steps).memory
  /-- The slots of the allocated blocks are listed in ascending order, with what is read of their first cells. -/
  listed : ∀ weights, .sparse weights ∈ (first.after steps).handles →
    ∃ entries, weights.slots.run (first.after steps).memory = (.ok entries, (first.after steps).memory) ∧
      entries.Pairwise (fun left right => left.1 < right.1) ∧
      ∀ index value, (index, value) ∈ entries ↔
        (∃ key ∈ map.keys, ∃ slot < 2 ^ layout.widthBits.toNat, index.toNat =
          key.toNat * 2 ^ layout.blockShift + slot * 2 ^ layout.strideShift.toNat) ∧
        (Weights.sparse weights).peek (first.after steps).memory index = .ok value

/-- Whatever is done with new sparse weights through handles that come from one another, the blocks that are
allocated are those of the indices that were touched. -/
theorem sparse_allocates_touched (layout : Layout) (narrow : layout.total ≤ 48) (memory : Memory) :
    ∃ weights start, (Weights.new true layout).run memory = (.ok weights, start) ∧
      ∀ steps, ∃ map, Allocated layout ⟨start, [weights]⟩ steps map := by
  obtain ⟨start, run, found⟩ := SparseWeights.run_new layout memory
  refine ⟨_, start, Attempt.run_bind_ok run, fun steps => ?_⟩
  have new : Family.OnMap layout memory.maps.size ⟨start, [.sparse ⟨layout, memory.maps.size, none⟩]⟩ .empty :=
    ⟨fun handle member => ⟨none, List.mem_singleton.1 member⟩, found, BlockMap.fits_empty layout⟩
  have blocks {family : Family} {map : BlockMap} (on : family.OnMap layout memory.maps.size map) (handle : Weights)
      (shape : ∃ initialiser, handle = .sparse ⟨layout, memory.maps.size, initialiser⟩) :
      handle.blocks? family.memory = some map := by
    obtain ⟨initialiser, rfl⟩ := shape
    exact on.found
  obtain ⟨map, on, allocated, -⟩ := new.run narrow steps
  refine ⟨map, fun handle member => ?_, fun key => ?_, on.fits, fun more => ?_, fun handle _ plain => ?_,
    fun weights member => ?_⟩
  · rcases List.mem_append.1 member with early | late
    · exact blocks on handle (new.handles handle early)
    · exact blocks on handle (on.handles handle late)
  · rw [BlockMap.mem_keys, allocated]
    simp
  · obtain ⟨later, onLater, -, written⟩ := on.run narrow more
    exact ⟨later, fun handle early => blocks onLater handle (new.handles handle early), written⟩
  · exact ⟨handle.run_get_of_plain plain _, handle.run_predict_of_plain plain _⟩
  · obtain ⟨initialiser, same⟩ := on.handles _ member
    cases same
    have fits : map.Fits layout := on.fits
    exact ⟨_, SparseWeights.run_slots narrow on.found fits, SparseWeights.listed_ascending narrow fits,
      SparseWeights.mem_listed_iff narrow on.found fits⟩

/-- Two hash bits and two places: the index nine wraps around to the block zero, and a read with an initialiser
allocates the block three, but a read without one does not allocate the block two. -/
theorem sparse_allocates_touched_wraps :
    let layout : Layout := ⟨2, 0, 1, by decide⟩
    let steps : List (Nat × Command) :=
      [(0, .operate (.set 9 5)), (0, .shallowCopy), (1, .setDefault (.fill 1)), (0, .operate (.get 4)),
        (1, .operate (.get 6))]
    layout.total ≤ 48 ∧
      ∃ start map, (Weights.new true layout).run .empty = (.ok (.sparse ⟨layout, 0, none⟩), start) ∧
        Allocated layout ⟨start, [.sparse ⟨layout, 0, none⟩]⟩ steps map ∧
        ∀ key, key ∈ map.keys ↔ key = 0 ∨ key = 3 := by
  intro layout steps
  have narrow : layout.total ≤ 48 := by decide
  obtain ⟨weights, start, run, allocated⟩ := sparse_allocates_touched layout narrow .empty
  cases run
  obtain ⟨map, allocated⟩ := allocated steps
  refine ⟨narrow, _, map, rfl, allocated, fun key => ?_⟩
  have touched : Family.touched ⟨⟨#[], #[.empty], #[]⟩, [.sparse ⟨layout, 0, none⟩]⟩ steps = [9, 6] := by decide
  have zero : layout.blockOf 9 = 0 := by decide
  have three : layout.blockOf 6 = 3 := by decide
  rw [allocated.keys]
  refine Iff.trans (b := ∃ index ∈ [9, 6], layout.blockOf index = key) (by rw [← touched]; rfl) ?_
  simp [zero, three, eq_comm]

end Weights

end HashedFeatures
