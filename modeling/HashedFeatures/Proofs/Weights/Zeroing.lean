import HashedFeatures.Proofs.Weights.Blocks
import HashedFeatures.Proofs.Weights.Descent

/-! What is read once a place of every slot is zeroed.

Dense weights have all their cells, and zeroing reaches each of them. Sparse weights have the blocks that were
allocated, and zeroing reaches those: a block that is allocated later starts as its initialiser says, at every place.
-/

set_option autoImplicit false

namespace HashedFeatures

open Attempt (Keeps)

/-! ## Slots of an array -/

-- Slot by slot, an array keeps its size if every slot does.
theorem size_mapSlots {stride count : Nat} (positive : 0 < stride) {f : Nat → Array Float32 → Array Float32}
    (sizes : ∀ slot part, (f slot part).size = part.size) {cells : Array Float32}
    (full : cells.size = count * stride) : (mapSlots stride f cells).size = cells.size := by
  have slots : ∀ slot ∈ List.range count,
      (f slot (cells.extract (slot * stride) (slot * stride + stride))).toList.length = stride := by
    intro slot member
    have inside : (slot + 1) * stride ≤ count * stride := Nat.mul_le_mul_right _ (List.mem_range.1 member)
    rw [Nat.succ_mul] at inside
    rw [Array.length_toList, sizes, Array.size_extract, full]
    omega
  unfold mapSlots
  rw [← Array.length_toList, Array.toList_flatMap, Array.toList_range, full, Nat.mul_div_cancel count positive,
    List.length_flatMap, List.map_congr_left slots, List.map_const', List.sum_replicate_nat, List.length_range]

theorem getD_zeroPlace (stride place : Nat) (cells : Array Float32) (i : Nat) :
    (zeroPlace stride place cells).getD i 0 = if i % stride = place then 0 else cells.getD i 0 := by
  rw [Array.getD_eq_getD_getElem?, Array.getD_eq_getD_getElem?, zeroPlace, Array.getElem?_mapIdx]
  cases cells[i]? with
  | none => exact (ite_self 0).symm
  | some cell => rfl

namespace Layout

variable {layout : Layout}

-- Wrapping an index around keeps its place in the slot.
theorem cell_mod (narrow : layout.total < 64) (index : UInt64) :
    (layout.cell index).val % 2 ^ layout.strideShift.toNat = index.toNat % 2 ^ layout.strideShift.toNat := by
  rw [toNat_cell narrow]
  exact Nat.mod_mod_of_dvd _ (Nat.pow_dvd_pow 2 (Nat.le_trans layout.strideShift_le layout.blockShift_le))

theorem placeOf_mod (narrow : layout.total < 64) (index : UInt64) :
    layout.placeOf index % 2 ^ layout.strideShift.toNat = index.toNat % 2 ^ layout.strideShift.toNat := by
  rw [placeOf, Nat.mod_mod_of_dvd _ (Nat.pow_dvd_pow 2 layout.strideShift_le), cell_mod narrow]

end Layout

/-! ## Storage with all its cells -/

namespace Storage

def Full (layout : Layout) (place : Storage) (memory : Memory) : Prop :=
  match place with
  | .cells address => ∃ array, memory.arrays[address]? = some array ∧ array.cells.size = 2 ^ layout.total
  | .blocks address => address < memory.maps.size

variable {layout : Layout} {place : Storage} {start memory : Memory}

theorem Full.lives (full : place.Full layout memory) : place.Lives memory := by
  cases place with
  | cells address =>
    obtain ⟨array, found, -⟩ := full
    exact (Array.getElem?_eq_some_iff.1 found).1
  | blocks address => exact full

theorem Full.of_kept (full : place.Full layout start) (kept : place.Kept start memory) : place.Full layout memory := by
  cases place with
  | cells address =>
    obtain ⟨array, before, now⟩ := kept
    obtain ⟨_, found, size⟩ := full
    cases before.symm.trans found
    exact ⟨array, now, size⟩
  | blocks address =>
    obtain ⟨map, -, now⟩ := kept
    exact (Array.getElem?_eq_some_iff.1 now).1

end Storage

namespace Weights

structure Sound (layout : Layout) (weights : Weights) (memory : Memory) : Prop where
  same : weights.layout = layout
  full : weights.storage.Full layout memory

end Weights

namespace DenseWeights

variable {weights : DenseWeights} {layout : Layout} {memory : Memory} {flat : Flat weights.layout}

theorem Holds.full (holds : weights.Holds memory flat) :
    (Storage.cells weights.address).Full weights.layout memory := by
  obtain ⟨array, found, cells⟩ := holds
  exact ⟨array, found, by rw [cells, Array.size_ofFn]⟩

theorem exists_ofFn {size : Nat} {cells : Array Float32} (full : cells.size = size) :
    ∃ flat : Fin size → Float32, cells = Array.ofFn flat := by
  subst full
  exact ⟨fun i => cells[i], Array.ofFn_getElem.symm⟩

theorem exists_holds (full : (Storage.cells weights.address).Full weights.layout memory) :
    ∃ flat, weights.Holds memory flat := by
  obtain ⟨array, found, size⟩ := full
  obtain ⟨flat, cells⟩ := exists_ofFn size
  exact ⟨flat, array, found, cells⟩

theorem Holds.exists_run_setDefault (holds : weights.Holds memory flat) (narrow : weights.layout.total ≤ 48)
    (init : Initialiser) :
    ∃ after changed, (weights.setDefault init).run memory = (.ok (), after) ∧ weights.Holds after changed := by
  have whole : (Array.ofFn flat).size =
      2 ^ (weights.layout.total - weights.layout.strideShift.toNat) * 2 ^ weights.layout.strideShift.toNat := by
    have fits := Nat.le_trans weights.layout.strideShift_le weights.layout.blockShift_le
    rw [Array.size_ofFn, ← Nat.pow_add, Nat.sub_add_cancel fits]
  obtain ⟨changed, same⟩ := exists_ofFn ((size_mapSlots (Nat.two_pow_pos _)
    (f := fun slot => init.run (UInt64.ofNat slot <<< UInt64.ofNat weights.layout.strideShift.toNat))
    (fun slot part => init.size_run _ part) whole).trans Array.size_ofFn)
  obtain ⟨after, run, holds⟩ := holds.run_setDefault_of narrow init same
  exact ⟨after, changed, run, holds⟩

end DenseWeights

namespace Weights

variable {weights : Weights} {layout : Layout} {memory : Memory}

theorem Sound.grows : Storage.Grows (weights.Sound layout) where
  push := fun memory array sound =>
    ⟨sound.same, sound.full.of_kept ((Storage.grows_kept _ _).push memory array sound.full.lives.kept)⟩
  log := fun memory records sound =>
    ⟨sound.same, sound.full.of_kept ((Storage.grows_kept _ _).log memory records sound.full.lives.kept)⟩

-- Sparse weights need no more than that their map is there.
theorem keeps_sound_sparse (weights : SparseWeights) (command : Command) :
    Keeps ((Weights.sparse weights).Sound layout) (command.attempt (.sparse weights)) := by
  have lives : Keeps (Storage.blocks weights.address).Lives (command.attempt (.sparse weights)) :=
    keeps_attempt (Storage.spares_lives _ _) command
  exact fun memory sound => ⟨sound.same, lives memory sound.full⟩

theorem keeps_sound (weights : Weights) (narrow : layout.total ≤ 48) (command : Command) :
    Keeps (weights.Sound layout) (command.attempt weights) := by
  cases weights with
  | sparse weights => exact keeps_sound_sparse weights command
  | dense weights =>
    cases command with
    | operate operation =>
      refine Keeps.bind (fun memory sound => ?_) fun _ => Keeps.pure _
      obtain ⟨rfl, full⟩ := sound
      obtain ⟨flat, holds⟩ := DenseWeights.exists_holds full
      have holds : (Weights.dense weights).Holds memory flat := holds
      obtain ⟨after, run, holds⟩ := holds.run_perform narrow operation fun _ => trivial
      rw [run]
      exact ⟨rfl, DenseWeights.Holds.full holds⟩
    | setDefault init =>
      refine Keeps.bind (Keeps.bind (fun memory sound => ?_) fun _ => Keeps.pure _) fun _ => Keeps.pure _
      obtain ⟨rfl, full⟩ := sound
      obtain ⟨flat, holds⟩ := DenseWeights.exists_holds full
      obtain ⟨after, changed, run, holds⟩ := holds.exists_run_setDefault narrow init
      rw [run]
      exact ⟨rfl, holds.full⟩
    | shallowCopy => exact Keeps.pure _
    | deepCopy => exact (DenseWeights.keeps_deepCopy Sound.grows).bind fun _ => Keeps.pure _
    | share => exact Keeps.bind ((DenseWeights.keeps_share Sound.grows).bind fun _ => Keeps.pure _) fun _ => Keeps.pure _

-- A command through another handle of the layout writes to the same storage or to another one.
theorem keeps_sound_other {used : Weights} (same : used.layout = layout) (narrow : layout.total ≤ 48)
    (command : Command) : Keeps (weights.Sound layout) (command.attempt used) := by
  intro memory sound
  by_cases apart : used.storage = weights.storage
  · have after := (used.keeps_sound narrow command memory ⟨same, apart ▸ sound.full⟩).full
    exact ⟨sound.same, apart ▸ after⟩
  · have kept := keeps_attempt (Storage.spares_kept used.storage apart) command memory sound.full.lives.kept
    exact ⟨sound.same, sound.full.of_kept kept⟩

theorem Descends.sound {handle : Weights} {after : Memory} (descends : Descends weights memory after handle)
    (before : weights.Sound layout memory) (now : weights.Sound layout after) : handle.Sound layout after := by
  rcases descends.place with ⟨same, place⟩ | copies
  · exact ⟨same.trans now.same, place ▸ now.full⟩
  · obtain ⟨source, array, shared, place, found, new, copied⟩ := copies.cells
    obtain ⟨_, alsoFound, size⟩ : (Storage.cells source).Full layout memory := place ▸ before.full
    cases found.symm.trans alsoFound
    refine ⟨copies.layout.trans before.same, ?_⟩
    rw [new]
    exact ⟨_, copied, size⟩

namespace Family

def Sound (layout : Layout) (family : Family) : Prop :=
  ∀ handle ∈ family.handles, handle.Sound layout family.memory

variable {family : Family}

theorem Sound.step (sound : family.Sound layout) (narrow : layout.total ≤ 48) (number : Nat) (command : Command) :
    (family.step number command).2.Sound layout := by
  intro handle member
  obtain ⟨weights, present, descends⟩ :=
    family.step_descends number command (fun handle member => (sound handle member).full.lives) handle member
  have onward : weights.Sound layout (family.step number command).2.memory :=
    step_keeps (fun used named => keeps_sound_other (sound used named).same narrow command) (sound weights present)
  exact descends.sound (sound weights present) onward

theorem Sound.after (sound : family.Sound layout) (narrow : layout.total ≤ 48) (steps : List (Nat × Command)) :
    (family.after steps).Sound layout := by
  induction steps generalizing family with
  | nil => exact sound
  | cons first rest ih => exact ih (sound.step narrow first.1 first.2)

end Family

/-! ## Reading behind zeroing -/

/-- The block of an index is not there yet, and an initialiser will fill it. -/
def pending (weights : Weights) (memory : Memory) (index : UInt64) : Bool :=
  match weights with
  | .dense _ => false
  | .sparse weights =>
    weights.initialiser.isSome &&
      (memory.maps[weights.address]?.bind fun map => map.find? (weights.layout.blockOf index)).isNone

end Weights

namespace SparseWeights

variable {weights : SparseWeights} {memory : Memory} {map : BlockMap}

-- Nothing is zeroed where no block is, and such a block reads as before.
theorem seen_of_none (narrow : weights.layout.total ≤ 48) {key : UInt64} (absent : map.find? key = none) :
    weights.seen map key = .ok (if weights.initialiser.isNone then #[] else weights.freshBlock key) := by
  have room : weights.blockSize < Memory.cellLimit := by
    rw [blockSize_eq]
    exact Memory.two_pow_lt_cellLimit (by have := weights.layout.blockShift_le; omega)
  rw [seen, absent, if_pos room]
  exact (apply_ite Except.ok ..).symm

theorem peek_setZero (narrow : weights.layout.total ≤ 48) (found : memory.maps[weights.address]? = some map)
    (place : Nat) :
    ∃ zeroed, (weights.setZero place).run memory = (.ok (), zeroed) ∧ ∀ index, ∃ value,
      (Weights.sparse weights).peek memory index = .ok value ∧
      (Weights.sparse weights).peek zeroed index =
        .ok (if index.toNat % 2 ^ weights.layout.strideShift.toNat = place ∧
          (Weights.sparse weights).pending memory index = false then 0 else value) := by
  obtain ⟨zeroed, now, run, foundNow, becomes⟩ := run_setZero_becomes narrow found place
  refine ⟨zeroed, run, fun index => ?_⟩
  have small : weights.layout.total < 64 := Nat.lt_of_le_of_lt narrow (by decide)
  have split := weights.layout.split_eq_blockOf small index
  have before := (weights.run_get_cases found split).1
  have after := (weights.run_get_cases foundNow split).1
  cases lookup : map.find? (weights.layout.blockOf index) with
  | some cells =>
    rw [weights.seen_of_some lookup] at before
    rw [weights.seen_of_some (becomes.written _ _ lookup)] at after
    have there : (Weights.sparse weights).pending memory index = false := by
      simp [Weights.pending, found, lookup]
    refine ⟨cells.getD (weights.layout.placeOf index) 0, before, after.trans ?_⟩
    rw [Except.map, getD_zeroPlace, Layout.placeOf_mod small, there]
    simp only [and_true]
  | none =>
    have absent : now.find? (weights.layout.blockOf index) = none := by
      have none := becomes.allocated (weights.layout.blockOf index)
      simpa [lookup] using none
    rw [seen_of_none narrow lookup] at before
    rw [seen_of_none narrow absent] at after
    refine ⟨_, before, after.trans (congrArg Except.ok ?_)⟩
    cases plain : weights.initialiser <;> simp [Weights.pending, found, lookup, plain]

end SparseWeights

namespace Weights

variable {weights : Weights} {layout : Layout} {memory : Memory}

/-- Zeroing a place of every slot zeroes what is read there, unless the block is still to be filled. -/
theorem Sound.peek_setZero (sound : weights.Sound layout memory) (narrow : layout.total ≤ 48) (place : Nat) :
    ∃ zeroed, (weights.setZero place).run memory = (.ok (), zeroed) ∧ ∀ index, ∃ value,
      weights.peek memory index = .ok value ∧
      weights.peek zeroed index = .ok (if index.toNat % 2 ^ layout.strideShift.toNat = place ∧
        weights.pending memory index = false then 0 else value) := by
  obtain ⟨rfl, full⟩ := sound
  cases weights with
  | dense weights =>
    obtain ⟨flat, holds⟩ := DenseWeights.exists_holds full
    have small : weights.layout.total < 64 := Nat.lt_of_le_of_lt narrow (by decide)
    obtain ⟨zeroed, run, after⟩ := holds.run_setZero small place
    refine ⟨zeroed, run, fun index => ⟨flat.read index, congrArg Prod.fst (holds.run_get index), ?_⟩⟩
    refine (congrArg Prod.fst (after.run_get index)).trans ?_
    simp only [Flat.read, Flat.setZero, Layout.cell_mod small, pending, and_true]
    rfl
  | sparse weights => exact SparseWeights.peek_setZero narrow (Array.getElem?_eq_getElem full) place

/-- Whatever is done with new weights through handles that come from one another, zeroing a place of every slot zeroes
what is read there and nothing else. Only a block that an initialiser will fill is not reached, and a place behind the
last one of a slot zeroes nothing. -/
theorem setZero_reaches_all_but_pending (sparse : Bool) (layout : Layout) (narrow : layout.total ≤ 48)
    (memory : Memory) :
    ∃ weights start, (Weights.new sparse layout).run memory = (.ok weights, start) ∧ weights.isSparse = sparse ∧
      ∀ steps, ∀ handle ∈ (Family.after ⟨start, [weights]⟩ steps).handles, ∀ place,
        let reached := (Family.after ⟨start, [weights]⟩ steps).memory
        ∃ zeroed, (handle.setZero place).run reached = (.ok (), zeroed) ∧
          (∀ index, ∃ value, handle.peek reached index = .ok value ∧
            handle.peek zeroed index = .ok (if index.toNat % 2 ^ layout.strideShift.toNat = place ∧
              handle.pending reached index = false then 0 else value)) ∧
          (2 ^ layout.strideShift.toNat ≤ place → ∀ index, handle.peek zeroed index = handle.peek reached index) := by
  obtain ⟨weights, start, run, kind, sound⟩ : ∃ weights start,
      (Weights.new sparse layout).run memory = (.ok weights, start) ∧ weights.isSparse = sparse ∧
        weights.Sound layout start := by
    cases sparse with
    | false =>
      obtain ⟨start, run, holds⟩ := DenseWeights.run_new narrow memory
      exact ⟨_, start, Attempt.run_bind_ok run, rfl, rfl, holds.full⟩
    | true =>
      obtain ⟨start, run, found⟩ := SparseWeights.run_new layout memory
      exact ⟨_, start, Attempt.run_bind_ok run, rfl, rfl, (Array.getElem?_eq_some_iff.1 found).1⟩
  refine ⟨weights, start, run, kind, fun steps handle member place => ?_⟩
  have first : Family.Sound layout ⟨start, [weights]⟩ := fun handle member => List.mem_singleton.1 member ▸ sound
  obtain ⟨zeroed, zero, reads⟩ := (first.after narrow steps handle member).peek_setZero narrow place
  refine ⟨zeroed, zero, reads, fun beyond index => ?_⟩
  obtain ⟨value, before, after⟩ := reads index
  have inside := Nat.mod_lt index.toNat (Nat.two_pow_pos layout.strideShift.toNat)
  rw [after, if_neg fun zeroes => by omega, before]

/-- Two blocks of one slot with two places: the block that was written has the other place left. -/
theorem setZero_reaches_all_but_pending_written :
    let layout : Layout := ⟨1, 0, 1, by decide⟩
    let steps : List (Nat × Command) := [(0, .setDefault (.fill 1)), (0, .operate (.set 0 5))]
    layout.total ≤ 48 ∧
      ∃ weights start, (Weights.new true layout).run .empty = (.ok weights, start) ∧
        ∃ handle ∈ (Family.after ⟨start, [weights]⟩ steps).handles, ∃ zeroed,
          (handle.setZero 0).run (Family.after ⟨start, [weights]⟩ steps).memory = (.ok (), zeroed) ∧
          handle.peek zeroed 0 = .ok 0 ∧ handle.peek zeroed 1 = .ok 1 := by
  intro layout steps
  have narrow : layout.total ≤ 48 := by decide
  obtain ⟨weights, start, run, -, each⟩ := setZero_reaches_all_but_pending true layout narrow .empty
  cases run
  have member : Weights.sparse ⟨layout, 0, some (.fill 1)⟩ ∈
      (Family.after ⟨⟨#[], #[.empty], #[]⟩, [.sparse ⟨layout, 0, none⟩]⟩ steps).handles := List.mem_singleton.2 rfl
  obtain ⟨zeroed, zero, reads, -⟩ := each steps _ member 0
  obtain ⟨zeroth, -, cleared⟩ := reads 0
  obtain ⟨first, before, kept⟩ := reads 1
  refine ⟨narrow, _, _, rfl, _, member, zeroed, zero, ?_, ?_⟩
  · rw [cleared, if_pos ⟨rfl, by decide +kernel⟩]
  · rw [kept, if_neg (by decide), ← before]
    decide +kernel

/-- Nothing is allocated when the only place is zeroed, and then a read fills the block with ones. -/
theorem setZero_leaves_pending :
    let layout : Layout := ⟨1, 0, 0, by decide⟩
    let handle : Weights := .sparse ⟨layout, 0, some (.fill 1)⟩
    ∃ weights start, (Weights.new true layout).run .empty = (.ok weights, start) ∧
      let reached := Family.after ⟨start, [weights]⟩ [(0, .setDefault (.fill 1))]
      reached.handles = [handle] ∧
        ∃ zeroed, (handle.setZero 0).run reached.memory = (.ok (), zeroed) ∧
          0 < 2 ^ layout.strideShift.toNat ∧ (0 : UInt64).toNat % 2 ^ layout.strideShift.toNat = 0 ∧
          handle.peek zeroed 0 = .ok 1 ∧ handle.peek zeroed 0 ≠ .ok 0 := by
  exact ⟨_, _, rfl, rfl, _, rfl, by decide, rfl, by decide +kernel, by decide +kernel⟩

end Weights

end HashedFeatures
