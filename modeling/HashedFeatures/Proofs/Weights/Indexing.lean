import HashedFeatures.Proofs.Weights.Zeroing
import Mathlib.Algebra.BigOperators.Group.List.Lemmas
import Mathlib.Data.Set.Function

/-! The layout of an index is a bijection between its three parts and the span of the store.

The parts are the digits of an index, so an index is put together without a carry and taken apart again, also
after it has gone around the store. An initialiser runs over each slot with the index of its first cell.
-/

set_option autoImplicit false

namespace HashedFeatures

/-! ## Words without a carry -/

namespace Word

theorem exists_shiftLeft {amount : Nat} (fits : amount < 64) {word : UInt64} (room : word.toNat * 2 ^ amount < 2 ^ 64) :
    ∃ shifted, shiftLeft word amount = .ok shifted ∧ shifted.toNat = word.toNat * 2 ^ amount :=
  ⟨_, shiftLeft_eq fits word, toNat_shiftLeft fits room⟩

theorem exists_add {left right : UInt64} (room : left.toNat + right.toNat < 2 ^ 64) :
    ∃ sum, add left right = .ok sum ∧ sum.toNat = left.toNat + right.toNat := by
  refine ⟨left + right, if_pos room, ?_⟩
  rw [UInt64.toNat_add, Nat.mod_eq_of_lt room]

end Word

namespace Layout

variable {layout : Layout} {hash width place : UInt64}

/-! ## Three parts and one index -/

structure Within (layout : Layout) (hash width place : UInt64) : Prop where
  hash_lt : hash.toNat < 2 ^ layout.hashBits.toNat
  width_lt : width.toNat < 2 ^ layout.widthBits.toNat
  place_lt : place.toNat < 2 ^ layout.strideShift.toNat

def jointOf (layout : Layout) (hash width : UInt64) : Except Fault UInt64 := do
  Word.add (← Word.shiftLeft hash layout.widthBits.toNat) width

theorem slot_mul (layout : Layout) (key slot : Nat) :
    (key * 2 ^ layout.widthBits.toNat + slot) * 2 ^ layout.strideShift.toNat =
      key * 2 ^ layout.blockShift + slot * 2 ^ layout.strideShift.toNat := by
  rw [two_pow_blockShift, Nat.add_mul, Nat.mul_assoc]

namespace Within

theorem inner_lt (within : layout.Within hash width place) :
    width.toNat * 2 ^ layout.strideShift.toNat + place.toNat < 2 ^ layout.blockShift := by
  rw [two_pow_blockShift]
  calc width.toNat * 2 ^ layout.strideShift.toNat + place.toNat
      < (width.toNat + 1) * 2 ^ layout.strideShift.toNat := by
        rw [Nat.succ_mul]
        exact Nat.add_lt_add_left within.place_lt _
    _ ≤ _ := Nat.mul_le_mul_right _ within.width_lt

theorem index_lt (within : layout.Within hash width place) :
    hash.toNat * 2 ^ layout.blockShift + (width.toNat * 2 ^ layout.strideShift.toNat + place.toNat) <
      2 ^ layout.total :=
  join_lt within.hash_lt within.inner_lt

theorem slot_lt (within : layout.Within hash width place) :
    hash.toNat * 2 ^ layout.widthBits.toNat + width.toNat <
      2 ^ layout.hashBits.toNat * 2 ^ layout.widthBits.toNat :=
  calc hash.toNat * 2 ^ layout.widthBits.toNat + width.toNat
      < (hash.toNat + 1) * 2 ^ layout.widthBits.toNat := by
        rw [Nat.succ_mul]
        exact Nat.add_lt_add_left within.width_lt _
    _ ≤ _ := Nat.mul_le_mul_right _ within.hash_lt

theorem exists_indexOf (within : layout.Within hash width place) (narrow : layout.total < 64) :
    ∃ index, layout.indexOf hash width place = .ok index ∧ index.toNat =
      hash.toNat * 2 ^ layout.blockShift + (width.toNat * 2 ^ layout.strideShift.toNat + place.toNat) := by
  have span : 2 ^ layout.total < 2 ^ 64 := Nat.pow_lt_pow_right (by decide) narrow
  have below := within.index_lt
  have blockFits := layout.blockShift_le
  have strideFits := layout.strideShift_le
  obtain ⟨high, shifted, highValue⟩ := Word.exists_shiftLeft (show layout.blockShift < 64 by omega)
    (show hash.toNat * 2 ^ layout.blockShift < 2 ^ 64 by omega)
  obtain ⟨middle, shifted', middleValue⟩ := Word.exists_shiftLeft (show layout.strideShift.toNat < 64 by omega)
    (show width.toNat * 2 ^ layout.strideShift.toNat < 2 ^ 64 by omega)
  obtain ⟨sum, added, sumValue⟩ := Word.exists_add (show high.toNat + middle.toNat < 2 ^ 64 by omega)
  obtain ⟨index, done, indexValue⟩ := Word.exists_add (show sum.toNat + place.toNat < 2 ^ 64 by omega)
  refine ⟨index, ?_, by omega⟩
  simp only [indexOf, shifted, shifted', added, done, bind, Except.bind]

theorem toNat_of_indexOf (within : layout.Within hash width place) (narrow : layout.total < 64) {index : UInt64}
    (indexed : layout.indexOf hash width place = .ok index) : index.toNat =
      hash.toNat * 2 ^ layout.blockShift + (width.toNat * 2 ^ layout.strideShift.toNat + place.toNat) := by
  obtain ⟨_, found, value⟩ := within.exists_indexOf narrow
  exact Except.ok.inj (indexed.symm.trans found) ▸ value

theorem exists_stridedIndexOf (within : layout.Within hash width place) (narrow : layout.total < 64) :
    ∃ joint index, layout.jointOf hash width = .ok joint ∧ layout.stridedIndexOf joint place = .ok index ∧
      index.toNat =
        hash.toNat * 2 ^ layout.blockShift + (width.toNat * 2 ^ layout.strideShift.toNat + place.toNat) := by
  have span : 2 ^ layout.total < 2 ^ 64 := Nat.pow_lt_pow_right (by decide) narrow
  have below := within.index_lt
  have blockFits := layout.blockShift_le
  have strideFits := layout.strideShift_le
  have widthFits : layout.widthBits.toNat ≤ layout.blockShift := Nat.le_add_right _ _
  have high_le : hash.toNat * 2 ^ layout.widthBits.toNat ≤ hash.toNat * 2 ^ layout.blockShift :=
    Nat.mul_le_mul_left _ (Nat.pow_le_pow_right (by decide) widthFits)
  have width_le : width.toNat ≤ width.toNat * 2 ^ layout.strideShift.toNat :=
    Nat.le_mul_of_pos_right _ (Nat.two_pow_pos _)
  have spread := layout.slot_mul hash.toNat width.toNat
  obtain ⟨high, shifted, highValue⟩ := Word.exists_shiftLeft (show layout.widthBits.toNat < 64 by omega)
    (show hash.toNat * 2 ^ layout.widthBits.toNat < 2 ^ 64 by omega)
  obtain ⟨joint, added, jointValue⟩ := Word.exists_add (show high.toNat + width.toNat < 2 ^ 64 by omega)
  rw [← highValue, ← jointValue] at spread
  obtain ⟨upper, shifted', upperValue⟩ := Word.exists_shiftLeft (show layout.strideShift.toNat < 64 by omega)
    (show joint.toNat * 2 ^ layout.strideShift.toNat < 2 ^ 64 by omega)
  obtain ⟨index, done, indexValue⟩ := Word.exists_add (show upper.toNat + place.toNat < 2 ^ 64 by omega)
  refine ⟨joint, index, ?_, ?_, by omega⟩
  · simp only [jointOf, shifted, added, bind, Except.bind]
  · simp only [stridedIndexOf, shifted', done, bind, Except.bind]

end Within

/-! ## Taking an index apart -/

theorem cell_wraps (narrow : layout.total < 64) (index : UInt64) (turns : Nat) :
    layout.cell (UInt64.ofNat (index.toNat + turns * layout.rawLength.toNat)) = layout.cell index := by
  apply Fin.ext
  have divides : 2 ^ layout.total ∣ 2 ^ 64 := Nat.pow_dvd_pow 2 narrow.le
  rw [toNat_cell narrow, toNat_cell narrow, UInt64.toNat_ofNat', toNat_rawLength narrow, Nat.mod_mod_of_dvd _ divides,
    Nat.add_mul_mod_self_right]

theorem split_congr (narrow : layout.total < 64) {index other : UInt64} (same : layout.cell index = layout.cell other) :
    layout.split index = layout.split other := by
  have blocks : layout.blockOf index = layout.blockOf other := by
    rw [← UInt64.toNat_inj, toNat_blockOf narrow, toNat_blockOf narrow, same]
  rw [split_eq_blockOf _ narrow, split_eq_blockOf _ narrow, blocks, placeOf, placeOf, same]

theorem Within.split_eq (within : layout.Within hash width place) (narrow : layout.total < 64) {index : UInt64}
    (indexed : layout.indexOf hash width place = .ok index) :
    layout.split index = .ok (hash, width.toNat * 2 ^ layout.strideShift.toNat + place.toNat) := by
  obtain ⟨block, rest⟩ :=
    blockOf_placeOf narrow within.hash_lt within.inner_lt (within.toNat_of_indexOf narrow indexed)
  rw [split_eq_blockOf _ narrow, block, rest]

theorem indexOf_mapsTo (narrow : layout.total < 64) :
    Set.MapsTo (fun parts : UInt64 × UInt64 × UInt64 => layout.indexOf parts.1 parts.2.1 parts.2.2)
      {parts | layout.Within parts.1 parts.2.1 parts.2.2} (Except.ok '' {index | index ≤ layout.weightMask}) := by
  rintro ⟨hash, width, place⟩ within
  obtain ⟨index, indexed, value⟩ := within.exists_indexOf narrow
  refine ⟨index, ?_, indexed.symm⟩
  have below := within.index_lt
  rw [Set.mem_ofPred_eq, UInt64.le_iff_toNat_le, weightMask, Word.toNat_lowMask narrow]
  omega

theorem indexOf_injOn (narrow : layout.total < 64) :
    Set.InjOn (fun parts : UInt64 × UInt64 × UInt64 => layout.indexOf parts.1 parts.2.1 parts.2.2)
      {parts | layout.Within parts.1 parts.2.1 parts.2.2} := by
  rintro ⟨hash, width, place⟩ (within : layout.Within hash width place)
    ⟨hash', width', place'⟩ (within' : layout.Within hash' width' place')
    (same : layout.indexOf hash width place = layout.indexOf hash' width' place')
  obtain ⟨index, indexed, -⟩ := within.exists_indexOf narrow
  have parts := within'.split_eq narrow (same.symm.trans indexed)
  rw [within.split_eq narrow indexed, Except.ok.injEq, Prod.mk.injEq] at parts
  obtain ⟨rfl, inner⟩ := parts
  obtain ⟨widths, places⟩ := digits_inj within.place_lt within'.place_lt inner
  rw [UInt64.toNat_inj.1 widths, UInt64.toNat_inj.1 places]

theorem exists_within (narrow : layout.total < 64) {index : UInt64} (inside : index ≤ layout.weightMask) :
    ∃ hash width place, layout.Within hash width place ∧ layout.indexOf hash width place = .ok index := by
  have span : 2 ^ layout.total < 2 ^ 64 := Nat.pow_lt_pow_right (by decide) narrow
  have positive : 0 < 2 ^ layout.total := Nat.two_pow_pos _
  rw [UInt64.le_iff_toNat_le, weightMask, Word.toNat_lowMask narrow] at inside
  have cell : (layout.cell index).val = index.toNat := by
    rw [toNat_cell narrow, Nat.mod_eq_of_lt (by omega)]
  have blockFits : 2 ^ layout.blockShift ≤ 2 ^ layout.total := Nat.pow_le_pow_right (by decide) layout.blockShift_le
  have bound : layout.placeOf index < 2 ^ layout.blockShift := Nat.mod_lt _ (Nat.two_pow_pos _)
  have widthBound : layout.placeOf index / 2 ^ layout.strideShift.toNat < 2 ^ layout.widthBits.toNat :=
    Nat.div_lt_of_lt_mul (by rwa [Nat.mul_comm, ← two_pow_blockShift])
  have placeBound : layout.placeOf index % 2 ^ layout.strideShift.toNat < 2 ^ layout.strideShift.toNat :=
    Nat.mod_lt _ (Nat.two_pow_pos _)
  have small : layout.placeOf index < 2 ^ 64 := by omega
  obtain ⟨width, widthValue⟩ : ∃ width : UInt64, width.toNat = layout.placeOf index / 2 ^ layout.strideShift.toNat :=
    ⟨UInt64.ofNat _, UInt64.toNat_ofNat_of_lt' (Nat.lt_of_le_of_lt (Nat.div_le_self _ _) small)⟩
  obtain ⟨place, placeValue⟩ : ∃ place : UInt64, place.toNat = layout.placeOf index % 2 ^ layout.strideShift.toNat :=
    ⟨UInt64.ofNat _, UInt64.toNat_ofNat_of_lt' (Nat.lt_of_le_of_lt (Nat.mod_le _ _) small)⟩
  have within : layout.Within (layout.blockOf index) width place :=
    ⟨layout.blockOf_lt narrow index, widthValue ▸ widthBound, placeValue ▸ placeBound⟩
  obtain ⟨joined, indexed, value⟩ := within.exists_indexOf narrow
  refine ⟨layout.blockOf index, width, place, within, indexed.trans (congrArg Except.ok (UInt64.toNat_inj.1 ?_))⟩
  rw [value, widthValue, placeValue, Nat.div_add_mod', toNat_blockOf narrow, placeOf, Nat.div_add_mod', cell]

theorem indexOf_bijOn (narrow : layout.total < 64) :
    Set.BijOn (fun parts : UInt64 × UInt64 × UInt64 => layout.indexOf parts.1 parts.2.1 parts.2.2)
      {parts | layout.Within parts.1 parts.2.1 parts.2.2} (Except.ok '' {index | index ≤ layout.weightMask}) := by
  refine ⟨indexOf_mapsTo narrow, indexOf_injOn narrow, ?_⟩
  rintro _ ⟨index, inside, rfl⟩
  obtain ⟨hash, width, place, within, indexed⟩ := exists_within narrow inside
  exact ⟨(hash, width, place), within, indexed⟩

end Layout

/-! ## Slots of an array -/

def slotCells (stride : Nat) (cells : Array Float32) (slot : Nat) : Array Float32 :=
  cells.extract (slot * stride) (slot * stride + stride)

theorem slotCells_replicate {stride count slot : Nat} (inside : slot < count) :
    slotCells stride (Array.replicate (count * stride) 0) slot = Array.replicate stride 0 := by
  have upTo : (slot + 1) * stride ≤ count * stride := Nat.mul_le_mul_right _ inside
  rw [Nat.succ_mul] at upTo
  rw [slotCells, Array.extract_replicate]
  congr 1
  omega

theorem size_slotCells {stride count slot : Nat} {cells : Array Float32} (full : cells.size = count * stride)
    (inside : slot < count) : (slotCells stride cells slot).size = stride := by
  have upTo : (slot + 1) * stride ≤ count * stride := Nat.mul_le_mul_right _ inside
  rw [Nat.succ_mul] at upTo
  rw [slotCells, Array.size_extract, full]
  omega

theorem toList_mapSlots {stride count : Nat} (positive : 0 < stride) (f : Nat → Array Float32 → Array Float32)
    {cells : Array Float32} (full : cells.size = count * stride) :
    (mapSlots stride f cells).toList =
      ((List.range count).map fun slot => (f slot (slotCells stride cells slot)).toList).flatten := by
  unfold mapSlots
  rw [Array.toList_flatMap, Array.toList_range, full, Nat.mul_div_cancel count positive, List.flatMap_def]
  rfl

-- The pieces have one size, so each of them is found at a multiple of it.
theorem slotCells_mapSlots {stride count : Nat} (positive : 0 < stride) {f : Nat → Array Float32 → Array Float32}
    (sizes : ∀ slot part, (f slot part).size = part.size) {cells : Array Float32} (full : cells.size = count * stride)
    {slot : Nat} (inside : slot < count) :
    slotCells stride (mapSlots stride f cells) slot = f slot (slotCells stride cells slot) := by
  have lengths : ((List.range count).map fun slot => (f slot (slotCells stride cells slot)).toList).map List.length =
      List.replicate count stride := by
    refine List.eq_replicate_iff.2 ⟨by simp, fun length member => ?_⟩
    rw [List.map_map] at member
    obtain ⟨other, among, rfl⟩ := List.mem_map.1 member
    rw [Function.comp_apply, Array.length_toList, sizes, size_slotCells full (List.mem_range.1 among)]
  have piece := List.drop_take_succ_flatten_eq_getElem
    ((List.range count).map fun slot => (f slot (slotCells stride cells slot)).toList) slot (by simpa using inside)
  rw [← toList_mapSlots positive f full, lengths, List.take_replicate, List.take_replicate, List.sum_replicate_nat,
    List.sum_replicate_nat, Nat.min_eq_left inside.le, Nat.min_eq_left inside, List.getElem_map,
    List.getElem_range] at piece
  apply Array.ext'
  rw [slotCells, Array.toList_extract, List.extract_eq_take_drop, ← List.drop_take, ← Nat.succ_mul, ← piece]

/-! ## The index that an initialiser gets -/

namespace SparseWeights

variable {weights : SparseWeights} {hash width index : UInt64} {init : Initialiser}

/-- A new block starts every slot of zeros with the index of its first cell. -/
theorem slotCells_freshBlock (narrow : weights.layout.total < 64) (installed : weights.initialiser = some init)
    (within : weights.layout.Within hash width 0) (indexed : weights.layout.indexOf hash width 0 = .ok index) :
    slotCells (2 ^ weights.layout.strideShift.toNat) (weights.freshBlock hash) width.toNat =
      init.run index (Array.replicate (2 ^ weights.layout.strideShift.toNat) 0) := by
  have value := within.toNat_of_indexOf narrow indexed
  have span : 2 ^ weights.layout.total < 2 ^ 64 := Nat.pow_lt_pow_right (by decide) narrow
  have below := within.index_lt
  have blockFits := weights.layout.blockShift_le
  have strideFits := weights.layout.strideShift_le
  rw [UInt64.toNat_zero, Nat.add_zero] at below value
  have start : (hash <<< UInt64.ofNat weights.layout.blockShift) +
      (UInt64.ofNat width.toNat <<< UInt64.ofNat weights.layout.strideShift.toNat) = index := by
    rw [← UInt64.toNat_inj, UInt64.toNat_add, UInt64.ofNat_toNat, Word.toNat_shiftLeft (by omega) (by omega),
      Word.toNat_shiftLeft (by omega) (by omega), value, Nat.mod_eq_of_lt (by omega)]
  rw [freshBlock, installed, blockSize_eq, strideSize_eq, weights.layout.two_pow_blockShift]
  simp only
  rw [slotCells_mapSlots (Nat.two_pow_pos _) (fun _ part => init.size_run _ part) Array.size_replicate within.width_lt,
    slotCells_replicate within.width_lt, start]

end SparseWeights

namespace DenseWeights

variable {weights : DenseWeights} {memory : Memory} {array : DenseArray} {hash width index : UInt64}

theorem run_setDefault_slot (narrow : weights.layout.total ≤ 48)
    (found : memory.arrays[weights.address]? = some array) (full : array.cells.size = 2 ^ weights.layout.total)
    (within : weights.layout.Within hash width 0) (indexed : weights.layout.indexOf hash width 0 = .ok index)
    (init : Initialiser) :
    ∃ after changed, (weights.setDefault init).run memory = (.ok (), after) ∧
      after.arrays[weights.address]? = some changed ∧
      let slot := hash.toNat * 2 ^ weights.layout.widthBits.toNat + width.toNat
      slotCells (2 ^ weights.layout.strideShift.toNat) changed.cells slot =
        init.run index (slotCells (2 ^ weights.layout.strideShift.toNat) array.cells slot) := by
  have small : weights.layout.total < 64 := Nat.lt_of_le_of_lt narrow (by decide)
  have strideFits := Nat.le_trans weights.layout.strideShift_le weights.layout.blockShift_le
  have spread : (hash.toNat * 2 ^ weights.layout.widthBits.toNat + width.toNat) *
      2 ^ weights.layout.strideShift.toNat = index.toNat := by
    rw [within.toNat_of_indexOf small indexed, weights.layout.slot_mul, UInt64.toNat_zero, Nat.add_zero]
  have upTo : hash.toNat * 2 ^ weights.layout.widthBits.toNat + width.toNat ≤ index.toNat :=
    spread ▸ Nat.le_mul_of_pos_right _ (Nat.two_pow_pos _)
  have number := UInt64.toNat_ofNat_of_lt' (Nat.lt_of_le_of_lt upTo index.toNat_lt)
  have start : UInt64.ofNat (hash.toNat * 2 ^ weights.layout.widthBits.toNat + width.toNat) <<<
      UInt64.ofNat weights.layout.strideShift.toNat = index := by
    rw [← UInt64.toNat_inj, Word.toNat_shiftLeft (by omega) (by rw [number, spread]; exact index.toNat_lt), number,
      spread]
  have whole : array.cells.size =
      2 ^ weights.layout.hashBits.toNat * 2 ^ weights.layout.widthBits.toNat *
        2 ^ weights.layout.strideShift.toNat := by
    rw [full, weights.layout.two_pow_total, weights.layout.two_pow_blockShift, Nat.mul_assoc]
  rw [run_setDefault_eq weights narrow]
  refine ⟨_, { array with cells := mapSlots (2 ^ weights.layout.strideShift.toNat) (fun slot =>
    init.run (UInt64.ofNat slot <<< UInt64.ofNat weights.layout.strideShift.toNat)) array.cells },
    Memory.run_updateCells _, ?_, ?_⟩
  · rw [Array.getElem?_modify, if_pos rfl, found]
    rfl
  · simp only
    rw [slotCells_mapSlots (Nat.two_pow_pos _) (fun _ part => init.size_run _ part) whole within.slot_lt, start]

end DenseWeights

namespace Layout

/-- Three parts and an index below the length of the store stand for each other, both ways of putting an index together
agree, and an index is taken apart the same however often it went around. The index of the first cell of a slot is
what an initialiser gets for it, from a new block as from an array. -/
theorem indexOf_bijects (layout : Layout) (narrow : layout.total ≤ 48) :
    Set.BijOn (fun parts : UInt64 × UInt64 × UInt64 => layout.indexOf parts.1 parts.2.1 parts.2.2)
        {parts | layout.Within parts.1 parts.2.1 parts.2.2} (Except.ok '' {index | index ≤ layout.weightMask}) ∧
      (∀ hash width place, layout.Within hash width place → ∃ index,
        layout.indexOf hash width place = .ok index ∧
        (layout.jointOf hash width >>= fun joint => layout.stridedIndexOf joint place) = .ok index ∧
        ∀ turns : Nat, layout.split (UInt64.ofNat (index.toNat + turns * layout.rawLength.toNat)) =
          .ok (hash, (width.toNat <<< layout.strideShift.toNat) + place.toNat)) ∧
      ∀ hash width, layout.Within hash width 0 → ∃ index, layout.indexOf hash width 0 = .ok index ∧
        ∀ (init : Initialiser) (memory : Memory) (address : Nat),
          (∀ map, memory.maps[address]? = some map → map.find? hash = none → ∃ cells after,
            (SparseWeights.block ⟨layout, address, some init⟩ hash).run memory = (.ok cells, after) ∧
            slotCells (2 ^ layout.strideShift.toNat) cells width.toNat =
              init.run index (Array.replicate (2 ^ layout.strideShift.toNat) 0)) ∧
          ∀ array, memory.arrays[address]? = some array → array.cells.size = 2 ^ layout.total → ∃ after changed,
            (DenseWeights.setDefault ⟨layout, address⟩ init).run memory = (.ok (), after) ∧
            after.arrays[address]? = some changed ∧
            let slot := hash.toNat * 2 ^ layout.widthBits.toNat + width.toNat
            slotCells (2 ^ layout.strideShift.toNat) changed.cells slot =
              init.run index (slotCells (2 ^ layout.strideShift.toNat) array.cells slot) := by
  have small : layout.total < 64 := Nat.lt_of_le_of_lt narrow (by decide)
  refine ⟨indexOf_bijOn small, fun hash width place within => ?_, fun hash width within => ?_⟩
  · obtain ⟨index, indexed, value⟩ := within.exists_indexOf small
    obtain ⟨joint, other, joined, strided, same⟩ := within.exists_stridedIndexOf small
    obtain rfl : other = index := UInt64.toNat_inj.1 (same.trans value.symm)
    refine ⟨other, indexed, ?_, fun turns => ?_⟩
    · rw [joined]
      exact strided
    · rw [split_congr small (cell_wraps small other turns), within.split_eq small indexed, Nat.shiftLeft_eq]
  · obtain ⟨index, indexed, -⟩ := within.exists_indexOf small
    refine ⟨index, indexed, fun init memory address => ⟨fun map found absent => ?_, fun array found full => ?_⟩⟩
    · have room : SparseWeights.blockSize ⟨layout, address, some init⟩ < Memory.cellLimit := by
        rw [SparseWeights.blockSize_eq]
        exact Memory.two_pow_lt_cellLimit (Nat.lt_of_le_of_lt (Nat.le_trans layout.blockShift_le narrow) (by decide))
      exact ⟨_, _, SparseWeights.run_block_of_none found absent room,
        SparseWeights.slotCells_freshBlock small rfl within indexed⟩
    · exact DenseWeights.run_setDefault_slot narrow found full within indexed init

/-- Four bits of the hash, two of the sub-model and one of the place: slot 1 of block 3, and its index five turns later. -/
theorem indexOf_bijects_turns :
    let layout : Layout := ⟨4, 2, 1, by decide⟩
    layout.total ≤ 48 ∧ layout.Within 3 1 0 ∧ layout.indexOf 3 1 0 = .ok 26 ∧
      layout.split (UInt64.ofNat (26 + 5 * 128)) = .ok (3, 2) ∧
      ∃ cells after,
        (SparseWeights.block ⟨layout, 0, some (.ramp 1)⟩ 3).run ⟨#[], #[.empty], #[]⟩ = (.ok cells, after) ∧
        slotCells 2 cells 1 = (Initialiser.ramp 1).run 26 #[0, 0] := by
  intro layout
  have narrow : layout.total ≤ 48 := by decide
  have within : layout.Within 3 1 0 := ⟨by decide, by decide, by decide⟩
  obtain ⟨-, parts, starts⟩ := indexOf_bijects layout narrow
  obtain ⟨index, indexed, -, apart⟩ := parts 3 1 0 within
  obtain ⟨_, again, each⟩ := starts 3 1 within
  obtain rfl : 26 = index := Except.ok.inj indexed
  obtain rfl : 26 = _ := Except.ok.inj again
  exact ⟨narrow, within, indexed, apart 5, (each (.ramp 1) ⟨#[], #[.empty], #[]⟩ 0).1 .empty rfl
    (BlockMap.find?_empty 3)⟩

end Layout

end HashedFeatures
