import HashedFeatures.Proofs.Binary32.Order
import HashedFeatures.Proofs.Weights.Indexing

/-! A walk over dense weights, slot by slot.

A cursor is seen as the list of the slots ahead of it. Each move takes a first part of that list away: up to the
first slot that it wants, or all of it. In whatever order the moves come, a slot is passed over only by a search that
does not want it. The slots ahead of a new cursor tile the cells.
-/

set_option autoImplicit false

namespace HashedFeatures

namespace Slot

/-- The value is a zero of either sign. A NaN is none. -/
def Vanishes (slot : Slot) : Prop := slot.value.toBits = 0 ∨ slot.value.toBits = 0x80000000

instance (slot : Slot) : Decidable slot.Vanishes := inferInstanceAs (Decidable (_ ∨ _))

theorem isNonZero_iff (slot : Slot) : slot.isNonZero = true ↔ ¬slot.Vanishes := by
  rw [isNonZero, bne, Bool.not_eq_true', ← Bool.not_eq_true, Binary32.beq_zero_iff]
  rfl

end Slot

namespace SlotCursor

/-! ## Slots ahead of a cursor -/

def slotFrom (cursor : SlotCursor) (index : Nat) : Slot :=
  ⟨index, cursor.strideShift, cursor.cells.extract index (index + cursor.stride)⟩

def ahead (cursor : SlotCursor) : List Slot :=
  (List.range ((cursor.cells.size - cursor.position) / cursor.stride)).map fun number =>
    cursor.slotFrom (cursor.position + number * cursor.stride)

theorem ahead_of_next {cursor after : SlotCursor} {slot : Slot} (moved : cursor.next = (some slot, after)) :
    cursor.ahead = slot :: after.ahead := by
  simp only [next] at moved
  split at moved
  case isFalse => cases moved
  case isTrue room =>
    cases moved
    have count : (cursor.cells.size - cursor.position) / cursor.stride =
        (cursor.cells.size - (cursor.position + cursor.stride)) / cursor.stride + 1 := by
      rw [Nat.sub_add_eq, Nat.div_eq_sub_div cursor.stride_pos (by omega)]
    have start (number : Nat) : cursor.position + (number + 1) * cursor.stride =
        cursor.position + cursor.stride + number * cursor.stride := by
      rw [Nat.succ_mul, ← Nat.add_assoc, Nat.add_right_comm]
    rw [ahead, count, List.range_succ_eq_map, List.map_cons, List.map_map, Nat.zero_mul, Nat.add_zero]
    refine congrArg _ (List.map_congr_left fun number _ => ?_)
    rw [Function.comp_apply, start]
    rfl

theorem ahead_of_next_none {cursor after : SlotCursor} (stayed : cursor.next = (none, after)) :
    after = cursor ∧ cursor.ahead = [] := by
  simp only [next] at stayed
  split at stayed
  case isTrue => cases stayed
  case isFalse full =>
    cases stayed
    have positive := cursor.stride_pos
    refine ⟨rfl, ?_⟩
    rw [ahead, Nat.div_eq_of_lt (by omega)]
    rfl

/-! ## Moves -/

/-- The slots that a move stops at: a step at every slot, a search at those with a value. -/
def Move.Wants : Move → Slot → Prop
  | .next, _ => True
  | .nextNonZero, slot => ¬slot.Vanishes

instance (move : Move) (slot : Slot) : Decidable (move.Wants slot) :=
  match move with
  | .next => inferInstanceAs (Decidable True)
  | .nextNonZero => inferInstanceAs (Decidable ¬slot.Vanishes)

/-- A move over the slots ahead: its answer, and the slots that it leaves ahead. It finds the first slot that it wants
and goes no further, or it finds none and goes to the end. -/
inductive Passes (move : Move) : List Slot → Option Slot → List Slot → Prop where
  | found {passed left : List Slot} {slot : Slot} : (∀ other ∈ passed, ¬move.Wants other) → move.Wants slot →
      Passes move (passed ++ slot :: left) (some slot) left
  | ended {slots : List Slot} : (∀ other ∈ slots, ¬move.Wants other) → Passes move slots none []

inductive Course : List Slot → List Move → List (Option Slot) → List Slot → Prop where
  | done {slots : List Slot} : Course slots [] [] slots
  | move {slots left rest : List Slot} {move : Move} {answer : Option Slot} {moves : List Move}
      {answers : List (Option Slot)} : Passes move slots answer left → Course left moves answers rest →
      Course slots (move :: moves) (answer :: answers) rest

def answers : SlotCursor → List Move → List (Option Slot)
  | _, [] => []
  | cursor, move :: moves => (cursor.move move).1 :: answers (cursor.move move).2 moves

def after (cursor : SlotCursor) (moves : List Move) : SlotCursor :=
  moves.foldl (fun cursor move => (cursor.move move).2) cursor

namespace Passes

variable {move : Move} {slots left : List Slot} {answer : Option Slot}

theorem head {slot : Slot} (wanted : move.Wants slot) : Passes move (slot :: left) (some slot) left :=
  @found move [] left slot nofun wanted

theorem cons {slot : Slot} (unwanted : ¬move.Wants slot) (passes : Passes move slots answer left) :
    Passes move (slot :: slots) answer left := by
  cases passes with
  | @found passed left other before wanted =>
    exact @found move (slot :: passed) left other (List.forall_mem_cons.2 ⟨unwanted, before⟩) wanted
  | ended none => exact .ended (List.forall_mem_cons.2 ⟨unwanted, none⟩)

theorem subset (passes : Passes move slots answer left) : left ⊆ slots := by
  cases passes with
  | found => exact fun slot member => List.mem_append_right _ (List.mem_cons_of_mem _ member)
  | ended => exact List.nil_subset _

theorem answer_eq_none (unwanted : ∀ slot ∈ slots, ¬move.Wants slot) (passes : Passes move slots answer left) :
    answer = none := by
  cases passes with
  | found _ wanted => exact absurd wanted (unwanted _ (List.mem_append_right _ List.mem_cons_self))
  | ended => rfl

theorem left_eq_nil (passes : Passes move slots none left) : left = [] := by
  cases passes
  rfl

theorem length_lt {slot : Slot} (passes : Passes move slots (some slot) left) : left.length < slots.length := by
  cases passes
  rw [List.length_append, List.length_cons]
  omega

/-- The wanted slots are the answer and those that are left. -/
theorem filter_wants (passes : Passes move slots answer left) :
    slots.filter (move.Wants ·) = answer.toList ++ left.filter (move.Wants ·) := by
  cases passes with
  | found before wanted =>
    rw [List.filter_append, List.filter_eq_nil_iff.2 (by simpa using before), List.nil_append,
      List.filter_cons_of_pos (by simpa using wanted)]
    rfl
  | ended none => exact List.filter_eq_nil_iff.2 (by simpa using none)

-- A step wants whatever is first, so that it can pass over nothing.
theorem of_next (passes : Passes .next slots answer left) : answer = slots.head? ∧ left = slots.tail := by
  cases passes with
  | @found passed _ _ before =>
    cases passed with
    | nil => exact ⟨rfl, rfl⟩
    | cons first => exact absurd trivial (before first List.mem_cons_self)
  | ended none =>
    cases slots with
    | nil => exact ⟨rfl, rfl⟩
    | cons first => exact absurd trivial (none first List.mem_cons_self)

end Passes

theorem passes_next (cursor : SlotCursor) : Passes .next cursor.ahead cursor.next.1 cursor.next.2.ahead := by
  rcases moved : cursor.next with ⟨_ | slot, after⟩
  · obtain ⟨rfl, slots⟩ := ahead_of_next_none moved
    rw [slots]
    exact .ended nofun
  · rw [ahead_of_next moved]
    exact .head trivial

-- The search is a run of steps, and each step that it does not end with passes over one slot more.
theorem passes_nextNonZero (cursor : SlotCursor) :
    Passes .nextNonZero cursor.ahead cursor.nextNonZero.1 cursor.nextNonZero.2.ahead := by
  fun_induction nextNonZero cursor with
  | case1 cursor after moved =>
    obtain ⟨rfl, slots⟩ := ahead_of_next_none moved
    rw [slots]
    exact .ended nofun
  | case2 cursor slot after moved _ present =>
    rw [ahead_of_next moved]
    exact .head (slot.isNonZero_iff.1 present)
  | case3 cursor slot after moved _ absent ih =>
    rw [ahead_of_next moved]
    exact ih.cons fun wanted => absent (slot.isNonZero_iff.2 wanted)

theorem passes_move (cursor : SlotCursor) (move : Move) :
    Passes move cursor.ahead (cursor.move move).1 (cursor.move move).2.ahead := by
  cases move with
  | next => exact cursor.passes_next
  | nextNonZero => exact cursor.passes_nextNonZero

/-! ## Runs of moves -/

theorem course_answers (cursor : SlotCursor) (moves : List Move) :
    Course cursor.ahead moves (cursor.answers moves) (cursor.after moves).ahead := by
  induction moves generalizing cursor with
  | nil => exact .done
  | cons move moves ih => exact .move (cursor.passes_move move) (ih _)

namespace Course

variable {slots left : List Slot} {moves : List Move} {answers : List (Option Slot)}

/-- Once no slot that a move wants is ahead, the move finds none for ever. -/
theorem answer_eq_none {move : Move} (course : Course slots moves answers left)
    (unwanted : ∀ slot ∈ slots, ¬move.Wants slot) {n : Nat} (moved : moves[n]? = some move) :
    answers[n]? = some none := by
  induction course generalizing n with
  | done => cases moved
  | move passes _ ih =>
    cases n with
    | zero =>
      cases moved
      exact congrArg some (passes.answer_eq_none unwanted)
    | succ n => exact ih (fun slot member => unwanted slot (passes.subset member)) moved

theorem of_steps {calls : Nat} (course : Course slots (List.replicate calls .next) answers left) :
    answers = ((List.range calls).map fun n => slots[n]?) ∧ left = slots.drop calls := by
  induction calls generalizing slots answers with
  | zero =>
    cases course
    exact ⟨rfl, rfl⟩
  | succ calls ih =>
    rw [List.replicate_succ] at course
    cases course with
    | move passes course =>
      obtain ⟨rfl, rfl⟩ := passes.of_next
      obtain ⟨rfl, rfl⟩ := ih course
      rw [List.range_succ_eq_map, List.map_cons, List.map_map, List.head?_eq_getElem?, List.drop_tail]
      simp only [List.getElem?_tail, Function.comp_def, and_self]

end Course

/-! ## The whole walk -/

theorem slotsBy_of_none {move : Move} {cursor after : SlotCursor} (moved : cursor.move move = (none, after))
    (fuel : Nat) (met : List Slot) : slotsBy move (fuel + 1) met cursor = met.reverse := by
  rw [slotsBy, moved]

theorem slotsBy_of_some {move : Move} {cursor after : SlotCursor} {slot : Slot}
    (moved : cursor.move move = (some slot, after)) (fuel : Nat) (met : List Slot) :
    slotsBy move (fuel + 1) met cursor = slotsBy move fuel (slot :: met) after := by
  rw [slotsBy, moved]

theorem slotsBy_eq (move : Move) {fuel : Nat} (met : List Slot) (cursor : SlotCursor)
    (enough : cursor.ahead.length < fuel) :
    slotsBy move fuel met cursor = met.reverse ++ cursor.ahead.filter (move.Wants ·) := by
  induction fuel generalizing met cursor with
  | zero => omega
  | succ fuel ih =>
    have passes := cursor.passes_move move
    rw [passes.filter_wants]
    rcases moved : cursor.move move with ⟨_ | slot, after⟩
    · rw [moved] at passes
      simp [slotsBy_of_none moved, passes.left_eq_nil]
    · rw [moved] at passes
      have shorter : after.ahead.length < cursor.ahead.length := passes.length_lt
      rw [slotsBy_of_some moved, ih _ _ (by omega), List.reverse_cons, List.append_assoc]
      rfl

theorem length_ahead_le (cursor : SlotCursor) : cursor.ahead.length ≤ cursor.cells.size := by
  rw [ahead, List.length_map, List.length_range]
  exact Nat.le_trans (Nat.div_le_self _ _) (Nat.sub_le _ _)

theorem toList_eq (cursor : SlotCursor) (nonZero : Bool) :
    cursor.toList nonZero = if nonZero then cursor.ahead.filter (¬·.Vanishes) else cursor.ahead := by
  rw [toList, slotsBy_eq _ _ _ (Nat.lt_succ_of_le cursor.length_ahead_le)]
  cases nonZero with
  | true => rfl
  | false => exact List.filter_true _

/-! ## From the start on -/

def slotOf (cells : Array Float32) (strideShift number : Nat) : Slot :=
  (start cells strideShift).slotFrom (number * 2 ^ strideShift)

theorem ahead_start (cells : Array Float32) (strideShift : Nat) : (start cells strideShift).ahead =
    (List.range (cells.size / 2 ^ strideShift)).map (slotOf cells strideShift) := by
  have stride : (start cells strideShift).stride = 2 ^ strideShift := Nat.one_shiftLeft _
  rw [ahead, stride]
  exact List.map_congr_left fun number _ => congrArg _ (Nat.zero_add _)

theorem indexWithoutStride_slotOf (cells : Array Float32) (strideShift number : Nat) :
    (slotOf cells strideShift number).indexWithoutStride = number :=
  (Nat.shiftRight_eq_div_pow _ _).trans (Nat.mul_div_cancel _ (Nat.two_pow_pos _))

theorem cells_slotOf (cells : Array Float32) (strideShift number : Nat) :
    (slotOf cells strideShift number).cells = slotCells (2 ^ strideShift) cells number := by
  rw [slotOf, slotFrom, stride, start, Nat.one_shiftLeft, slotCells]

theorem getElem?_ahead_start {cells : Array Float32} {strideShift number : Nat} {slot : Slot} :
    (start cells strideShift).ahead[number]? = some slot ↔
      number < cells.size / 2 ^ strideShift ∧ slotOf cells strideShift number = slot := by
  rw [ahead_start, List.getElem?_map, Option.map_eq_some_iff]
  constructor
  · rintro ⟨_, found, same⟩
    obtain ⟨inside, rfl⟩ := List.getElem?_eq_some_iff.1 found
    rw [List.length_range] at inside
    rw [List.getElem_range] at same
    exact ⟨inside, same⟩
  · rintro ⟨inside, same⟩
    exact ⟨number, List.getElem?_range inside, same⟩

end SlotCursor

/-! ## Tiles -/

theorem flatMap_slotCells (stride count : Nat) (cells : Array Float32) :
    ((List.range count).flatMap fun slot => (slotCells stride cells slot).toList) =
      cells.toList.take (count * stride) := by
  induction count with
  | zero => simp
  | succ count ih =>
    rw [List.range_succ, List.flatMap_append, ih, Nat.succ_mul, List.take_add, List.flatMap_singleton, slotCells,
      Array.toList_extract, List.extract_eq_take_drop, Nat.add_sub_cancel_left]

namespace DenseWeights

variable {weights : DenseWeights} {memory : Memory} {flat : Flat weights.layout}

/-- Slots that have every cell of the weights once and in order, as it is read. -/
structure Tiled (weights : DenseWeights) (memory : Memory) (flat : Flat weights.layout) (slots : List Slot) : Prop where
  length_eq : slots.length = 2 ^ (weights.layout.total - weights.layout.strideShift.toNat)
  index_eq {number : Nat} {slot : Slot} : slots[number]? = some slot →
    slot.index = number * 2 ^ weights.layout.strideShift.toNat
  indexWithoutStride_eq {number : Nat} {slot : Slot} : slots[number]? = some slot → slot.indexWithoutStride = number
  size_eq {slot : Slot} : slot ∈ slots → slot.cells.size = 2 ^ weights.layout.strideShift.toNat
  head_eq {slot : Slot} : slot ∈ slots → slot.cells[0]? = some slot.value
  run_get {slot : Slot} {place : Nat} {cell : Float32} : slot ∈ slots → slot.cells[place]? = some cell →
    (weights.get (UInt64.ofNat (slot.index + place))).run memory = (.ok cell, memory)
  flatMap_eq : (slots.flatMap fun slot => slot.cells.toList) = List.ofFn flat

theorem Holds.run_cursor (holds : weights.Holds memory flat) :
    weights.cursor.run memory = (.ok (.start (Array.ofFn flat) weights.layout.strideShift.toNat), memory) := by
  rw [cursor, Attempt.run_bind_ok holds.run_cells, Attempt.run_pure]

theorem Holds.run_get_of_getElem? (holds : weights.Holds memory flat) (narrow : weights.layout.total < 64) {i : Nat}
    {cell : Float32} (found : (Array.ofFn flat)[i]? = some cell) :
    (weights.get (UInt64.ofNat i)).run memory = (.ok cell, memory) := by
  obtain ⟨inside, rfl⟩ := Array.getElem?_eq_some_iff.1 found
  rw [Array.size_ofFn] at inside
  rw [holds.run_get, Flat.read, Layout.cell_ofNat narrow inside, Array.getElem_ofFn]

theorem Holds.tiled (holds : weights.Holds memory flat) (narrow : weights.layout.total < 64) :
    weights.Tiled memory flat (SlotCursor.start (Array.ofFn flat) weights.layout.strideShift.toNat).ahead := by
  have whole : (Array.ofFn flat).size = 2 ^ (weights.layout.total - weights.layout.strideShift.toNat) *
      2 ^ weights.layout.strideShift.toNat := by
    rw [Array.size_ofFn, weights.layout.two_pow_total_eq_slots]
  have count : (Array.ofFn flat).size / 2 ^ weights.layout.strideShift.toNat =
      2 ^ (weights.layout.total - weights.layout.strideShift.toNat) := by
    rw [whole, Nat.mul_div_cancel _ (Nat.two_pow_pos _)]
  generalize slotsAre : (SlotCursor.start (Array.ofFn flat) weights.layout.strideShift.toNat).ahead = slots
  have numbered {number : Nat} {slot : Slot} (found : slots[number]? = some slot) :
      number < 2 ^ (weights.layout.total - weights.layout.strideShift.toNat) ∧
        SlotCursor.slotOf (Array.ofFn flat) weights.layout.strideShift.toNat number = slot := by
    rw [← count, ← SlotCursor.getElem?_ahead_start, slotsAre, found]
  have sized {slot : Slot} (member : slot ∈ slots) : slot.cells.size = 2 ^ weights.layout.strideShift.toNat := by
    obtain ⟨number, found⟩ := List.mem_iff_getElem?.1 member
    obtain ⟨inside, rfl⟩ := numbered found
    rw [SlotCursor.cells_slotOf, size_slotCells whole inside]
  constructor
  case length_eq => rw [← slotsAre, SlotCursor.ahead_start, List.length_map, List.length_range, count]
  case index_eq =>
    intro number slot found
    obtain ⟨-, rfl⟩ := numbered found
    rfl
  case indexWithoutStride_eq =>
    intro number slot found
    obtain ⟨-, rfl⟩ := numbered found
    exact SlotCursor.indexWithoutStride_slotOf _ _ _
  case size_eq => exact sized
  case head_eq =>
    intro slot member
    have present : 0 < slot.cells.size := sized member ▸ Nat.two_pow_pos _
    rw [Slot.value, Array.getD_eq_getD_getElem?, Array.getElem?_eq_getElem present]
    rfl
  case run_get =>
    intro slot place cell member read
    obtain ⟨number, found⟩ := List.mem_iff_getElem?.1 member
    obtain ⟨-, rfl⟩ := numbered found
    rw [SlotCursor.cells_slotOf, slotCells, Array.getElem?_extract] at read
    split at read
    case isTrue => exact holds.run_get_of_getElem? narrow read
    case isFalse => cases read
  case flatMap_eq =>
    rw [← slotsAre, SlotCursor.ahead_start, List.flatMap_map, count]
    simp only [SlotCursor.cells_slotOf]
    rw [flatMap_slotCells, ← whole, Array.toList_ofFn, List.take_of_length_le (by simp)]

theorem Holds.run_slots (holds : weights.Holds memory flat) (narrow : weights.layout.total < 64) (nonZero : Bool) :
    (weights.slots nonZero).run memory =
      (.ok ((SlotCursor.start (Array.ofFn flat) weights.layout.strideShift.toNat).toList nonZero), memory) := by
  obtain ⟨stride, computed, -⟩ := Layout.stride_eq narrow
  rw [slots, computed, Attempt.run_bind_ok (Attempt.run_lift (.ok stride) memory),
    Attempt.run_bind_ok holds.run_cursor, Attempt.run_pure]

/-- The slots ahead of a new cursor tile the cells. Steps answer them one by one and then nothing, and the listing has
all of them. Among moves in any order, each search answers the first slot ahead that does not vanish, and goes no
further. Once all slots ahead vanish, no search answers a slot any more, and once none is ahead, no step does. -/
theorem cursor_walks_slots (weights : DenseWeights) (memory : Memory) (flat : Flat weights.layout)
    (holds : weights.Holds memory flat) (narrow : weights.layout.total ≤ 48) :
    ∃ cursor, weights.cursor.run memory = (.ok cursor, memory) ∧ weights.Tiled memory flat cursor.ahead ∧
      (∀ calls, cursor.answers (List.replicate calls .next) = (List.range calls).map fun n => cursor.ahead[n]?) ∧
      (∀ moves, SlotCursor.Course cursor.ahead moves (cursor.answers moves) (cursor.after moves).ahead ∧
        ∀ move : SlotCursor.Move, (∀ slot ∈ (cursor.after moves).ahead, ¬move.Wants slot) →
          ∀ (later : List SlotCursor.Move) (n : Nat), later[n]? = some move →
            ((cursor.after moves).answers later)[n]? = some none) ∧
      ∀ nonZero, (weights.slots nonZero).run memory =
        (.ok (if nonZero then cursor.ahead.filter (¬·.Vanishes) else cursor.ahead), memory) := by
  have small : weights.layout.total < 64 := Nat.lt_of_le_of_lt narrow (by decide)
  refine ⟨_, holds.run_cursor, holds.tiled small, fun calls => ?_, fun moves => ⟨?_, ?_⟩, fun nonZero => ?_⟩
  · exact (SlotCursor.course_answers _ _).of_steps.1
  · exact SlotCursor.course_answers _ moves
  · intro move unwanted later n moved
    exact (SlotCursor.course_answers _ later).answer_eq_none unwanted moved
  · rw [holds.run_slots small, SlotCursor.toList_eq]

/-- Four slots that start with zero, minus zero, a NaN and three. -/
theorem cursor_walks_slots_four :
    let weights : DenseWeights := ⟨⟨2, 0, 1, by decide⟩, 0⟩
    let cells : List Float32 := [0, 7, -0.0, 1, 0 / 0, 2, 3, 0]
    let flat : Flat weights.layout := fun i => cells.get i
    let memory : Memory := ⟨#[⟨Array.ofFn flat, false⟩], #[], #[]⟩
    weights.Holds memory flat ∧ weights.layout.total ≤ 48 ∧
      ∃ cursor : SlotCursor, weights.cursor.run memory = (.ok cursor, memory) ∧
        (cursor.ahead.flatMap fun slot => slot.cells.toList) = cells ∧
        cursor.answers (List.replicate 6 .next) = cursor.ahead.map some ++ [none, none] ∧
        (cursor.answers [.nextNonZero, .nextNonZero, .nextNonZero, .next]).map (Option.map Slot.index) =
          [some 4, some 6, none, none] ∧
        (cursor.after (List.replicate 4 .next)).answers [.nextNonZero] = [none] := by
  intro weights cells flat memory
  have holds : weights.Holds memory flat := ⟨_, rfl, rfl⟩
  have narrow : weights.layout.total ≤ 48 := by decide
  obtain ⟨cursor, run, tiled, steps, courses, -⟩ := cursor_walks_slots weights memory flat holds narrow
  refine ⟨holds, narrow, cursor, run, tiled.flatMap_eq, ?_, ?_, ?_⟩
  · rw [steps]
    match cursor.ahead, tiled.length_eq with
    | [_, _, _, _], _ => rfl
  · cases run
    decide +kernel
  · obtain ⟨course, unwanted⟩ := courses (List.replicate 4 .next)
    have ended : (cursor.after (List.replicate 4 .next)).ahead = [] :=
      course.of_steps.2.trans (List.drop_of_length_le tiled.length_eq.le)
    have answer := unwanted .nextNonZero (ended ▸ nofun) [.nextNonZero] 0 rfl
    exact congrArg ([·]) (Option.some.inj answer)

end DenseWeights

end HashedFeatures
