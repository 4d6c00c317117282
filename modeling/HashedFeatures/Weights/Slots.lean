/-! Walking through an array of cells slot by slot. -/

set_option autoImplicit false

namespace HashedFeatures

structure Slot where
  index : Nat
  strideShift : Nat
  cells : Array Float32

namespace Slot

def indexWithoutStride (slot : Slot) : Nat := slot.index >>> slot.strideShift

def value (slot : Slot) : Float32 := slot.cells.getD 0 0

def isNonZero (slot : Slot) : Bool := slot.value != 0

end Slot

structure SlotCursor where
  cells : Array Float32
  strideShift : Nat
  position : Nat

namespace SlotCursor

inductive Move where
  | next
  | nextNonZero
  deriving DecidableEq, Repr

def start (cells : Array Float32) (strideShift : Nat) : SlotCursor :=
  { cells, strideShift, position := 0 }

def stride (cursor : SlotCursor) : Nat := 1 <<< cursor.strideShift

theorem stride_pos (cursor : SlotCursor) : 0 < cursor.stride := by
  rw [stride, Nat.one_shiftLeft]
  exact Nat.two_pow_pos _

/-- The slot at the position, and the cursor behind it. Where no whole slot is left, the cursor stays. -/
def next (cursor : SlotCursor) : Option Slot × SlotCursor :=
  let stop := cursor.position + cursor.stride
  if stop ≤ cursor.cells.size then
    (some ⟨cursor.position, cursor.strideShift, cursor.cells.extract cursor.position stop⟩,
      { cursor with position := stop })
  else (none, cursor)

theorem position_of_next {cursor after : SlotCursor} {slot : Slot}
    (moved : cursor.next = (some slot, after)) :
    cursor.position < after.position ∧ after.position ≤ after.cells.size ∧
      after.cells = cursor.cells := by
  have := cursor.stride_pos
  unfold next at moved
  grind

/-- The first slot from the position on whose value is not zero. The search passes over all slots that
it has seen, so that without such a slot the cursor is at the end. -/
def nextNonZero (cursor : SlotCursor) : Option Slot × SlotCursor :=
  match moved : cursor.next with
  | (none, after) => (none, after)
  | (some slot, after) =>
    have := position_of_next moved
    if slot.isNonZero then (some slot, after) else nextNonZero after
termination_by cursor.cells.size - cursor.position
decreasing_by grind

def move (cursor : SlotCursor) : Move → Option Slot × SlotCursor
  | .next => cursor.next
  | .nextNonZero => cursor.nextNonZero

def slotsBy (move : Move) : Nat → List Slot → SlotCursor → List Slot
  | 0, met, _ => met.reverse
  | fuel + 1, met, cursor =>
    match cursor.move move with
    | (none, _) => met.reverse
    | (some slot, after) => slotsBy move fuel (slot :: met) after

def toList (cursor : SlotCursor) (nonZero : Bool) : List Slot :=
  slotsBy (if nonZero then .nextNonZero else .next) (cursor.cells.size + 1) [] cursor

end SlotCursor

end HashedFeatures
