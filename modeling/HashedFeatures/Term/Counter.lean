import HashedFeatures.Term.Choice

/-! Selections with repetition, made by counting.

The positions of the chosen items are the digits of a counter. A turn brings the counter to a state in which its digits
can be read off, or finds that it has run over, which ends the count. Looking past the end of a list stops a turn, and
so does a selection that memory cannot hold.
-/

set_option autoImplicit false

namespace HashedFeatures.Choice

variable {α σ : Type}

inductive Turned (α σ : Type) where
  | ended
  | onward (next : σ)
  | made (selection : List α) (next : σ)

structure Progress (α σ : Type) where
  state : σ
  shelf : Shelf α

/-- Turn a counter to its end. A count that never ends has no outcome. -/
def Progress.turnAll (turn : σ → Except Fault (Turned α σ)) (progress : Progress α σ) :
    Option (Except Fault (List (List α))) :=
  match turn progress.state with
  | .error fault => some (.error fault)
  | .ok .ended => some (.ok progress.shelf.made)
  | .ok (.onward next) => Progress.mk next progress.shelf |>.turnAll turn
  | .ok (.made selection next) =>
    match progress.shelf.push selection with
    | .error fault => some (.error fault)
    | .ok shelf => Progress.mk next shelf |>.turnAll turn
partial_fixpoint

def itemAt (items : List α) (place : Nat) : Except Fault α :=
  match items[place]? with
  | some item => .ok item
  | none => .error .outOfBounds

def raise (digit : Nat) : Except Fault Nat :=
  if digit + 1 < wordSize then .ok (digit + 1) else .error .overflow

def gather (item : Footprint) (read : Nat → Except Fault α) (digits : List Nat) : Except Fault (List α) := do
  item.allocate digits.length
  digits.mapM read

/-! ## Combinations -/

/-- A digit above the largest one is carried: the digit behind it is raised, and all in front start anew from there. -/
def carryAt (largest : Nat) (digits : List Nat) (place : Nat) : Except Fault (List Nat) := do
  if largest < (← itemAt digits place) then
    let carried ← raise (← itemAt digits (place + 1))
    return List.replicate (place + 2) carried ++ digits.drop (place + 2)
  else return digits

/-- The digits stand from the lowest to the highest one. Behind them is a place for the carry of the highest. -/
def turnCounter (item : Footprint) (items : List α) (k : Nat) (digits : List Nat) :
    Except Fault (Turned α (List Nat)) := do
  let digits ← (List.range k).foldlM (carryAt (items.length - 1)) digits
  if 0 < (← itemAt digits k) then return .ended
  let selection ← gather item (itemAt items) (digits.take k)
  let lowest ← raise (← itemAt digits 0)
  return .made selection (digits.set 0 lowest)

/-! ## Permutations -/

/-- Digits that count from one, from the highest to the lowest, and the place of the one to be raised next. -/
structure Dial where
  digits : List Nat
  place : Nat

def dialled (items : List α) : Nat → Except Fault α
  | 0 => .error .overflow
  | position + 1 => itemAt items position

/-- A digit that stands at the end of the items leaves it to the digit in front of it; any other is raised, and all
behind it start anew. -/
def turnDial (item : Footprint) (items : List α) (k : Nat) (dial : Dial) : Except Fault (Turned α Dial) := do
  let digit ← itemAt dial.digits dial.place
  if digit = items.length then
    match dial.place with
    | 0 => return .ended
    | place + 1 => return .onward ⟨dial.digits, place⟩
  else
    let raised ← raise digit
    let digits := dial.digits.take dial.place ++ raised :: List.replicate (k - (dial.place + 1)) 1
    let selection ← gather item (dialled items) digits
    return .made selection ⟨digits, k - 1⟩

/-! ## Whole counts -/

structure Counted (α : Type) where
  /-- For how many selections there was room before the count. -/
  reserved : Nat
  selections : List (List α)

def reservationLimit : Nat := 21

def reservation (count : Option Nat) (n k : Nat) : Except Fault Nat :=
  if wordSize ≤ n + k then .error .overflow
  else .ok (if reservationLimit < n + k then 0 else count.getD 0)

def prepare (places : Nat) (room : Except Fault Nat) : Except Fault Nat := do
  let reserved ← room
  Footprint.vector.allocate reserved
  Footprint.word.allocate places
  return reserved

def count (turn : σ → Except Fault (Turned α σ)) (start : σ) (n k places : Nat) (room : Except Fault Nat) :
    Option (Except Fault (Counted α)) :=
  if k = 0 then some (.ok ⟨0, [[]]⟩)
  else if n = 0 then some (.ok ⟨0, []⟩)
  else
    match prepare places room with
    | .error fault => some (.error fault)
    | .ok reserved => (Progress.mk start ⟨reserved, []⟩ |>.turnAll turn).map (Except.map (Counted.mk reserved))

def countCombinations (item : Footprint) (k : Nat) (items : List α) : Option (Except Fault (Counted α)) :=
  count (turnCounter item items k) (List.replicate (k + 1) 0) items.length k (k + 1) do
    reservation (← combinationCount items.length k) items.length k

def countPermutations (item : Footprint) (k : Nat) (items : List α) : Option (Except Fault (Counted α)) :=
  count (turnDial item items k) ⟨(List.replicate k 1).set (k - 1) 0, k - 1⟩ items.length k k
    (reservation (permutationCount items.length k) items.length k)

end HashedFeatures.Choice
