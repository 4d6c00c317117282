import HashedFeatures.Fault

/-! Vectors of selections, and the memory they take.

A vector takes at most half of the address space. One that is full moves to another of twice the room. Memory that can
be addressed is taken to be there.
-/

set_option autoImplicit false

namespace HashedFeatures.Choice

structure Footprint where
  bytes : Nat
  alignment : Nat

namespace Footprint

def byte : Footprint := ⟨1, 1⟩

def word : Footprint := ⟨8, 8⟩

/-- A vector among the entries of another one: an address, a room and a length. -/
def vector : Footprint := ⟨24, 8⟩

def Fits (entry : Footprint) (count : Nat) : Prop := count * entry.bytes + entry.alignment ≤ 1 <<< 63

instance (entry : Footprint) (count : Nat) : Decidable (entry.Fits count) := inferInstanceAs (Decidable (_ ≤ _))

def allocate (entry : Footprint) (count : Nat) : Except Fault Unit :=
  if entry.Fits count then .ok () else .error .unaddressable

end Footprint

variable {α : Type}

structure Shelf (α : Type) where
  room : Nat
  made : List (List α)

/-- A full shelf moves to one of twice the room, and of four at least. -/
def Shelf.push (shelf : Shelf α) (selection : List α) : Except Fault (Shelf α) :=
  if shelf.made.length < shelf.room then .ok ⟨shelf.room, shelf.made ++ [selection]⟩
  else do
    let room := max (max (2 * shelf.room) (shelf.made.length + 1)) 4
    Footprint.vector.allocate room
    return ⟨room, shelf.made ++ [selection]⟩

/-- The largest room that doubling from four arrives at. -/
def roomLimit : Nat := 1 <<< 58

/-- Selections for which there is no room from the start must stay within the largest one. -/
def shelved (selections : List (List α)) : Except Fault (List (List α)) :=
  if selections.length ≤ roomLimit then .ok selections else .error .unaddressable

end HashedFeatures.Choice
