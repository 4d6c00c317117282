/-! Merging two lists by a relation.

Items are taken from the fronts of the lists or from their ends. Where the relation is an order, both
ways give one result; elsewhere they may differ, and a merge from both ends at once can notice it.
-/

set_option autoImplicit false

namespace HashedFeatures.Arrangement

variable {α : Type}

/-- A merge under way: what was taken, the last item first, and what is left of two lists. -/
structure Merging (α : Type) where
  taken : List α
  left : List α
  right : List α

namespace Merging

variable (less : α → α → Bool)

def start (left right : List α) : Merging α := ⟨[], left, right⟩

def takeLeast : Nat → Merging α → Merging α
  | count + 1, ⟨taken, l :: left, r :: right⟩ =>
    if less r l then takeLeast count ⟨r :: taken, l :: left, right⟩
    else takeLeast count ⟨l :: taken, left, r :: right⟩
  | _, merging => merging

def takeGreatest : Nat → Merging α → Merging α
  | count + 1, ⟨taken, l :: left, r :: right⟩ =>
    if less r l then takeGreatest count ⟨l :: taken, left, r :: right⟩
    else takeGreatest count ⟨r :: taken, l :: left, right⟩
  | _, merging => merging

end Merging

variable (less : α → α → Bool)

def mergeUp (left right : List α) : List α :=
  let merging := (Merging.start left right).takeLeast less (left.length + right.length)
  merging.taken.reverse ++ merging.left ++ merging.right

def mergeDown (left right : List α) : List α :=
  let merging := (Merging.start left.reverse right.reverse).takeGreatest less (left.length + right.length)
  merging.left.reverse ++ merging.right.reverse ++ merging.taken

def merge (left right : List α) : List α :=
  if left.length ≤ right.length then mergeUp less left right else mergeDown less left right

/-- Merge the two halves of a list from both ends; the ends must not take the same items. -/
def mergeHalves (items : List α) : Option (List α) :=
  let half := items.length / 2
  let left := items.take half
  let right := items.drop half
  let front := (Merging.start left right).takeLeast less half
  let back := (Merging.start left.reverse right.reverse).takeGreatest less half
  let leftApart := front.left.length + back.left.length
  let rightApart := front.right.length + back.right.length
  if left.length ≤ leftApart ∧ right.length ≤ rightApart then
    some (front.taken.reverse ++ front.left.take (leftApart - left.length) ++
      front.right.take (rightApart - right.length) ++ back.taken)
  else none

end HashedFeatures.Arrangement
