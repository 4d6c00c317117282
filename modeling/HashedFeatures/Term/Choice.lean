import HashedFeatures.Term.Room

/-! Selections of `k` items with repetition, and how many there are. -/

set_option autoImplicit false

namespace HashedFeatures.Choice

variable {α : Type}

def suffixes : List α → List (α × List α)
  | [] => []
  | item :: rest => (item, item :: rest) :: suffixes rest

def ascending : Nat → List α → List (List α)
  | 0, _ => [[]]
  | k + 1, items => (suffixes items).flatMap fun (item, onward) => (ascending k onward).map (item :: ·)

/-- Every unordered selection once, written against the order of the items. -/
def combinations (k : Nat) (items : List α) : List (List α) :=
  (ascending k items).map List.reverse

def permutations : Nat → List α → List (List α)
  | 0, _ => [[]]
  | k + 1, items => items.flatMap fun item => (permutations k items).map (item :: ·)

/-- The selections of two items: all ordered pairs, or only those in the order of the items. -/
def pairs (ordered : Bool) (items : List α) : List (List α) :=
  if ordered then permutations 2 items else ascending 2 items

def wordSize : Nat := UInt64.size

/-- Whether `k` of `n` items can be counted on some places, and one selection kept; without items or for nothing no
places are needed. -/
def addressable (item : Footprint) (n k places : Nat) : Except Fault Unit :=
  if k = 0 ∨ n = 0 then .ok ()
  else if wordSize ≤ n + k then .error .overflow
  else do
    Footprint.word.allocate places
    item.allocate k

/-- The combinations, counted on one place more than they have items, if memory can hold them. -/
def combinationsOf? (item : Footprint) (k : Nat) (items : List α) : Except Fault (List (List α)) := do
  addressable item items.length k (k + 1)
  shelved (combinations k items)

def permutationsOf? (item : Footprint) (k : Nat) (items : List α) : Except Fault (List (List α)) := do
  addressable item items.length k k
  shelved (permutations k items)

def combinations? (k : Nat) (items : List α) : Except Fault (List (List α)) := combinationsOf? .word k items

def permutations? (k : Nat) (items : List α) : Except Fault (List (List α)) := permutationsOf? .word k items

def factorial : Nat → Nat
  | 0 => 1
  | n + 1 => (n + 1) * factorial n

def factorial? (n : Nat) : Option Nat :=
  if n ≤ 20 then some (factorial n) else none

def combinationCount (n k : Nat) : Except Fault (Option Nat) :=
  if n = 0 then .ok (some (if k = 0 then 1 else 0))
  else if wordSize ≤ n + k then .error .overflow
  else .ok do
    let top ← factorial? (n + k - 1)
    let left ← factorial? k
    let right ← factorial? (n - 1)
    guard (left * right < wordSize)
    some (top / (left * right))

def permutationCount (n k : Nat) : Option Nat := do
  guard (k < UInt32.size)
  guard (n ≤ 1 ∨ k < 64)
  let count := Nat.pow n k
  guard (count < wordSize)
  some count

end HashedFeatures.Choice
