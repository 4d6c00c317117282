/-! Bringing items into an order by exchanges.

An order lists, for every place, the place that its item comes from. Its cycles are walked from their
least places; each step exchanges two items.
-/

set_option autoImplicit false

namespace HashedFeatures.Arrangement

variable {α : Type}

def pick (order : List Nat) (items : List α) : List α :=
  let items := items.toArray
  order.filterMap (items[·]?)

/-- The places that follow `current` on its way back to `start`, behind those met so far. -/
def follow (order : Array Nat) (start : Nat) : Nat → Nat → List Nat → List Nat
  | 0, _, met => met.reverse
  | fuel + 1, current, met =>
    let next := order.getD current start
    if next = start then met.reverse else follow order start fuel next (next :: met)

structure Walk where
  cycles : List (List (Nat × Nat))
  met : Array Bool

def Walk.from (order : Array Nat) (walk : Walk) (start : Nat) : Walk :=
  if walk.met.getD start true then walk
  else
    let others := follow order start order.size start []
    { cycles := (start :: others).zip others :: walk.cycles
      met := others.foldl (fun met place => met.setIfInBounds place true) walk.met }

def exchanges (order : List Nat) : List (Nat × Nat) :=
  let places := order.toArray
  let walk := (List.range places.size).foldl (Walk.from places) ⟨[], Array.replicate places.size false⟩
  walk.cycles.reverse.flatten

/-- Exchange items pair by pair until a place is missing; the pairs from there on are left. -/
def exchangeAll : List (Nat × Nat) → Array α → Array α × List (Nat × Nat)
  | [], items => (items, [])
  | (i, j) :: rest, items =>
    if i < items.size ∧ j < items.size then exchangeAll rest (items.swapIfInBounds i j)
    else (items, (i, j) :: rest)

end HashedFeatures.Arrangement
