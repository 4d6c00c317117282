import HashedFeatures.Arrangement.Exchange
import HashedFeatures.Arrangement.Order
import HashedFeatures.Group.Basic

/-! Sorting a group by masked index and then by value.

The order is found first, as a list of places. With a label for every feature both are put into it at
once. With fewer labels they are moved by exchanges, up to the first one that misses a label.
-/

set_option autoImplicit false

namespace HashedFeatures

namespace Feature

/-- The strict order of a sorted group; values that do not compare count as equal. -/
def before (mask : UInt64) (left right : Feature) : Bool :=
  let l := left.index &&& mask
  let r := right.index &&& mask
  l < r || (l == r && left.value < right.value)

end Feature

namespace Group

def isComparable (group : Group) : Bool :=
  group.features.all fun f => !f.value.isNaN

def order (group : Group) (mask : UInt64) : Except Fault (List Nat) :=
  if group.isComparable then .ok (Arrangement.stableOrder (Feature.before mask) group.features)
  else
    match Arrangement.adaptiveOrder? (Feature.before mask) group.features with
    | some order => .ok order
    | none => .error .inconsistentOrder

/-- Put features and labels into an order; labels beyond the features stay behind them. -/
def arrange (order : List Nat) (group : Group) : Group :=
  { group with
    features := Arrangement.pick order group.features
    labels := Arrangement.pick order group.labels ++ group.labels.drop group.length }

def exchangeAll (order : List Nat) : Attempt Group Unit := .make fun group =>
  let exchanges := Arrangement.exchanges order
  let (labels, left) := Arrangement.exchangeAll exchanges group.labels.toArray
  let done := exchanges.length - left.length
  let (features, _) := Arrangement.exchangeAll (exchanges.take (done + 1)) group.features.toArray
  (if left.isEmpty then .ok () else .error .outOfBounds,
    { group with features := features.toList, labels := labels.toList })

/-- Sort by masked index and value; the answer is false for a group without features. -/
def sort (mask : UInt64) : Attempt Group Bool := do
  let group ← get
  if group.isEmpty then return false
  match group.order mask with
  | .error fault => throw fault
  | .ok order =>
    if !group.isAudited || group.length ≤ group.labels.length then set (group.arrange order)
    else exchangeAll order
    return true

end Group

end HashedFeatures
