import HashedFeatures.Arrangement.Adaptive

/-! The order of a stable sort, as a list of places. -/

set_option autoImplicit false

namespace HashedFeatures.Arrangement

variable {α : Type}

def stableOrder (precedes : α → α → Bool) (items : List α) : List Nat :=
  (items.zipIdx.mergeSort fun left right => !precedes right.1 left.1).map Prod.snd

/-- The places of items that need not all compare; the sort may find that it cannot arrange them. -/
def adaptiveOrder? (precedes : α → α → Bool) (items : List α) : Option (List Nat) :=
  (adaptiveSort? (fun left right => precedes left.1 right.1) items.zipIdx).map (·.map Prod.snd)

end HashedFeatures.Arrangement
