import HashedFeatures.Group.Basic

/-! The inner product of two groups in ascending order of indices. -/

set_option autoImplicit false

namespace HashedFeatures

namespace Group

def isAscending : List Feature → Bool
  | f :: g :: rest => f.index ≤ g.index && isAscending (g :: rest)
  | _ => true

/-- Add the products of values whose indices meet in a merge of two ascending lists. -/
def addProducts (sum : Float32) : List Feature → List Feature → Float32
  | f :: left, g :: right =>
    if f.index = g.index then addProducts (sum + f.value * g.value) left right
    else if f.index < g.index then addProducts sum left (g :: right)
    else addProducts sum (f :: left) right
  | _, _ => sum
termination_by left right => left.length + right.length

def dot (left right : Group) : Except Fault Float32 :=
  if !isAscending left.features then .error .leftUnsorted
  else if !isAscending right.features then .error .rightUnsorted
  else .ok (addProducts 0 left.features right.features)

end Group

end HashedFeatures
