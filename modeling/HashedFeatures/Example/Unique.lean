import HashedFeatures.Example.Basic
import HashedFeatures.Group.Merge
import HashedFeatures.Group.Sort

/-! Sorting a whole feature space and dropping repeated indices. -/

set_option autoImplicit false

namespace HashedFeatures.Example

def uniqueSort (mask : UInt64) : Attempt Example Unit := do
  modify (·.withSpace id)
  (← get).space.namespaces.forM fun ns => onGroup (.id ns) do
    if ← Group.sort mask then Group.unique none

end HashedFeatures.Example
