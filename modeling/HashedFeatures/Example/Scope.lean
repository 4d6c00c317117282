import HashedFeatures.Example.Fingerprint

/-! Scopes at whose end a part of an example is as it was before. -/

set_option autoImplicit false

namespace HashedFeatures.Example

def stashSpace : Guard Example where
  Saved := Space
  save := space
  opened := id
  closed := fun saved ec => ec.withSpace fun _ => saved

def stashInteractions : Guard Example where
  Saved := List Term
  save := interactions
  opened := id
  closed := fun saved ec => { ec with interactions := saved }

def stashScaleOffset : Guard Example where
  Saved := UInt64 × UInt64
  save := fun ec => (ec.scale, ec.offset)
  opened := id
  closed := fun (scale, offset) ec => { ec with scale, offset }

def withOffset (offset : UInt64) : Guard Example where
  Saved := UInt64
  save := Example.offset
  opened := fun ec => { ec with offset }
  closed := fun offset ec => { ec with offset }

def copyNamespace (ns : UInt8) : Guard Example where
  Saved := Option Group
  save := fun ec => ec.space.get? ns
  opened := fun ec => ec.touch (.id ns)
  closed := fun saved ec => ec.withSpace fun space => space.put ns saved

def mapIndices (f : UInt64 → UInt64) (ec : Example) : Example :=
  ec.withSpace fun space => space.mapGroups fun group =>
    { group with features := group.features.map fun feature => { feature with index := f feature.index } }

def shiftIndices (shift : UInt64) : Guard Example where
  Saved := Unit
  save := fun _ => ()
  opened := mapIndices (· <<< shift)
  closed := fun _ => mapIndices (· >>> shift)

/-- Run under shifted indices; a shift by the width of an index stops at the first feature. -/
def underShift {α : Type} (shift : Nat) (body : Attempt Example α) : Attempt Example α := do
  if shift = 0 then body
  else
    let ec ← get
    if 64 ≤ shift ∧ 0 < ec.space.featureCount then
      set (ec.withSpace id)
      throw .overflow
    else (shiftIndices (UInt64.ofNat shift)).scope body

end HashedFeatures.Example
