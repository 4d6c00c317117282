import HashedFeatures.Example.Basic

/-! Adding features to one namespace by name or number.

Decimal names stand for their numbers here; values enter as they are, and nothing is labelled.
-/

set_option autoImplicit false

namespace HashedFeatures.Example

structure Builder where
  ns : UInt8
  hash : UInt64

namespace Builder

/-- A builder for a name uses its first byte as the id, and the blank for an empty name. -/
def ofAddress : Address → Builder
  | .id ns => ⟨ns, ns.toUInt64⟩
  | .name name => ⟨(Hash.bytes name).headD Namespace.default, Hash.numeric (Hash.bytes name) 0⟩

def indexOfName (builder : Builder) (name : String) : UInt64 :=
  Hash.numeric (Hash.bytes name) builder.hash

def indexOfNumber (builder : Builder) (number : UInt64) : UInt64 :=
  builder.hash + number

end Builder

def pushFeature (ns : UInt8) (index : UInt64) (amount : Single) : Attempt Example Unit :=
  onGroup (.id ns) (modify (·.push index amount))

end HashedFeatures.Example
