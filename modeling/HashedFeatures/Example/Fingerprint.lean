import HashedFeatures.Example.Basic

/-! The fingerprint of a feature space, the same for every order of its namespaces and features. -/

set_option autoImplicit false

namespace HashedFeatures

namespace Feature

/-- The bits of the value, also of a NaN; both zeros count as zero. -/
def valueBits (feature : Feature) : UInt64 :=
  if feature.value == 0 then 0 else feature.amount.bits.toUInt64

end Feature

namespace Space

def fingerprint (space : Space) : UInt64 :=
  space.toList.foldl (fun sum (ns, group) =>
    group.features.foldl (fun sum f => sum + f.index + f.valueBits) (sum + ns.toUInt64)) 0

end Space

namespace Example

def fingerprint : Attempt Example UInt64 := do
  let ec ← get
  match ec.remembered with
  | some known => return known
  | none =>
    let computed := ec.space.fingerprint
    set { ec with remembered := some computed }
    return computed

def forgetFingerprint (ec : Example) : Example :=
  { ec with remembered := none }

end Example

end HashedFeatures
