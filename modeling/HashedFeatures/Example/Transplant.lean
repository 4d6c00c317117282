import HashedFeatures.Example.Basic

/-! Appending the groups of one example to another, and cutting them off again. -/

set_option autoImplicit false

namespace HashedFeatures.Example

def appendGroup (ns : UInt8) (group : Group) : Attempt Example Unit :=
  onGroup (.id ns) (.change (·.concat group))

/-- Cut as many features off a namespace as the group has; an empty namespace is deleted. -/
def truncateGroup (ns : UInt8) (group : Group) : Attempt Example Unit := .make fun ec =>
  match ec.space.get? ns with
  | none => (.ok (), ec)
  | some target =>
    match target.truncateKnowing (target.length - group.length) group.sumSquares with
    | .error fault => (.error fault, ec.withSpace id)
    | .ok rest => (.ok (), if rest.isEmpty then ec.delete ns else ec.setGroup ns rest)

/-- The groups that move between examples: all but that of the constant. -/
def transplanted (source : Example) : List (UInt8 × Group) :=
  source.space.toList.filter fun (ns, _) => ns ≠ Namespace.constant

def appendFrom (source : Example) : Attempt Example Unit :=
  source.transplanted.forM fun (ns, group) => appendGroup ns group

def truncateFrom (source : Example) : Attempt Example Unit :=
  source.transplanted.forM fun (ns, group) => truncateGroup ns group

end HashedFeatures.Example
