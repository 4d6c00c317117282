import HashedFeatures.Example.Space
import HashedFeatures.Expansion.Odometer
import HashedFeatures.Term.Basic

/-! The crossed features of a list of terms.

A term crosses the groups of its namespaces; it yields nothing when one of them is missing or empty.
Unless all orders are wanted, a namespace that repeats the one in front of it starts at its position,
so that every selection of its features is met once.
-/

set_option autoImplicit false

namespace HashedFeatures

namespace Space

def nonEmpty? (space : Space) (ns : UInt8) : Option Group :=
  (space.get? ns).filter fun group => !group.isEmpty

end Space

namespace Term

def repeats (term : Term) : List Bool :=
  List.zipWith (· == ·) (term.drop 1) term

def factors? (permutations : Bool) (space : Space) (term : Term) : Option (List Factor) := do
  let groups ← term.mapM space.nonEmpty?
  some (List.zipWith (fun group same => ⟨group, !permutations && same⟩) groups (false :: term.repeats))

end Term

namespace Expansion

variable (expansion : Expansion) (permutations : Bool) (space : Space)

def cross (factors : List Factor) (scratch : Scratch) : Emission × Scratch :=
  match factors with
  | [] => (.empty, scratch)
  | [only] => (expansion.last only.group 0 1 .start, scratch)
  | [first, second] => (expansion.pairs first second, scratch)
  | [first, second, third] => (expansion.triples first second third, scratch)
  | factors => expansion.odometer permutations factors scratch

def term (term : Term) (scratch : Scratch) : Emission × Scratch :=
  match term.factors? permutations space with
  | none => (.empty, scratch)
  | some factors => expansion.cross permutations factors scratch

def terms : List Term → Scratch → Emission × Scratch
  | [], scratch => (.empty, scratch)
  | first :: rest, scratch =>
    let (emission, scratch) := expansion.term permutations space first scratch
    let (others, scratch) := terms rest scratch
    (emission.append others, scratch)

end Expansion

end HashedFeatures
