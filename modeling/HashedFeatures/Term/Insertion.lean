import HashedFeatures.Term.Compile
import Std.Data.TreeSet

/-! Filling a template by insertion.

The ids in the places of the wildcards are made first. The fixed ids then go back one by one, each to the place where
the template has it.
-/

set_option autoImplicit false

namespace HashedFeatures.Term

def insertAt (term : Term) (fixed : UInt8 × Nat) : Except Fault Term :=
  let (ns, place) := fixed
  if place ≤ term.length then .ok (term.insertIdx place ns) else .error .outOfBounds

def fixedPlaces (template : Term) : List (UInt8 × Nat) :=
  template.zipIdx.filter fun (ns, _) => ns ≠ Namespace.wildcard

def insertFixed (template : Term) (picks : List UInt8) : Except Fault Term :=
  template.fixedPlaces.foldlM insertAt picks

def insertPair (leaveDuplicates : Bool) (first : UInt8) (pairs : Std.TreeSet (List UInt8)) (second : UInt8) :
    Std.TreeSet (List UInt8) :=
  let pairs := (pairs.insert [first, second]).insert [second, second]
  if leaveDuplicates then pairs.insert [second, first] else pairs

def pairSet (leaveDuplicates : Bool) (ids : List UInt8) : Std.TreeSet (List UInt8) :=
  (Choice.suffixes ids).foldl (fun pairs (first, onward) => onward.foldl (insertPair leaveDuplicates first) pairs) ∅

def picksByInsertion (mode : Selection) (leaveDuplicates : Bool) (namespaces : NamespaceSet) (k : Nat) :
    List (List UInt8) :=
  if k = 2 then (pairSet leaveDuplicates namespaces.toList).toList
  else
    match mode with
    | .combinations => Choice.combinations k namespaces.toList
    | .permutations => Choice.permutations k namespaces.toList

/-- The terms that one template stands for, unless an id is inserted behind the end of a term. -/
def instancesByInsertion (mode : Selection) (leaveDuplicates : Bool) (namespaces : NamespaceSet) (template : Term) :
    Except Fault (List Term) :=
  (picksByInsertion mode leaveDuplicates namespaces template.wildcards).mapM template.insertFixed

end HashedFeatures.Term
