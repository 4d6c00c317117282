import HashedFeatures.Namespace.Set
import HashedFeatures.Record
import HashedFeatures.Term.Basic
import HashedFeatures.Term.Choice
import HashedFeatures.Term.Regroup

/-! Compilation of templates against the namespaces that are known.

Every wildcard is replaced, the list is sorted, terms equal up to order are dropped unless they are
to be left, and repeated ids are put side by side for the expansion.
-/

set_option autoImplicit false

namespace HashedFeatures

namespace Term

def substitute : Term → List UInt8 → Term
  | [], _ => []
  | ns :: rest, picks =>
    if ns = Namespace.wildcard then
      match picks with
      | pick :: picks => pick :: substitute rest picks
      | [] => ns :: substitute rest []
    else ns :: substitute rest picks

/-- What stands in the places of `k` wildcards; two wildcards always take pairs. -/
def picks (mode : Selection) (leaveDuplicates : Bool) (namespaces : NamespaceSet) (k : Nat) :
    List (List UInt8) :=
  if k = 2 then Choice.pairs leaveDuplicates namespaces.toList
  else
    match mode with
    | .combinations => Choice.combinations k namespaces.toList
    | .permutations => Choice.permutations k namespaces.toList

def instances (mode : Selection) (leaveDuplicates : Bool) (namespaces : NamespaceSet) (term : Term) :
    List Term :=
  (picks mode leaveDuplicates namespaces term.wildcards).map term.substitute

def unfold (mode : Selection) (leaveDuplicates : Bool) (namespaces : NamespaceSet)
    (terms : List Term) : List Term :=
  let written := terms.flatMap fun term =>
    if term.hasWildcard then term.instances mode leaveDuplicates namespaces else [term]
  written.mergeSort fun left right => (order left right).isLE

def compile (mode : Selection) (leaveDuplicates : Bool) (namespaces : NamespaceSet)
    (terms : List Term) : Regrouped UInt8 :=
  regroup (!leaveDuplicates) (unfold mode leaveDuplicates namespaces terms)

end Term

def Regrouped.records (compiled : Regrouped UInt8) : List Record :=
  (if 0 < compiled.removed then
    [⟨.warn, "Duplicate namespace interactions were found. Removed: " ++ toString compiled.removed ++
      ". You can use leave_duplicate_interactions to disable this behaviour."⟩]
  else []) ++
  (if 0 < compiled.sorted then
    [⟨.debug, "Sorted " ++ toString compiled.sorted ++
      " interactions so repeated namespaces are adjacent"⟩]
  else [])

end HashedFeatures
