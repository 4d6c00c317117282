/-! Dropping terms that repeat an earlier one up to order, and putting repeats side by side. -/

set_option autoImplicit false

namespace HashedFeatures

namespace Term

variable {α : Type}

def adjacentEqual [BEq α] (term : List α) : List Bool :=
  List.zipWith (· == ·) term term.tail

/-- Whether a sorted term has both equal and different neighbours; shorter terms count as such. -/
def mixesRepeats [BEq α] : List α → Bool
  | [] | [_] => true
  | term => (adjacentEqual term).any id && (adjacentEqual term).any not

def sort [Ord α] (term : List α) : List α :=
  term.mergeSort fun left right => (compare left right).isLE

end Term

structure WrittenTerm (α : Type) where
  sorted : List α
  written : List α
  position : Nat

namespace WrittenTerm

variable {α : Type}

def ofList [Ord α] (terms : List (List α)) : List (WrittenTerm α) :=
  terms.zipIdx.map fun (term, position) => ⟨Term.sort term, term, position⟩

def keepNew [BEq α] (kept : List (WrittenTerm α)) (next : WrittenTerm α) : List (WrittenTerm α) :=
  match kept with
  | [] => [next]
  | last :: _ => if next.sorted == last.sorted then kept else next :: kept

def dropRepeats [BEq α] (terms : List (WrittenTerm α)) : List (WrittenTerm α) :=
  (terms.foldl keepNew []).reverse

/-- The first of each family of terms that are equal up to order, in the order of the list. -/
def firsts [Ord α] [BEq α] (terms : List (WrittenTerm α)) : List (WrittenTerm α) :=
  let bySorted := terms.mergeSort fun left right => (compare left.sorted right.sorted).isLE
  (dropRepeats bySorted).mergeSort fun left right => left.position ≤ right.position

def grouped [BEq α] (term : WrittenTerm α) : List α :=
  if Term.mixesRepeats term.sorted then term.sorted else term.written

end WrittenTerm

structure Regrouped (α : Type) where
  terms : List (List α)
  removed : Nat
  sorted : Nat
  deriving DecidableEq, Repr

def regroup {α : Type} [Ord α] [BEq α] (dropDuplicates : Bool) (terms : List (List α)) : Regrouped α :=
  let all := WrittenTerm.ofList terms
  let kept := if dropDuplicates then WrittenTerm.firsts all else all
  { terms := kept.map WrittenTerm.grouped
    removed := all.length - kept.length
    sorted := kept.countP fun term => term.grouped != term.written }

end HashedFeatures
