import HashedFeatures.Fault
import HashedFeatures.Term.Regroup

/-! Regrouping a list of terms by taking it apart.

What is kept is known by its sorted form and its place. A term that keeps its written form is moved out of its place,
where an empty term is left behind.
-/

set_option autoImplicit false

namespace HashedFeatures

variable {α : Type} [BEq α]

namespace Term

def meetsBoth (equalMet differentMet : Bool) : List α → Bool
  | a :: b :: rest =>
    if a == b then
      if differentMet then true else meetsBoth true differentMet (b :: rest)
    else
      if equalMet then true else meetsBoth equalMet true (b :: rest)
  | _ => false

/-- Whether a sorted term takes the place of the written one; a term of at most one item always does. -/
def needsSorting (sorted : List α) : Bool :=
  if sorted.length ≤ 1 then true else meetsBoth false false sorted

end Term

structure Extraction (α : Type) where
  places : List (List α)
  taken : List (List α)
  changed : Nat

/-- Take the term that stands at the place of a sorted one, or leave it there and take the sorted one. -/
def Extraction.take (extraction : Extraction α) (next : WrittenTerm α) : Except Fault (Extraction α) :=
  match extraction.places[next.position]? with
  | none => .error .outOfBounds
  | some written =>
    if Term.needsSorting next.sorted then
      .ok { extraction with
        taken := extraction.taken ++ [next.sorted]
        changed := if written != next.sorted then extraction.changed + 1 else extraction.changed }
    else
      .ok { extraction with
        places := extraction.places.set next.position []
        taken := extraction.taken ++ [written] }

def regroupByExtraction [Ord α] (dropDuplicates : Bool) (terms : List (List α)) : Except Fault (Regrouped α) := do
  let all := WrittenTerm.ofList terms
  let kept := if dropDuplicates then WrittenTerm.firsts all else all
  let extraction ← kept.foldlM Extraction.take ⟨terms, [], 0⟩
  return { terms := extraction.taken, removed := all.length - kept.length, sorted := extraction.changed }

end HashedFeatures
