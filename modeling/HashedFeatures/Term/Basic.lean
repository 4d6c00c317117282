import HashedFeatures.Namespace.Reserved

/-! Interaction terms: sequences of namespace ids whose features are crossed.

A term with a wildcard id is a template for the terms that put a namespace in the wildcard's place.
-/

set_option autoImplicit false

namespace HashedFeatures

abbrev Term := List UInt8

inductive Selection where
  /-- Unordered selections with repetition. -/
  | combinations
  /-- Ordered selections with repetition. -/
  | permutations
  deriving DecidableEq, Repr

def Selection.ofPermutations (permutations : Bool) : Selection :=
  if permutations then .permutations else .combinations

namespace Term

def hasWildcard (term : Term) : Bool :=
  term.contains Namespace.wildcard

def wildcards (term : Term) : Nat :=
  term.count Namespace.wildcard

/-- Shorter terms first, terms of one length in lexicographic order. -/
def order {α : Type} [Ord α] (left right : List α) : Ordering :=
  (compare left.length right.length).then (compare left right)

theorem hasWildcard_iff {term : Term} : hasWildcard term = true ↔ Namespace.wildcard ∈ term := by
  simp [hasWildcard]

end Term

end HashedFeatures
