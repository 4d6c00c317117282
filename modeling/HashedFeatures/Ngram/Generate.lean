import HashedFeatures.Example.Basic
import HashedFeatures.Ngram.Definition

/-! The n-grams of a namespace, with skips.

An n-gram takes a feature and others behind it; the gaps between them sum up to no more than the
skips. Its index folds the indices of its features, its value is one. Its label joins their labels,
among which are those of the n-grams in front of it.
-/

set_option autoImplicit false

namespace HashedFeatures

namespace Ngrams

def indexFactor : UInt64 := 27942141

def foldIndices : List UInt64 → UInt64
  | [] => 0
  | first :: others => others.foldl (fun index other => index * indexFactor + other) first

/-- The offsets of `n` more features behind one at `last` and in front of `length`, in lexicographic
order of the gaps. -/
def offsets (length last : Nat) : Nat → Nat → List (List Nat)
  | 0, _ => [[]]
  | n + 1, skips =>
    (List.range (min (skips + 1) (length - (last + 1 + n)))).flatMap fun gap =>
      let next := last + 1 + gap
      (offsets length next n (skips - gap)).map (next :: ·)

def windows (length n skips : Nat) : List (List Nat) :=
  (List.range' 1 (min n length - 1)).flatMap fun more =>
    (offsets length 0 more skips).flatMap fun offsets =>
      (List.range (length - offsets.getLastD 0)).map fun first => first :: offsets.map (first + ·)

structure Output where
  grams : List Feature
  labels : Array Label

def addGram (group : Group) (features : Array Feature) (places : List Nat) : Attempt Output Unit := do
  let index := foldIndices (places.filterMap fun place => (features[place]?).map Feature.index)
  modify fun output => { output with grams := ⟨index, .one⟩ :: output.grams }
  if group.isAudited then
    match places.mapM ((← get).labels[·]?) with
    | none => throw .outOfBounds
    | some labels =>
      let label := group.labelFor ("^".intercalate (labels.map Label.feature)) ""
      modify fun output => { output with labels := output.labels.push label }

def addGrams (n skips : Nat) : Attempt Group Unit := .make fun group =>
  let features := group.features.toArray
  let (outcome, output) :=
    ((windows features.size n skips).forM (addGram group features)).run ⟨[], group.labels.toArray⟩
  (outcome, { group.append output.grams.reverse with labels := output.labels.toList })

def generate (ngrams : Ngrams) : Attempt Example Unit := do
  (← get).space.namespaces.forM fun ns =>
    if ngrams.gramsFor ns < 2 then pure ()
    else Example.onGroup (.id ns) (addGrams (ngrams.gramsFor ns) (ngrams.skipsFor ns))

end Ngrams

end HashedFeatures
