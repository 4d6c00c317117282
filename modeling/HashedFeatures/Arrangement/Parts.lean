import HashedFeatures.Arrangement.Runs

/-! Sorting by parts: the items are parted around a pivot, in their order, and so are the parts.

Parts that turn out short are sorted directly. When too many partings were needed, runs take over.
-/

set_option autoImplicit false

namespace HashedFeatures.Arrangement

variable {α : Type} (less : α → α → Bool)

def median (items : Array α) (i j k : Nat) : Nat :=
  match items[i]?, items[j]?, items[k]? with
  | some a, some b, some c =>
    let first := less a b
    if first = less a c then (if less b c ^^ first then k else j) else i
  | _, _, _ => i

def medianOfSections (items : Array α) : Nat → Nat → Nat → Nat → Nat → Nat
  | 0, i, j, k, _ => median less items i j k
  | fuel + 1, i, j, k, n =>
    if 64 ≤ n * 8 then
      let m := n / 8
      let inner := fun place => medianOfSections items fuel place (place + m * 4) (place + m * 7) m
      median less items (inner i) (inner j) (inner k)
    else median less items i j k

def pivotPlace (items : Array α) : Nat :=
  let eighth := items.size / 8
  if items.size < 64 then median less items 0 (eighth * 4) (eighth * 7)
  else medianOfSections less items items.size 0 (eighth * 4) (eighth * 7) eighth

def part (goesLeft : α → Bool) (pivotLeft : Bool) (place : Nat) (items : List α) : List α × List α :=
  let (left, right) := items.zipIdx.partition fun (item, i) =>
    if i = place then pivotLeft else goesLeft item
  (left.map Prod.fst, right.map Prod.fst)

def repeats (ancestor : Option α) (pivot : α) : Bool :=
  ancestor.any fun above => !less above pivot

/-- Part a list until its pieces are short; a pivot that repeats the one before it is set aside together
with its equals. -/
def sortByParts (room : Nat) : Nat → Nat → Option α → List α → Option (List α)
  | 0, _, _, items => some items
  | fuel + 1, limit, ancestor, items =>
    if items.length ≤ shortLength then sortShort less items
    else
      match limit with
      | 0 => sortByRuns less some true room items
      | limit + 1 =>
        let place := pivotPlace less items.toArray
        match items[place]? with
        | none => some items
        | some pivot =>
          let (left, right) := part (less · pivot) false place items
          if repeats less ancestor pivot || left.isEmpty then
            let (equal, greater) := part (!less pivot ·) true place items
            (sortByParts room fuel limit none greater).map (equal ++ ·)
          else do
            let sortedRight ← sortByParts room fuel limit (some pivot) right
            let sortedLeft ← sortByParts room fuel limit ancestor left
            some (sortedLeft ++ sortedRight)

end HashedFeatures.Arrangement
