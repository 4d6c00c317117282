import HashedFeatures.Arrangement.Merging

/-! Sorting short lists: by insertion, or as two halves that begin with fours in order. -/

set_option autoImplicit false

namespace HashedFeatures.Arrangement

variable {α : Type} (less : α → α → Bool)

def insertLast (item : α) : List α → List α
  | [] => [item]
  | last :: rest => if less item last then last :: insertLast item rest else item :: last :: rest

def insertAll (sorted items : List α) : List α :=
  (items.foldl (fun reversed item => insertLast less item reversed) sorted.reverse).reverse

def sortFour (p q r s : α) : List α :=
  let (a, b) := if less q p then (q, p) else (p, q)
  let (c, d) := if less s r then (s, r) else (r, s)
  let least := if less c a then c else a
  let greatest := if less d b then b else d
  let left := if less c a then a else if less d b then c else b
  let right := if less d b then d else if less c a then b else c
  if less right left then [least, right, left, greatest] else [least, left, right, greatest]

def firstFour (items : List α) : List α :=
  match items with
  | p :: q :: r :: s :: _ => sortFour less p q r s
  | _ => items

def firstEight (items : List α) : Option (List α) :=
  mergeHalves less (firstFour less items ++ firstFour less ((items.take 8).drop 4))

/-- Sort half of a short list of `length` items: its beginning in one go, the others by insertion. -/
def sortHalf (length : Nat) (items : List α) : Option (List α) :=
  if 16 ≤ length then (firstEight less items).map fun first => insertAll less first (items.drop 8)
  else if 8 ≤ length then some (insertAll less (firstFour less items) (items.drop 4))
  else some (insertAll less (items.take 1) (items.drop 1))

def shortLength : Nat := 32

def sortShort (items : List α) : Option (List α) :=
  if items.length < 2 then some items
  else do
    let half := items.length / 2
    let left ← sortHalf less items.length (items.take half)
    let right ← sortHalf less items.length (items.drop half)
    mergeHalves less (left ++ right)

end HashedFeatures.Arrangement
