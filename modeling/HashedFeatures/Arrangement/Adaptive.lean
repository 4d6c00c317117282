import HashedFeatures.Arrangement.Parts

/-! A stable sort by a relation that need not be an order.

Where some items do not compare, the outcome depends on which of them meet, so the comparisons are
fixed here: a short list is sorted by insertion, a longer one by its runs, and what was not worth a run
by parts. Merging from both ends can notice that the relation contradicts itself; the sort then has no
outcome.
-/

set_option autoImplicit false

namespace HashedFeatures.Arrangement

variable {α : Type} (less : α → α → Bool)

def insertionLength : Nat := 20

def roomFor (length : Nat) : Nat := max (length - length / 2) (min length 1000000)

def sortWhole (room : Nat) : Whole α := fun items =>
  sortByParts less room (items.length + 1) (2 * Nat.log2 items.length) none items

/-- Sort items by a relation; none if the relation was seen to contradict itself. -/
def adaptiveSort? (items : List α) : Option (List α) :=
  if items.length ≤ insertionLength then some (insertAll less [] items)
  else
    let room := roomFor items.length
    sortByRuns less (sortWhole less room) (items.length ≤ 2 * shortLength) room items

end HashedFeatures.Arrangement
