import HashedFeatures.Arrangement.Short

/-! Sorting by runs.

The items are cut into runs, which ascend already or are left for later. Neighbouring runs are joined
along a balanced tree: a run waits until no later join lies deeper than its own.
-/

set_option autoImplicit false

namespace HashedFeatures.Arrangement

variable {α : Type} (less : α → α → Bool)

structure Run (α : Type) where
  items : List α
  sorted : Bool

def continued (keeps : α → α → Bool) (last : α) : List α → Nat → Nat
  | [], count => count
  | item :: rest, count => if keeps last item then continued keeps item rest (count + 1) else count

def naturalRun (items : List α) : List α :=
  match items with
  | first :: second :: rest =>
    if less second first then
      (items.take (continued (fun last item => less item last) second rest 2)).reverse
    else items.take (continued (fun last item => !less item last) second rest 2)
  | items => items

def approximateRoot (n : Nat) : Nat :=
  let shift := (1 + Nat.log2 n) / 2
  (1 <<< shift + n >>> shift) / 2

/-- The shortest ascending run that is worth keeping in a list of this length. -/
def goodLength (length : Nat) : Nat :=
  if length ≤ 64 * 64 then min (length - length / 2) 64 else approximateRoot length

/-- The next run; where there is no good one, a short list is sorted at once if `eager`. -/
def nextRun (eager : Bool) (good : Nat) (items : List α) : Option (Run α) :=
  let natural := naturalRun less items
  if good ≤ items.length ∧ good ≤ natural.length then some ⟨natural, true⟩
  else if eager then (sortShort less (items.take shortLength)).map fun sorted => ⟨sorted, true⟩
  else some ⟨items.take good, false⟩

def joinLevel (n start middle stop : Nat) : Nat :=
  let scale := (1 <<< 62 + n - 1) / n
  let apart := (scale * (start + middle)) ^^^ (scale * (middle + stop))
  if apart = 0 then 64 else 63 - Nat.log2 apart

abbrev Whole (α : Type) := List α → Option (List α)

namespace Run

def sort (whole : Whole α) (run : Run α) : Option (List α) :=
  if run.sorted then some run.items else whole run.items

/-- Join two runs; if neither is sorted they stay so, as long as both fit into the room for sorting. -/
def join (whole : Whole α) (room : Nat) (left right : Run α) : Option (Run α) :=
  if room < left.items.length + right.items.length ∨ left.sorted ∨ right.sorted then do
    some ⟨merge less (← left.sort whole) (← right.sort whole), true⟩
  else some ⟨left.items ++ right.items, false⟩

end Run

def joinDeeper (whole : Whole α) (room level : Nat) :
    List (Run α × Nat) → Run α → Option (List (Run α × Nat) × Run α)
  | [], last => some ([], last)
  | (run, own) :: waiting, last =>
    if level ≤ own then do joinDeeper whole room level waiting (← run.join less whole room last)
    else some ((run, own) :: waiting, last)

def joinRuns (whole : Whole α) (eager : Bool) (n good room : Nat) :
    Nat → List (Run α × Nat) → Run α → Nat → List α → Option (Run α)
  | 0, _, last, _, _ => some last
  | _ + 1, waiting, last, _, [] => do
    let (_, last) ← joinDeeper less whole room 0 waiting last
    some last
  | fuel + 1, waiting, last, done, items => do
    let next ← nextRun less eager good items
    let level := joinLevel n (done - last.items.length) done (done + next.items.length)
    let (waiting, last) ← joinDeeper less whole room level waiting last
    let waiting := if last.items.isEmpty then [] else (last, level) :: waiting
    joinRuns whole eager n good room fuel waiting next (done + next.items.length)
      (items.drop next.items.length)

def sortByRuns (whole : Whole α) (eager : Bool) (room : Nat) (items : List α) : Option (List α) := do
  let run ← joinRuns less whole eager items.length (goodLength items.length) room (items.length + 1)
    [] ⟨[], true⟩ 0 items
  run.sort whole

end HashedFeatures.Arrangement
