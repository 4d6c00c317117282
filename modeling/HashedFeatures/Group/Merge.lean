import HashedFeatures.Arrangement.Exchange
import HashedFeatures.Group.Basic

/-! Runs of equal indices: keeping their first features, or summing them up.

Both bring the heads of the runs to the front, in order. Their labels follow; where one is missing, the
operation stops with the features and labels brought forward so far.
-/

set_option autoImplicit false

namespace HashedFeatures

structure Run where
  first : Feature
  rest : List Feature

namespace Run

def length (run : Run) : Nat := run.rest.length + 1

def cons (feature : Feature) : List Run → List Run
  | [] => [⟨feature, []⟩]
  | run :: runs =>
    if feature.index = run.first.index then ⟨feature, run.first :: run.rest⟩ :: runs
    else ⟨feature, []⟩ :: run :: runs

def ofFeatures (features : List Feature) : List Run :=
  features.foldr cons []

def starts (runs : List Run) : List Nat :=
  (runs.foldl (fun (place, starts) run => (place + run.length, place :: starts)) (0, [])).2.reverse

def merged (run : Run) : Feature :=
  { run.first with amount := run.rest.foldl (fun sum f => sum.add f.amount) run.first.amount }

end Run

namespace Group

/-- The labels of the runs, or the place of the first run in `needed` whose label is missing. -/
def labelsOf (group : Group) (needed : Nat × Nat → Bool) (starts : List Nat) :
    Except (List Label × Nat) (List Label) :=
  if !group.isAudited then .ok []
  else
    let labels := group.labels.toArray
    let moves := ((List.range starts.length).zip starts).filter needed
    match moves.find? fun (_, source) => labels.size ≤ source with
    | none => .ok (starts.filterMap (labels[·]?))
    | some (place, _) => .error ((Arrangement.exchangeAll moves labels).1.toList, place)

def keepFirsts (cap : Option Nat) (group : Group) : Except Fault Unit × Group :=
  let runs := Run.ofFeatures group.features
  let runs := match cap with | some n => runs.take n | none => runs
  let kept := runs.map Run.first
  match group.labelsOf (fun (place, start) => place ≠ start) (Run.starts runs) with
  | .ok labels => (.ok (), recompute { group with features := kept, labels })
  | .error (labels, place) =>
    (.error .outOfBounds, { group with
      features := kept.take (place + 1) ++ group.features.drop (place + 1)
      labels })

def unique (cap : Option Nat) : Attempt Group Unit := .make fun group =>
  if group.isEmpty then (.ok (), group)
  else
    match cap with
    | some 0 => (.ok (), group.clear)
    | some 1 => (Attempt.change fun group => group.truncate 1).run group
    | _ => group.keepFirsts cap

/-- Sum up every run of equal indices; the answer is the new sum of squares. -/
def mergeRuns : Attempt Group Float32 := .make fun group =>
  let runs := Run.ofFeatures group.features
  let merged := runs.map Run.merged
  let sum := addSquares 0 merged
  if group.isEmpty then (.ok 0, { group with sumSquares := 0 })
  else
    match group.labelsOf (fun (place, _) => place ≠ 0) (Run.starts runs) with
    | .ok labels => (.ok sum, { group with features := merged, labels, sumSquares := sum })
    | .error (labels, place) =>
      let front := merged.take place ++ ((runs.map Run.first).drop place).take 1
      (.error .outOfBounds, { group with
        features := front ++ group.features.drop (place + 1)
        labels })

end Group

end HashedFeatures
