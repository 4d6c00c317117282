import HashedFeatures.Ngram.Generate

/-! The n-grams of a namespace from one stack of offsets.

The walk counts the features that are still to be taken and the skips that are left. The offsets of the
features taken so far are on a stack that is never given up, and every n-gram is appended at once to the
group it was read from. A look past the end of the group or into an empty stack stops the walk.
-/

set_option autoImplicit false

namespace HashedFeatures.Ngrams

structure Walk where
  group : Group
  /-- The offsets on the stack, the lowest one first. -/
  stack : List Nat

namespace Walk

def indexAt (place : Nat) : Attempt Walk UInt64 := do
  match (← get).group.features[place]? with
  | some feature => pure feature.index
  | none => throw .outOfBounds

def nameAt (place : Nat) : Attempt Walk String := do
  match (← get).group.labels[place]? with
  | some label => pure label.feature
  | none => throw .outOfBounds

def above : Attempt Walk (List Nat) := do
  match (← get).stack with
  | _ :: offsets => pure offsets
  | [] => throw .outOfBounds

def index (first : Nat) (offsets : List Nat) : Attempt Walk UInt64 := do
  let start ← indexAt first
  offsets.foldlM (fun index offset => do
    let other ← indexAt (first + offset)
    pure (index * indexFactor + other)) start

def name (first : Nat) (offsets : List Nat) : Attempt Walk String := do
  let start ← nameAt first
  offsets.foldlM (fun name offset => do
    let other ← nameAt (first + offset)
    pure (name ++ "^" ++ other)) start

def emit (first : Nat) : Attempt Walk Unit := do
  let offsets ← above
  let index ← index first offsets
  modify fun walk => { walk with group := walk.group.push index .one }
  if (← get).group.isAudited then
    let name ← name first offsets
    modify fun walk => { walk with group := walk.group.pushLabel name "" }

/-- Take `count` more features out of the first `length`, with `skips` left; some are used already since
the last one that was taken. -/
def descend (length : Nat) : (count skips used : Nat) → Attempt Walk Unit
  | 0, _, _ => do
    let last := (← get).stack.getLastD 0
    (List.range (length - last)).forM emit
  | count + 1, skips, used => do
    let last := (← get).stack.getLastD 0
    modify fun walk => { walk with stack := walk.stack ++ [last + 1 + used] }
    descend length count skips 0
    modify fun walk => { walk with stack := walk.stack.dropLast }
    match skips with
    | 0 => pure ()
    | skips + 1 => descend length (count + 1) skips (used + 1)
termination_by count skips => count + skips

/-- Append all n-grams of two to `n` features; the stack starts anew for every length. -/
def addGrams (n skips : Nat) : Attempt Walk Unit := do
  let length := (← get).group.length
  (List.range' 1 (n - 1)).forM fun more => do
    modify fun walk => { walk with stack := [0] }
    descend length more skips 0

end Walk

def overNamespace (ngrams : Ngrams) (ns : UInt8) : Attempt (Example × List Nat) Unit := do
  modify fun (ec, stack) => (ec.touch (.id ns), stack)
  (Walk.addGrams (ngrams.gramsFor ns) (ngrams.skipsFor ns)).focus
    (fun (ec, stack) => ⟨ec.group (.id ns), stack⟩) fun walk (ec, _) => (ec.setGroup ns walk.group, walk.stack)

def generateOver (ngrams : Ngrams) : Attempt (Example × List Nat) Unit := do
  (← get).1.space.namespaces.forM fun ns =>
    if ngrams.gramsFor ns < 2 then pure () else ngrams.overNamespace ns

end HashedFeatures.Ngrams
