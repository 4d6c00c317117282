import HashedFeatures.Expansion.Loops

/-! Crossing any number of groups by an odometer.

There is a frame for every group. A frame knows its position and carries the product and the hash of
the features chosen in the frames in front of it. The odometer descends frame by frame, runs through
the last group, and carries into the frames in front of it, back to the nearest one that is not
exhausted.
-/

set_option autoImplicit false

namespace HashedFeatures

structure Frame where
  group : Group
  features : Array Feature
  tied : Bool
  position : Nat
  value : Float32
  fold : Hash.Fold

/-- Frames of an earlier walk, whose storage the next one takes over. -/
abbrev Scratch := Array Frame

namespace Frame

def ofFactor (factor : Factor) : Frame :=
  { group := factor.group, features := factor.group.features.toArray, tied := factor.tied
    position := 0, value := 1, fold := .start }

def feature? (frame : Frame) : Option Feature :=
  frame.features[frame.position]?

def choose (isFirst : Bool) (frame : Frame) (feature : Feature) : Float32 × Hash.Fold :=
  if isFirst then (feature.value, Hash.Fold.start.pushIndex feature.index)
  else (feature.value * frame.value, frame.fold.pushIndex feature.index)

end Frame

structure Odometer where
  frames : Array Frame
  level : Nat

namespace Odometer

variable (expansion : Expansion) (permutations : Bool)

def start (scratch : Scratch) (factors : List Factor) : Odometer :=
  { frames := factors.foldl (fun frames factor => frames.push (.ofFactor factor)) (scratch.take 0)
    level := 0 }

def descend (odometer : Odometer) (frame : Frame) (feature : Feature) : List Event × Odometer :=
  let (value, fold) := frame.choose (odometer.level == 0) feature
  let frames := odometer.frames.modify (odometer.level + 1) fun next =>
    { next with position := if next.tied then frame.position else 0, value, fold }
  (if expansion.audit then [.enter (frame.group.labelAt frame.position)] else [],
    { frames, level := odometer.level + 1 })

/-- Advance the nearest frame in front of `level` that is not exhausted, if there is one. -/
def carry : Nat → Array Frame → List Event × Option Odometer
  | 0, _ => ([], none)
  | level + 1, frames =>
    let frames := frames.modify level fun frame => { frame with position := frame.position + 1 }
    let left := if expansion.audit then [Event.leave] else []
    match frames[level]? with
    | none => (left, none)
    | some frame =>
      if frame.position < frame.features.size then (left, some { frames, level })
      else
        let (more, next) := carry level frames
        (left ++ more, next)

def move (odometer : Odometer) : Emission × Option Odometer :=
  match odometer.frames[odometer.level]? with
  | none => (.empty, none)
  | some frame =>
    if odometer.level + 1 < odometer.frames.size then
      match frame.feature? with
      | none => (.empty, none)
      | some feature =>
        let (events, next) := descend expansion odometer frame feature
        (⟨events, 0⟩, some next)
    else
      let emitted := expansion.last frame.group (if permutations then 0 else frame.position)
        frame.value frame.fold
      let (events, next) := carry expansion odometer.level odometer.frames
      ({ emitted with events := emitted.events ++ events }, next)

/-- Move until the walk ends, at most `budget` times, behind what was emitted, the latest first; the
frames are left for the next walk. -/
def walk : Nat → List Emission → Odometer → Emission × Scratch
  | 0, emitted, odometer => (.concat emitted.reverse, odometer.frames)
  | budget + 1, emitted, odometer =>
    match odometer.move expansion permutations with
    | (emission, none) => (.concat (emission :: emitted).reverse, odometer.frames)
    | (emission, some next) => walk budget (emission :: emitted) next

def budget (factors : List Factor) : Nat :=
  factors.foldl (fun moves factor => moves * factor.group.length) factors.length

end Odometer

namespace Expansion

def odometer (expansion : Expansion) (permutations : Bool) (factors : List Factor) (scratch : Scratch) :
    Emission × Scratch :=
  (Odometer.start scratch factors).walk expansion permutations (Odometer.budget factors) []

end Expansion

end HashedFeatures
