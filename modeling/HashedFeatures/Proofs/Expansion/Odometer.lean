import HashedFeatures.Proofs.Expansion.Loops
import Mathlib.Data.List.Chain

/-! The odometer runs the nested loops.

What a state of the walk has left to do is the loop of its frame from where the frame stands, and then
what the frames in front of it have left. A move emits the beginning of this and leaves the rest; the
number of moves that are left decreases, and the budget covers it.
-/

set_option autoImplicit false

namespace HashedFeatures

namespace Emission

def entering (audit : Bool) (label : Label) : Emission :=
  ⟨if audit then [.enter label] else [], 0⟩

def leaving (audit : Bool) : Emission :=
  ⟨if audit then [.leave] else [], 0⟩

theorem nested_eq (audit : Bool) (label : Label) (emission : Emission) :
    emission.nested audit label = (entering audit label).append (emission.append (leaving audit)) := by
  cases audit <;> simp [nested, HashedFeatures.nested, entering, leaving, append]

end Emission

namespace Factor

/-- Groups that can be crossed: all have features, and a tied factor has the group in front of it. -/
structure Linked (permutations : Bool) (factors : List Factor) : Prop where
  filled : ∀ factor ∈ factors, 0 < factor.group.length
  same : factors.IsChain fun outer inner => inner.tied = true → inner.group = outer.group
  free : permutations = true → ∀ factor ∈ factors, factor.tied = false

-- A loop starts inside its group when the loop around it stands inside its own.
theorem Linked.start_lt {permutations : Bool} {factors : List Factor} (linked : Linked permutations factors)
    {level : Nat} {outer inner : Factor} {others : List Factor}
    (consecutive : factors.drop level = outer :: inner :: others) {position : Nat}
    (bound : position < outer.group.length) : inner.start position < inner.group.length := by
  have chain : (outer :: inner :: others).IsChain fun outer inner =>
      inner.tied = true → inner.group = outer.group := consecutive ▸ linked.same.drop level
  unfold start
  split
  case isTrue tied => rw [(List.isChain_cons_cons.1 chain).1 tied]; exact bound
  case isFalse =>
    apply linked.filled
    apply List.mem_of_mem_drop (i := level)
    rw [consecutive]
    simp

def cost : List Factor → Nat
  | [] => 0
  | [_] => 1
  | factor :: inner => factor.group.length * (1 + cost inner)

def costFrom (factor : Factor) (start : Nat) (inner : List Factor) : Nat :=
  if inner.isEmpty then 1 else (factor.group.length - start) * (1 + cost inner)

theorem costFrom_le (factor : Factor) (start : Nat) (inner : List Factor) :
    factor.costFrom start inner ≤ cost (factor :: inner) := by
  unfold costFrom
  cases inner with
  | nil => exact Nat.le_refl 1
  | cons => exact Nat.mul_le_mul_right _ (Nat.sub_le _ _)

theorem costFrom_of_lt (factor : Factor) {start : Nat} (bound : start < factor.group.length) (next : Factor)
    (others : List Factor) :
    factor.costFrom start (next :: others) =
      (factor.group.length - (start + 1)) * (1 + cost (next :: others)) + (1 + cost (next :: others)) := by
  have turns : factor.group.length - start = factor.group.length - (start + 1) + 1 := by omega
  change (factor.group.length - start) * _ = _
  rw [turns, Nat.succ_mul]

end Factor

namespace Frame

def factor (frame : Frame) : Factor := ⟨frame.group, frame.tied⟩

def loops (expansion : Expansion) (frame : Frame) (start : Nat) (inner : List Factor) : Emission :=
  expansion.around frame.group start frame.value frame.fold (expansion.loops inner)

def advance (frame : Frame) : Frame := { frame with position := frame.position + 1 }

def enter (frame : Frame) (outer : Nat) (value : Float32) (fold : Hash.Fold) : Frame :=
  { frame with position := frame.factor.start outer, value, fold }

-- One is neutral, so the first frame needs no case of its own.
theorem choose_eq (isFirst : Bool) (frame : Frame) (feature : Feature)
    (starts : isFirst = true → frame.value = 1 ∧ frame.fold = .start) :
    frame.choose isFirst feature = (frame.value * feature.value, frame.fold.pushIndex feature.index) := by
  cases isFirst with
  | true =>
    obtain ⟨value, fold⟩ := starts rfl
    simp [choose, value, fold, Binary32.one_mul]
  | false => simp [choose, Binary32.mul_comm]

end Frame

namespace Odometer

variable (expansion : Expansion) (permutations : Bool) (factors : List Factor)

/-- What the frames in front of a level have left, once the frames from it on are through. -/
def outerRest (frames : Array Frame) : Nat → Emission
  | 0 => .empty
  | level + 1 =>
    match frames[level]? with
    | none => .empty
    | some frame =>
      (Emission.leaving expansion.audit).append <|
        (frame.loops expansion (frame.position + 1) (factors.drop (level + 1))).append
          (outerRest frames level)

def rest (odometer : Odometer) : Emission :=
  match odometer.frames[odometer.level]? with
  | none => .empty
  | some frame =>
    (frame.loops expansion frame.position (factors.drop (odometer.level + 1))).append
      (outerRest expansion factors odometer.frames odometer.level)

def outerMoves (frames : Array Frame) : Nat → Nat
  | 0 => 0
  | level + 1 =>
    match frames[level]? with
    | none => 0
    | some frame =>
      (frame.group.length - (frame.position + 1)) * (1 + Factor.cost (factors.drop (level + 1))) +
        outerMoves frames level

def down (odometer : Odometer) (frame : Frame) (feature : Feature) : Odometer :=
  { frames := odometer.frames.modify (odometer.level + 1) fun next =>
      next.enter frame.position (frame.value * feature.value) (frame.fold.pushIndex feature.index)
    level := odometer.level + 1 }

def movesLeft (odometer : Odometer) : Nat :=
  match odometer.frames[odometer.level]? with
  | none => 0
  | some frame =>
    frame.factor.costFrom frame.position (factors.drop (odometer.level + 1)) +
      outerMoves factors odometer.frames odometer.level

/-- The frames of a walk over the factors; only the first has no choice in front of it. -/
structure Framed (frames : Array Frame) : Prop where
  size_eq : frames.size = factors.length
  carries : ∀ (i : Nat) (frame : Frame), frames[i]? = some frame →
    factors[i]? = some frame.factor ∧ frame.features = frame.group.features.toArray
  first : ∀ frame : Frame, frames[0]? = some frame → frame.value = 1 ∧ frame.fold = .start

structure Sound (odometer : Odometer) : Prop where
  framed : Framed factors odometer.frames
  level_lt : odometer.level < factors.length
  position_lt : ∀ (i : Nat) (frame : Frame), i ≤ odometer.level → odometer.frames[i]? = some frame →
    frame.position < frame.group.length
  last_start : permutations = true → odometer.level + 1 = factors.length →
    ∀ frame : Frame, odometer.frames[odometer.level]? = some frame → frame.position = 0

/-- What was left is what was emitted and what the next state has left, in at most so many moves. -/
def Continues (left : Emission) (moves : Nat) (emitted : Emission) : Option Odometer → Prop
  | none => left = emitted
  | some next =>
    left = emitted.append (next.rest expansion factors) ∧ next.movesLeft factors ≤ moves ∧
      next.Sound permutations factors

variable {expansion permutations factors}

theorem outerRest_succ {level : Nat} {frames : Array Frame} {frame : Frame}
    (found : frames[level]? = some frame) :
    outerRest expansion factors frames (level + 1) =
      (Emission.leaving expansion.audit).append
        ((frame.loops expansion (frame.position + 1) (factors.drop (level + 1))).append
          (outerRest expansion factors frames level)) := by
  simp only [outerRest, found]

theorem outerMoves_succ {level : Nat} {frames : Array Frame} {frame : Frame}
    (found : frames[level]? = some frame) :
    outerMoves factors frames (level + 1) =
      (frame.group.length - (frame.position + 1)) * (1 + Factor.cost (factors.drop (level + 1))) +
        outerMoves factors frames level := by
  simp only [outerMoves, found]

theorem rest_eq {odometer : Odometer} {frame : Frame} (found : odometer.frames[odometer.level]? = some frame) :
    odometer.rest expansion factors =
      (frame.loops expansion frame.position (factors.drop (odometer.level + 1))).append
        (outerRest expansion factors odometer.frames odometer.level) := by
  simp only [rest, found]

theorem movesLeft_eq {odometer : Odometer} {frame : Frame}
    (found : odometer.frames[odometer.level]? = some frame) :
    odometer.movesLeft factors =
      frame.factor.costFrom frame.position (factors.drop (odometer.level + 1)) +
        outerMoves factors odometer.frames odometer.level := by
  simp only [movesLeft, found]

theorem outerRest_congr {frames others : Array Frame} {level : Nat}
    (same : ∀ i < level, frames[i]? = others[i]?) :
    outerRest expansion factors frames level = outerRest expansion factors others level := by
  induction level with
  | zero => rfl
  | succ level ih =>
    have below := ih fun i bound => same i (by omega)
    simp only [outerRest, same level (by omega), below]

theorem outerMoves_congr {frames others : Array Frame} {level : Nat}
    (same : ∀ i < level, frames[i]? = others[i]?) :
    outerMoves factors frames level = outerMoves factors others level := by
  induction level with
  | zero => rfl
  | succ level ih =>
    have below := ih fun i bound => same i (by omega)
    simp only [outerMoves, same level (by omega), below]


/-! ## Frames -/

theorem Framed.lookup {frames : Array Frame} (framed : Framed factors frames) {level : Nat}
    (bound : level < factors.length) :
    ∃ frame : Frame, frames[level]? = some frame ∧ factors.drop level = frame.factor :: factors.drop (level + 1) ∧
      frame.features = frame.group.features.toArray := by
  have inside : level < frames.size := framed.size_eq ▸ bound
  have found : frames[level]? = some frames[level] := Array.getElem?_eq_getElem inside
  obtain ⟨carried, features⟩ := framed.carries level _ found
  refine ⟨frames[level], found, ?_, features⟩
  rw [List.drop_eq_getElem_cons bound]
  rw [List.getElem?_eq_getElem bound] at carried
  rw [Option.some.inj carried]

-- Only the way through the groups changes, and never what stands in front of the first frame.
theorem Framed.modify {frames : Array Frame} (framed : Framed factors frames) (level : Nat)
    (f : Frame → Frame) (group : ∀ frame, (f frame).group = frame.group)
    (tied : ∀ frame, (f frame).tied = frame.tied) (features : ∀ frame, (f frame).features = frame.features)
    (starts : level = 0 → ∀ frame, (f frame).value = frame.value ∧ (f frame).fold = frame.fold) :
    Framed factors (frames.modify level f) where
  size_eq := by rw [Array.size_modify, framed.size_eq]
  carries := by
    intro i frame found
    rw [Array.getElem?_modify] at found
    split at found
    case isTrue =>
      obtain ⟨before, foundBefore, rfl⟩ := Option.map_eq_some_iff.1 found
      simpa [Frame.factor, group, tied, features] using framed.carries i before foundBefore
    case isFalse => exact framed.carries i frame found
  first := by
    intro frame found
    rw [Array.getElem?_modify] at found
    split at found
    case isTrue atFirst =>
      obtain ⟨before, foundBefore, rfl⟩ := Option.map_eq_some_iff.1 found
      rw [(starts atFirst before).1, (starts atFirst before).2]
      exact framed.first before foundBefore
    case isFalse => exact framed.first frame found

theorem getElem?_modify_self {frames : Array Frame} {level : Nat} {frame : Frame}
    (found : frames[level]? = some frame) (f : Frame → Frame) :
    (frames.modify level f)[level]? = some (f frame) := by
  rw [Array.getElem?_modify, if_pos rfl, found]
  rfl

theorem getElem?_modify_below {frames : Array Frame} {i level : Nat} (below : i < level) (f : Frame → Frame) :
    (frames.modify level f)[i]? = frames[i]? := by
  rw [Array.getElem?_modify, if_neg (by omega)]

/-! ## One move -/

theorem carry_succ {level : Nat} {frames : Array Frame} {frame : Frame} (found : frames[level]? = some frame) :
    carry expansion (level + 1) frames =
      let advanced := frames.modify level Frame.advance
      if frame.position + 1 < frame.features.size then
        ((Emission.leaving expansion.audit).events, some { frames := advanced, level })
      else
        ((Emission.leaving expansion.audit).events ++ (carry expansion level advanced).1,
          (carry expansion level advanced).2) := by
  have advanced := getElem?_modify_self found Frame.advance
  simp only [carry]
  change (match (frames.modify level Frame.advance)[level]? with | none => _ | some frame => _) = _
  rw [advanced]
  rfl

theorem Continues.behind {left : Emission} {moves : Nat} {emitted : Emission} {next : Option Odometer}
    (continues : Continues expansion permutations factors left moves emitted next) (front : Emission) :
    Continues expansion permutations factors (front.append left) moves (front.append emitted) next := by
  cases next with
  | none => exact congrArg front.append continues
  | some next =>
    obtain ⟨same, fewer, sound⟩ := continues
    exact ⟨by rw [same, Emission.append_assoc], fewer, sound⟩

theorem Continues.mono {left : Emission} {moves more : Nat} {emitted : Emission} {next : Option Odometer}
    (continues : Continues expansion permutations factors left moves emitted next) (bound : moves ≤ more) :
    Continues expansion permutations factors left more emitted next := by
  cases next with
  | none => exact continues
  | some next => exact ⟨continues.1, Nat.le_trans continues.2.1 bound, continues.2.2⟩

theorem Framed.advance {frames : Array Frame} (framed : Framed factors frames) (level : Nat) :
    Framed factors (frames.modify level Frame.advance) :=
  framed.modify level _ (fun _ => rfl) (fun _ => rfl) (fun _ => rfl) fun _ _ => ⟨rfl, rfl⟩

theorem Framed.sound_advance {frames : Array Frame} (framed : Framed factors frames) {level : Nat} {frame : Frame}
    (found : frames[level]? = some frame) (bound : level + 1 < factors.length)
    (positions : ∀ (i : Nat) (frame : Frame), i < level → frames[i]? = some frame →
      frame.position < frame.group.length)
    (room : frame.position + 1 < frame.group.length) :
    Sound permutations factors { frames := frames.modify level Frame.advance, level } := by
  refine ⟨framed.advance level, Nat.lt_of_succ_lt bound, ?_, ?_⟩
  · intro i other upTo lookup
    rcases Nat.lt_or_eq_of_le upTo with before | rfl
    · exact positions i other before ((getElem?_modify_below before _).symm ▸ lookup)
    · rw [getElem?_modify_self found] at lookup
      cases lookup
      exact room
  · intro _ last
    simp only at last
    omega

theorem carry_continues {level : Nat} {frames : Array Frame} (framed : Framed factors frames)
    (bound : level < factors.length)
    (positions : ∀ (i : Nat) (frame : Frame), i < level → frames[i]? = some frame →
      frame.position < frame.group.length) :
    Continues expansion permutations factors (outerRest expansion factors frames level)
      (outerMoves factors frames level) ⟨(carry expansion level frames).1, 0⟩
      (carry expansion level frames).2 := by
  induction level generalizing frames with
  | zero => rfl
  | succ level ih =>
    obtain ⟨frame, found, -, features⟩ := framed.lookup (show level < factors.length by omega)
    have length : frame.features.size = frame.group.length := by rw [features]; rfl
    have inner : (factors.drop (level + 1)).isEmpty = false := by
      rw [List.isEmpty_eq_false_iff, ne_eq, List.drop_eq_nil_iff]
      omega
    have advanced := getElem?_modify_self found Frame.advance
    have below : ∀ i < level, frames[i]? = (frames.modify level Frame.advance)[i]? := fun i below =>
      (getElem?_modify_below below _).symm
    have before : ∀ (i : Nat) (frame : Frame), i < level → frames[i]? = some frame →
        frame.position < frame.group.length := fun i frame inside => positions i frame (Nat.lt_succ_of_lt inside)
    have rests : outerRest expansion factors frames level = outerRest expansion factors _ level :=
      outerRest_congr below
    have moves : outerMoves factors frames level = outerMoves factors _ level := outerMoves_congr below
    rw [carry_succ found, length, outerRest_succ found, outerMoves_succ found, rests, moves]
    by_cases room : frame.position + 1 < frame.group.length
    · rw [if_pos room]
      refine ⟨?_, ?_, framed.sound_advance found bound before room⟩
      · rw [rest_eq advanced]
        rfl
      · rw [movesLeft_eq advanced, Factor.costFrom, inner]
        exact Nat.le_refl _
    · -- The frame is exhausted: its loop is over, and the carry goes on in front of it.
      rw [if_neg room]
      have finished : frame.loops expansion (frame.position + 1) (factors.drop (level + 1)) = .empty :=
        expansion.around_of_le frame.group (Nat.le_of_not_lt room) _ _ _
      have onward := ih (framed.advance level) (Nat.lt_of_succ_lt bound) fun i other inside lookup =>
        before i other inside (below i inside ▸ lookup)
      rw [finished, Emission.empty_append]
      exact (onward.behind (Emission.leaving expansion.audit)).mono (Nat.le_add_left _ _)

theorem move_down {odometer : Odometer} {frame : Frame} {feature : Feature}
    (found : odometer.frames[odometer.level]? = some frame)
    (inside : odometer.level + 1 < odometer.frames.size) (chosen : frame.feature? = some feature)
    (starts : odometer.level = 0 → frame.value = 1 ∧ frame.fold = .start) :
    odometer.move expansion permutations =
      (.entering expansion.audit (frame.group.labelAt frame.position), some (odometer.down frame feature)) := by
  have choice := frame.choose_eq (odometer.level == 0) feature fun first => starts (beq_iff_eq.1 first)
  simp only [move, found, if_pos inside, chosen, descend, choice]
  rfl

theorem move_along {odometer : Odometer} {frame : Frame}
    (found : odometer.frames[odometer.level]? = some frame)
    (last : odometer.level + 1 = odometer.frames.size) (start : permutations = true → frame.position = 0) :
    odometer.move expansion permutations =
      ((frame.loops expansion frame.position []).append ⟨(carry expansion odometer.level odometer.frames).1, 0⟩,
        (carry expansion odometer.level odometer.frames).2) := by
  have from_position : (if permutations = true then 0 else frame.position) = frame.position := by
    split
    case isTrue all => exact (start all).symm
    case isFalse => rfl
  simp only [move, found, if_neg (show ¬ odometer.level + 1 < odometer.frames.size by omega), from_position,
    Expansion.last_eq_around]
  rfl

theorem Sound.lookup {odometer : Odometer} (sound : odometer.Sound permutations factors) :
    ∃ frame : Frame, odometer.frames[odometer.level]? = some frame ∧
      factors.drop odometer.level = frame.factor :: factors.drop (odometer.level + 1) ∧
      ∃ bound : frame.position < frame.group.length,
        frame.feature? = some frame.group.features[frame.position] := by
  obtain ⟨frame, found, inner, features⟩ := sound.framed.lookup sound.level_lt
  have bound := sound.position_lt _ frame (Nat.le_refl _) found
  refine ⟨frame, found, inner, bound, ?_⟩
  simp only [Frame.feature?, features, List.getElem?_toArray]
  exact List.getElem?_eq_getElem bound

/-! ### A step down -/

section Down

variable {odometer : Odometer} {frame next : Frame}

theorem down_found (feature : Feature) (foundNext : odometer.frames[odometer.level + 1]? = some next) :
    (odometer.down frame feature).frames[(odometer.down frame feature).level]? =
      some (next.enter frame.position (frame.value * feature.value) (frame.fold.pushIndex feature.index)) :=
  getElem?_modify_self foundNext _

theorem down_below (frame : Frame) (feature : Feature) {i : Nat} (below : i < odometer.level + 1) :
    odometer.frames[i]? = (odometer.down frame feature).frames[i]? :=
  (getElem?_modify_below below _).symm

-- A step down enters the label of the chosen feature, and the loops inside it come first.
theorem rest_down (found : odometer.frames[odometer.level]? = some frame)
    (foundNext : odometer.frames[odometer.level + 1]? = some next)
    (inner : factors.drop (odometer.level + 1) = next.factor :: factors.drop (odometer.level + 2))
    (bound : frame.position < frame.group.length) :
    odometer.rest expansion factors =
      (Emission.entering expansion.audit (frame.group.labelAt frame.position)).append
        ((odometer.down frame frame.group.features[frame.position]).rest expansion factors) := by
  have turn : frame.loops expansion frame.position (factors.drop (odometer.level + 1)) = _ :=
    expansion.around_of_lt frame.group bound _ _ _
  have same := @outerRest_congr expansion factors _ _ _ fun i => @down_below odometer frame
    frame.group.features[frame.position] i
  rw [rest_eq found, turn, rest_eq (down_found _ foundNext), Emission.nested_eq, Emission.append_assoc,
    Emission.append_assoc, Emission.append_assoc]
  change _ = Emission.append _ (Emission.append _ (outerRest _ _ _ (odometer.level + 1)))
  rw [← same, outerRest_succ found, inner]
  rfl

theorem movesLeft_down (found : odometer.frames[odometer.level]? = some frame)
    (foundNext : odometer.frames[odometer.level + 1]? = some next)
    (inner : factors.drop (odometer.level + 1) = next.factor :: factors.drop (odometer.level + 2))
    (bound : frame.position < frame.group.length) (feature : Feature) :
    (odometer.down frame feature).movesLeft factors ≤ odometer.movesLeft factors - 1 := by
  have same := @outerMoves_congr factors _ _ _ fun i => @down_below odometer frame feature i
  rw [movesLeft_eq found, movesLeft_eq (down_found _ foundNext)]
  change _ + outerMoves _ _ (odometer.level + 1) ≤ _
  rw [← same, outerMoves_succ found, inner]
  have fresh := Factor.costFrom_le next.factor (next.factor.start frame.position) (factors.drop (odometer.level + 2))
  rw [frame.factor.costFrom_of_lt bound]
  change next.factor.costFrom (next.factor.start frame.position) (factors.drop (odometer.level + 2)) +
    ((frame.factor.group.length - _) * _ + _) ≤ _
  omega

theorem Sound.down (sound : odometer.Sound permutations factors) (linked : Factor.Linked permutations factors)
    (inside : odometer.level + 1 < factors.length) (foundNext : odometer.frames[odometer.level + 1]? = some next)
    (inner : factors.drop odometer.level = frame.factor :: next.factor :: factors.drop (odometer.level + 2))
    (bound : frame.position < frame.group.length) (feature : Feature) :
    (odometer.down frame feature).Sound permutations factors := by
  refine ⟨?_, inside, ?_, ?_⟩
  · exact sound.framed.modify (odometer.level + 1) (fun next => next.enter _ _ _) (fun _ => rfl) (fun _ => rfl)
      (fun _ => rfl) fun first => absurd first (Nat.succ_ne_zero _)
  · intro i other upTo lookup
    rcases Nat.lt_or_eq_of_le upTo with before | rfl
    · exact sound.position_lt i other (Nat.le_of_lt_succ before) (down_below frame feature before ▸ lookup)
    · rw [down_found feature foundNext] at lookup
      cases lookup
      exact linked.start_lt inner bound
  · intro all _ other lookup
    rw [down_found feature foundNext] at lookup
    cases lookup
    -- Where all orders are wanted no factor is tied, so each loop starts at its beginning.
    have free : next.factor.tied = false := by
      apply linked.free all
      apply List.mem_of_mem_drop (i := odometer.level)
      rw [inner]
      simp
    simp [Frame.enter, Factor.start, free]

theorem down_continues (linked : Factor.Linked permutations factors) (sound : odometer.Sound permutations factors)
    (inside : odometer.level + 1 < factors.length) (found : odometer.frames[odometer.level]? = some frame)
    (bound : frame.position < frame.group.length) :
    Continues expansion permutations factors (odometer.rest expansion factors)
      (odometer.movesLeft factors - 1) (.entering expansion.audit (frame.group.labelAt frame.position))
      (some (odometer.down frame frame.group.features[frame.position])) := by
  obtain ⟨next, foundNext, onward, -⟩ := sound.framed.lookup inside
  obtain ⟨frame', found', inner, -⟩ := sound.framed.lookup sound.level_lt
  obtain rfl : frame = frame' := Option.some.inj (found.symm.trans found')
  rw [onward] at inner
  exact ⟨rest_down found foundNext onward bound, movesLeft_down found foundNext onward bound _,
    sound.down linked inside foundNext inner bound _⟩

end Down

theorem move_continues (linked : Factor.Linked permutations factors) {odometer : Odometer}
    (sound : odometer.Sound permutations factors) :
    Continues expansion permutations factors (odometer.rest expansion factors)
      (odometer.movesLeft factors - 1) (odometer.move expansion permutations).1
      (odometer.move expansion permutations).2 := by
  obtain ⟨frame, found, inner, bound, chosen⟩ := sound.lookup
  have size := sound.framed.size_eq
  by_cases inside : odometer.level + 1 < factors.length
  · rw [move_down found (size.symm ▸ inside) chosen fun first => sound.framed.first frame (first ▸ found)]
    exact down_continues linked sound inside found bound
  · -- The last group: run through it, and carry into the frames in front.
    have last : odometer.level + 1 = factors.length := Nat.le_antisymm sound.level_lt (Nat.le_of_not_lt inside)
    have nothing : factors.drop (odometer.level + 1) = [] := by rw [last, List.drop_length]
    rw [move_along found (size.symm ▸ last) fun all => sound.last_start all last frame found, rest_eq found,
      movesLeft_eq found, nothing]
    have carried := @carry_continues expansion permutations _ _ _ sound.framed sound.level_lt
      fun i other before lookup => sound.position_lt i other (Nat.le_of_lt before) lookup
    exact (carried.behind _).mono (by simp [Factor.costFrom])

/-! ## The whole walk -/

theorem Sound.movesLeft_pos {odometer : Odometer} (sound : odometer.Sound permutations factors) :
    0 < odometer.movesLeft factors := by
  obtain ⟨frame, found, -, bound, -⟩ := sound.lookup
  rw [movesLeft_eq found]
  cases factors.drop (odometer.level + 1) with
  | nil => simp [Factor.costFrom]
  | cons next others =>
    rw [frame.factor.costFrom_of_lt bound]
    omega

/-- A walk with enough moves emits what its state has left. -/
theorem walk_eq (linked : Factor.Linked permutations factors) (fuel : Nat) (emitted : List Emission)
    {odometer : Odometer} (sound : odometer.Sound permutations factors)
    (enough : odometer.movesLeft factors ≤ fuel) :
    (odometer.walk expansion permutations fuel emitted).1 =
      (Emission.concat emitted.reverse).append (odometer.rest expansion factors) := by
  induction fuel generalizing emitted odometer with
  | zero => exact absurd sound.movesLeft_pos (by omega)
  | succ fuel ih =>
    have continues := @move_continues expansion permutations _ linked _ sound
    unfold walk
    cases moved : odometer.move expansion permutations with
    | mk emission next =>
      rw [moved] at continues
      cases next with
      | none =>
        have last : odometer.rest expansion factors = emission := continues
        simp only [last, List.reverse_cons, Emission.concat_append, Emission.concat_cons,
          Emission.concat_nil, Emission.append_empty]
      | some next =>
        obtain ⟨same, fewer, stays⟩ := continues
        simp only [ih (emission :: emitted) stays (by omega), same, List.reverse_cons, Emission.concat_append,
          Emission.concat_cons, Emission.concat_nil, Emission.append_empty, Emission.append_assoc]

theorem frames_start (scratch : Scratch) (factors : List Factor) :
    (start scratch factors).frames = (factors.map Frame.ofFactor).toArray := by
  simp [start, List.foldl_push_eq_append]

theorem sound_start (linked : Factor.Linked permutations factors) (scratch : Scratch) (nonempty : factors ≠ []) :
    (start scratch factors).Sound permutations factors := by
  have frames := frames_start scratch factors
  have fresh : ∀ (i : Nat) (frame : Frame), (start scratch factors).frames[i]? = some frame →
      ∃ factor, factors[i]? = some factor ∧ .ofFactor factor = frame := by
    intro i frame found
    rw [frames, List.getElem?_toArray, List.getElem?_map] at found
    exact Option.map_eq_some_iff.1 found
  refine ⟨⟨by simp [frames], ?_, ?_⟩, List.length_pos_iff.2 nonempty, ?_, ?_⟩
  · intro i frame found
    obtain ⟨factor, carried, rfl⟩ := fresh i frame found
    exact ⟨carried, rfl⟩
  · intro frame found
    obtain ⟨factor, -, rfl⟩ := fresh 0 frame found
    exact ⟨rfl, rfl⟩
  · intro i frame _ found
    obtain ⟨factor, carried, rfl⟩ := fresh i frame found
    exact linked.filled factor (List.mem_of_getElem? carried)
  · intro _ _ frame found
    obtain ⟨factor, -, rfl⟩ := fresh _ frame found
    rfl

theorem rest_start (scratch : Scratch) (first : Factor) (inner : List Factor) :
    (start scratch (first :: inner)).rest expansion (first :: inner) =
      expansion.loops (first :: inner) 0 1 .start := by
  have found : (start scratch (first :: inner)).frames[(start scratch (first :: inner)).level]? =
      some (.ofFactor first) := by
    rw [frames_start]
    rfl
  have begins : first.start 0 = 0 := by simp [Factor.start]
  rw [rest_eq found, Expansion.loops, begins]
  exact Emission.append_empty _

theorem budget_eq (factors : List Factor) :
    budget factors = factors.length * (factors.map fun factor => factor.group.length).prod := by
  have scaled : ∀ moves, factors.foldl (fun moves factor => moves * factor.group.length) moves =
      moves * (factors.map fun factor => factor.group.length).prod := by
    induction factors with
    | nil => simp
    | cons factor others ih =>
      intro moves
      rw [List.foldl_cons, ih, List.map_cons, List.prod_cons, Nat.mul_assoc]
  exact scaled _

-- Every choice of positions is met at most once at each level.
theorem cost_le_budget {factors : List Factor} (filled : ∀ factor ∈ factors, 0 < factor.group.length) :
    Factor.cost factors ≤ budget factors := by
  rw [budget_eq]
  induction factors with
  | nil => exact Nat.le_refl 0
  | cons factor inner ih =>
    have positive := filled factor (by simp)
    have others : ∀ factor ∈ inner, 0 < factor.group.length := fun factor member => filled factor (by simp [member])
    have choices : 0 < (inner.map fun factor => factor.group.length).prod := by
      rw [List.prod_pos_iff_forall_pos_nat]
      intro length member
      obtain ⟨factor, inside, rfl⟩ := List.mem_map.1 member
      exact others factor inside
    have below := ih others
    cases inner with
    | nil => simpa [Factor.cost] using Nat.succ_le_of_lt positive
    | cons next rest =>
      rw [List.map_cons, List.prod_cons, List.length_cons]
      change factor.group.length * (1 + Factor.cost (next :: rest)) ≤ _
      calc factor.group.length * (1 + Factor.cost (next :: rest))
          ≤ factor.group.length * (_ + (next :: rest).length * _) :=
            Nat.mul_le_mul_left _ (Nat.add_le_add choices below)
        _ = _ := by ring

theorem movesLeft_start (linked : Factor.Linked permutations factors) (scratch : Scratch)
    (nonempty : factors ≠ []) :
    (start scratch factors).movesLeft factors ≤ budget factors := by
  obtain ⟨first, inner, rfl⟩ := List.exists_cons_of_ne_nil nonempty
  have found : (start scratch (first :: inner)).frames[(start scratch (first :: inner)).level]? =
      some (.ofFactor first) := by
    rw [frames_start]
    rfl
  rw [movesLeft_eq found]
  exact Nat.le_trans (first.costFrom_le 0 inner) (cost_le_budget linked.filled)

end Odometer

namespace Expansion

theorem odometer_eq_loops {expansion : Expansion} {permutations : Bool} {factors : List Factor}
    (linked : Factor.Linked permutations factors) (nonempty : factors ≠ []) (scratch : Scratch) :
    (expansion.odometer permutations factors scratch).1 = expansion.loops factors 0 1 .start := by
  obtain ⟨first, inner, rfl⟩ := List.exists_cons_of_ne_nil nonempty
  rw [odometer, Odometer.walk_eq linked _ _ (Odometer.sound_start linked scratch nonempty)
    (Odometer.movesLeft_start linked scratch nonempty), Odometer.rest_start]
  exact Emission.empty_append _

end Expansion

end HashedFeatures
