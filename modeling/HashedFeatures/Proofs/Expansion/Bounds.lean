import HashedFeatures.Proofs.Expansion.Odometer

/-! No loop and no state of a walk leaves the groups that are crossed. -/

set_option autoImplicit false

namespace HashedFeatures

namespace Factor

/-- Every loop starts inside its group or right behind it, wherever the loops around it stand. -/
def InBounds : List Factor → Nat → Prop
  | [], _ => True
  | factor :: inner, outer =>
    factor.start outer ≤ factor.group.length ∧
      ∀ p, factor.start outer ≤ p → p < factor.group.length → InBounds inner p

variable {permutations : Bool}

theorem Linked.tail {factor : Factor} {inner : List Factor} (linked : Linked permutations (factor :: inner)) :
    Linked permutations inner where
  filled := fun other member => linked.filled other (by simp [member])
  same := linked.same.tail
  free := fun all other member => linked.free all other (by simp [member])

theorem Linked.inBounds_of_start {factors : List Factor} (linked : Linked permutations factors) (outer : Nat)
    (begins : ∀ factor ∈ factors.head?, factor.start outer < factor.group.length) :
    InBounds factors outer := by
  induction factors generalizing outer with
  | nil => trivial
  | cons factor inner ih =>
    refine ⟨Nat.le_of_lt (begins factor rfl), ?_⟩
    intro p _ bound
    apply ih linked.tail
    intro next first
    obtain ⟨others, rfl⟩ : ∃ others, inner = next :: others := List.head?_eq_some_iff.1 first
    exact linked.start_lt (show (factor :: next :: others).drop 0 = _ from rfl) bound

theorem Linked.inBounds {factors : List Factor} (linked : Linked permutations factors) : InBounds factors 0 := by
  apply linked.inBounds_of_start
  intro factor first
  have begins : factor.start 0 = 0 := by simp [start]
  rw [begins]
  exact linked.filled factor (List.mem_of_mem_head? first)

end Factor

namespace Odometer

variable (expansion : Expansion) (permutations : Bool)

inductive Reaches (start : Odometer) : Odometer → Prop where
  | refl : Reaches start start
  | next {middle finish : Odometer} (before : Reaches start middle)
      (moved : (middle.move expansion permutations).2 = some finish) : Reaches start finish

structure InBounds (odometer : Odometer) : Prop where
  level_lt : odometer.level < odometer.frames.size
  features_eq : ∀ frame ∈ odometer.frames, frame.features = frame.group.features.toArray
  position_lt : ∀ (i : Nat) (frame : Frame), i ≤ odometer.level → odometer.frames[i]? = some frame →
    frame.position < frame.group.length

variable {expansion permutations} {factors : List Factor}

theorem Sound.inBounds {odometer : Odometer} (sound : odometer.Sound permutations factors) :
    odometer.InBounds where
  level_lt := sound.framed.size_eq ▸ sound.level_lt
  features_eq := by
    intro frame member
    obtain ⟨i, bound, rfl⟩ := Array.mem_iff_getElem.1 member
    exact (sound.framed.carries i _ (Array.getElem?_eq_getElem bound)).2
  position_lt := sound.position_lt

theorem Reaches.sound (linked : Factor.Linked permutations factors) {start finish : Odometer}
    (reaches : Reaches expansion permutations start finish) (sound : start.Sound permutations factors) :
    finish.Sound permutations factors := by
  induction reaches with
  | refl => exact sound
  | next before moved ih =>
    have continues := @move_continues expansion permutations _ linked _ ih
    rw [moved] at continues
    exact continues.2.2

theorem Reaches.inBounds (linked : Factor.Linked permutations factors) (nonempty : factors ≠ [])
    {scratch : Scratch} {odometer : Odometer}
    (reaches : Reaches expansion permutations (.start scratch factors) odometer) : odometer.InBounds :=
  (reaches.sound linked (sound_start linked scratch nonempty)).inBounds

end Odometer

end HashedFeatures
