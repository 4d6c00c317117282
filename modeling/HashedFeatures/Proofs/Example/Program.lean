import HashedFeatures.Proofs.Example.Operation

/-! Programs of operations in nested scopes.

A scope opens a guard on a part of the example. The guard ends with its body, whichever way the body ends.
-/

set_option autoImplicit false

namespace HashedFeatures.Example

inductive Part where
  | group (ns : UInt8)
  | interactions
  | scale
  | offset
  | seed
  deriving DecidableEq

/-- Two examples agree in a part, to the last bit. -/
def Part.Same (left right : Example) : Part → Prop
  | .group ns => left.space.get? ns = right.space.get? ns
  | .interactions => left.interactions = right.interactions
  | .scale => left.scale = right.scale
  | .offset => left.offset = right.offset
  | .seed => left.seed = right.seed

inductive Scope where
  | space
  | interactions
  | scaleOffset
  | offset (value : UInt64)
  | namespaceCopy (ns : UInt8)
  deriving DecidableEq

namespace Scope

def guard : Scope → Guard Example
  | .space => stashSpace
  | .interactions => stashInteractions
  | .scaleOffset => stashScaleOffset
  | .offset value => withOffset value
  | .namespaceCopy ns => copyNamespace ns

def Guards : Scope → Part → Prop
  | .space, .group _ => True
  | .interactions, .interactions => True
  | .scaleOffset, .scale | .scaleOffset, .offset => True
  | .offset _, .offset => True
  | .namespaceCopy ns, .group other => ns = other
  | _, _ => False

def close (scope : Scope) (created left : Example) : Example :=
  scope.guard.closed (scope.guard.save created) left

variable {scope : Scope} {part : Part} {ec : Example}

theorem same_created_of_guards (created left : Example) (guarded : scope.Guards part) :
    part.Same (scope.close created left) created := by
  cases scope with
  | space | interactions | scaleOffset | offset => cases part <;> first | rfl | exact guarded.elim
  | namespaceCopy ns =>
    cases part with
    | group other =>
      obtain rfl : ns = other := guarded
      exact Space.get?_put_self _ _ _
    | interactions | scale | offset | seed => exact guarded.elim

theorem same_left_of_not_guards (created left : Example) (free : ¬ scope.Guards part) :
    part.Same (scope.close created left) left := by
  cases scope with
  | space | interactions | scaleOffset | offset => cases part <;> first | rfl | exact (free trivial).elim
  | namespaceCopy ns =>
    cases part with
    | group other => exact Space.get?_put_of_ne _ _ free
    | interactions | scale | offset | seed => rfl

theorem coherent_opened (coherent : ec.Coherent) : (scope.guard.opened ec).Coherent := by
  cases scope with
  | space | interactions | scaleOffset | offset => exact coherent
  | namespaceCopy => exact coherent_withSpace _ _

theorem coherent_closed (saved : scope.guard.Saved) (coherent : ec.Coherent) :
    (scope.guard.closed saved ec).Coherent := by
  cases scope with
  | interactions | scaleOffset | offset => exact coherent
  | space | namespaceCopy => exact coherent_withSpace _ _

end Scope

structure Exit where
  scope : Scope
  /-- The example when the guard was created. -/
  created : Example
  /-- The example as the body of the scope left it. -/
  left : Example

def Exit.ended (exit : Exit) : Example := exit.scope.close exit.created exit.left

/-- A body: operations, scopes with bodies of their own, and bodies whose failure is caught. -/
inductive Program where
  | done
  | act (operation : Operation) (rest : Program)
  | within (scope : Scope) (body rest : Program)
  | recover (body rest : Program)

namespace Program

def attempt : Program → Attempt Example Unit
  | .done => pure ()
  | .act operation rest => do
    operation.attempt
    rest.attempt
  | .within scope body rest => do
    scope.guard.scope body.attempt
    rest.attempt
  | .recover body rest => do
    tryCatch body.attempt fun _ => pure ()
    rest.attempt

/-- The guards that end when the program runs, in the order of their ends. -/
def exits : Program → Example → List Exit
  | .done, _ => []
  | .act operation rest, ec =>
    match operation.attempt.run ec with
    | (.ok _, reached) => rest.exits reached
    | (.error _, _) => []
  | .within scope body rest, ec =>
    let (outcome, left) := body.attempt.run (scope.guard.opened ec)
    let exit : Exit := ⟨scope, ec, left⟩
    body.exits (scope.guard.opened ec) ++ exit ::
      match outcome with
      | .ok _ => rest.exits exit.ended
      | .error _ => []
  | .recover body rest, ec =>
    body.exits ec ++ rest.exits (body.attempt.run ec).2

theorem keeps (program : Program) : Attempt.Keeps Coherent program.attempt := by
  induction program with
  | done => exact Attempt.Keeps.pure _
  | act operation rest ih => exact operation.keeps.bind fun _ => ih
  | within scope body rest ihBody ihRest =>
    have inner : Attempt.Keeps Coherent (scope.guard.scope body.attempt) :=
      Attempt.Keeps.scope (fun _ => Scope.coherent_opened) (fun saved _ => Scope.coherent_closed saved) ihBody
    exact inner.bind fun _ => ihRest
  | recover body rest ihBody ihRest =>
    exact (ihBody.tryCatch fun _ => Attempt.Keeps.pure _).bind fun _ => ihRest

theorem coherent_created {program : Program} {ec : Example} (coherent : ec.Coherent) {exit : Exit}
    (member : exit ∈ program.exits ec) : exit.created.Coherent := by
  induction program generalizing ec with
  | done => exact absurd member List.not_mem_nil
  | act operation rest ih =>
    have kept := operation.keeps ec coherent
    unfold exits at member
    split at member
    · next reached run => exact ih (by rwa [run] at kept) member
    · exact absurd member List.not_mem_nil
  | within scope body rest ihBody ihRest =>
    have opened : (scope.guard.opened ec).Coherent := Scope.coherent_opened coherent
    have left := body.keeps _ opened
    unfold exits at member
    dsimp only at member
    rcases List.mem_append.1 member with inside | behind
    · exact ihBody opened inside
    · rcases List.mem_cons.1 behind with rfl | later
      · exact coherent
      · split at later
        · exact ihRest (Scope.coherent_closed _ left) later
        · exact absurd later List.not_mem_nil
  | recover body rest ihBody ihRest =>
    unfold exits at member
    rcases List.mem_append.1 member with inside | later
    · exact ihBody coherent inside
    · exact ihRest (body.keeps ec coherent) later

end Program

/-- The fingerprint asked for after the scope of the whole space is the one asked for before it. -/
theorem Exit.run_fingerprint {exit : Exit} (whole : exit.scope = .space) (coherent : exit.created.Coherent) :
    (fingerprint.run exit.ended).1 = (fingerprint.run exit.created).1 := by
  obtain ⟨scope, created, left⟩ := exit
  obtain rfl : scope = .space := whole
  have ended : (Exit.ended ⟨.space, created, left⟩).Coherent := coherent_withSpace _ _
  rw [ended.run_fingerprint, coherent.run_fingerprint]
  rfl

end HashedFeatures.Example
