import HashedFeatures.Proofs.Example.Program
import Mathlib.Logic.Relation

/-! Programs on a machine with a stack of guards.

The last guard that was created is the first that ends. A failure takes one guard after the other off the
stack, up to the handler that catches it.
-/

set_option autoImplicit false

namespace HashedFeatures.Example

inductive Instruction where
  | act (operation : Operation)
  | enter (scope : Scope)
  /-- Up to the matching end, a failure is followed by this code. -/
  | catch (resume : List Instruction)
  | leave

inductive Frame where
  /-- A guard, with the example that it was created on. -/
  | guard (scope : Scope) (created : Example)
  | handler (resume : List Instruction)

inductive Control where
  | running (code : List Instruction)
  | failing (fault : Fault)

def Control.after (code : List Instruction) : Except Fault Unit → Control
  | .ok _ => .running code
  | .error fault => .failing fault

structure Machine where
  control : Control
  ec : Example
  /-- The open guards and handlers, the last one first. -/
  frames : List Frame
  /-- The guards that have ended, the first one first. -/
  exits : List Exit

namespace Machine

def close (machine : Machine) (control : Control) (exit : Exit) (frames : List Frame) : Machine :=
  ⟨control, exit.ended, frames, machine.exits ++ [exit]⟩

/-- One step; a machine without code or without a handler for its failure has stopped. -/
def step (machine : Machine) : Option Machine :=
  match machine.control, machine.frames with
  | .running (.act operation :: code), frames =>
    let (outcome, reached) := operation.attempt.run machine.ec
    some ⟨.after code outcome, reached, frames, machine.exits⟩
  | .running (.enter scope :: code), frames =>
    some ⟨.running code, scope.guard.opened machine.ec, .guard scope machine.ec :: frames, machine.exits⟩
  | .running (.catch resume :: code), frames =>
    some ⟨.running code, machine.ec, .handler resume :: frames, machine.exits⟩
  | .running (.leave :: code), .guard scope created :: frames =>
    some (machine.close (.running code) ⟨scope, created, machine.ec⟩ frames)
  | .running (.leave :: code), .handler _ :: frames => some ⟨.running code, machine.ec, frames, machine.exits⟩
  | .failing fault, .guard scope created :: frames =>
    some (machine.close (.failing fault) ⟨scope, created, machine.ec⟩ frames)
  | .failing _, .handler resume :: frames => some ⟨.running resume, machine.ec, frames, machine.exits⟩
  | .running (.leave :: _), [] => none
  | .running [], _ => none
  | .failing _, [] => none

section

variable {code resume : List Instruction} {ec created : Example} {frames : List Frame} {exits : List Exit}
  {scope : Scope} {fault : Fault}

theorem step_act (operation : Operation) : step ⟨.running (.act operation :: code), ec, frames, exits⟩ =
    some ⟨.after code (operation.attempt.run ec).1, (operation.attempt.run ec).2, frames, exits⟩ := rfl

theorem step_enter : step ⟨.running (.enter scope :: code), ec, frames, exits⟩ =
    some ⟨.running code, scope.guard.opened ec, .guard scope ec :: frames, exits⟩ := rfl

theorem step_catch : step ⟨.running (.catch resume :: code), ec, frames, exits⟩ =
    some ⟨.running code, ec, .handler resume :: frames, exits⟩ := rfl

-- A guard ends alike after its body and on the way of a failure.
theorem step_leave_guard : step ⟨.running (.leave :: code), ec, .guard scope created :: frames, exits⟩ =
    some ⟨.running code, scope.close created ec, frames, exits ++ [⟨scope, created, ec⟩]⟩ := rfl

theorem step_fail_guard : step ⟨.failing fault, ec, .guard scope created :: frames, exits⟩ =
    some ⟨.failing fault, scope.close created ec, frames, exits ++ [⟨scope, created, ec⟩]⟩ := rfl

theorem step_leave_handler : step ⟨.running (.leave :: code), ec, .handler resume :: frames, exits⟩ =
    some ⟨.running code, ec, frames, exits⟩ := rfl

theorem step_fail_handler : step ⟨.failing fault, ec, .handler resume :: frames, exits⟩ =
    some ⟨.running resume, ec, frames, exits⟩ := rfl

end

def Reaches : Machine → Machine → Prop :=
  Relation.ReflTransGen fun machine next => machine.step = some next

def Halts (machine final : Machine) : Prop :=
  machine.Reaches final ∧ final.step = none

theorem Reaches.next {machine middle final : Machine} (first : machine.step = some middle)
    (rest : middle.Reaches final) : machine.Reaches final :=
  Relation.ReflTransGen.head first rest

theorem Reaches.trans {machine middle final : Machine} (first : machine.Reaches middle)
    (rest : middle.Reaches final) : machine.Reaches final :=
  Relation.ReflTransGen.trans first rest

theorem Halts.unique {machine left right : Machine} (first : machine.Halts left) (second : machine.Halts right) :
    left = right := by
  obtain ⟨reachesLeft, stoppedLeft⟩ := first
  obtain ⟨reachesRight, stoppedRight⟩ := second
  induction reachesLeft using Relation.ReflTransGen.head_induction_on with
  | refl =>
    rcases reachesRight.cases_head with same | ⟨next, move, -⟩
    · exact same
    · rw [stoppedLeft] at move
      exact nomatch move
  | head move _ ih =>
    rcases reachesRight.cases_head with rfl | ⟨next, other, rest⟩
    · rw [stoppedRight] at move
      exact nomatch move
    · obtain rfl : _ = next := Option.some.inj (move.symm.trans other)
      exact ih rest

end Machine

namespace Program

def code : Program → List Instruction → List Instruction
  | .done, behind => behind
  | .act operation rest, behind => .act operation :: rest.code behind
  | .within scope body rest, behind => .enter scope :: body.code (.leave :: rest.code behind)
  | .recover body rest, behind => .catch (rest.code behind) :: body.code (.leave :: rest.code behind)

def start (program : Program) (ec : Example) : Machine := ⟨.running (program.code []), ec, [], []⟩

open Machine in
/-- A program leads to the code behind it, or into failure, and leaves the stack as it was. -/
theorem reaches (program : Program) (behind : List Instruction) (ec : Example) (frames : List Frame)
    (exits : List Exit) :
    Reaches ⟨.running (program.code behind), ec, frames, exits⟩
      ⟨.after behind (program.attempt.run ec).1, (program.attempt.run ec).2, frames, exits ++ program.exits ec⟩ := by
  induction program generalizing behind ec frames exits with
  | done => rw [Program.exits, List.append_nil]; exact .refl
  | act operation rest ih =>
    refine Reaches.next (step_act operation) ?_
    rw [attempt, Attempt.run_bind, Program.exits]
    -- The rest runs only if the operation did not stop.
    match operation.attempt.run ec with
    | (.ok _, reached) => exact ih behind reached frames exits
    | (.error fault, reached) => rw [List.append_nil]; exact .refl
  | within scope body rest ihBody ihRest =>
    refine Reaches.next step_enter ((ihBody (.leave :: rest.code behind) _ (.guard scope ec :: frames) exits).trans ?_)
    rw [attempt, Attempt.run_bind, Guard.run_scope, Program.exits, ← List.append_assoc]
    generalize exits ++ body.exits (scope.guard.opened ec) = before
    match body.attempt.run (scope.guard.opened ec) with
    | (.ok _, left) =>
      refine Reaches.next step_leave_guard ?_
      have onward := ihRest behind (scope.close ec left) frames (before ++ [⟨scope, ec, left⟩])
      rwa [List.append_assoc] at onward
    | (.error fault, left) => exact Reaches.next step_fail_guard .refl
  | recover body rest ihBody ihRest =>
    refine Reaches.next step_catch ((ihBody (.leave :: rest.code behind) ec (.handler (rest.code behind) :: frames)
      exits).trans ?_)
    rw [attempt, Attempt.run_bind, Attempt.run_tryCatch, Program.exits, ← List.append_assoc]
    generalize exits ++ body.exits ec = before
    match body.attempt.run ec with
    | (.ok _, left) => exact Reaches.next step_leave_handler (ihRest behind left frames before)
    | (.error fault, left) => exact Reaches.next step_fail_handler (ihRest behind left frames before)

theorem halts (program : Program) (ec : Example) : (program.start ec).Halts
    ⟨.after [] (program.attempt.run ec).1, (program.attempt.run ec).2, [], program.exits ec⟩ := by
  refine ⟨program.reaches [] ec [] [], ?_⟩
  rcases (program.attempt.run ec).1 with fault | _ <;> rfl

/-- Every guard of a run gives back the part that it guards and leaves the others as its body did, whether
the body ends or fails. The guards end as on a stack. No fingerprint survives the scope of the whole space. -/
theorem guards_restore (program : Program) (ec : Example) :
    (∀ final, (program.start ec).Halts final ↔
        final = ⟨.after [] (program.attempt.run ec).1, (program.attempt.run ec).2, [], program.exits ec⟩) ∧
      (∀ exit ∈ program.exits ec, ∀ part : Part,
        (exit.scope.Guards part → part.Same exit.ended exit.created) ∧
          (¬ exit.scope.Guards part → part.Same exit.ended exit.left)) ∧
      (∀ seed, (program.attempt.run (new seed)).2.Coherent) ∧
      (ec.Coherent → ∀ exit ∈ program.exits ec, exit.scope = .space →
        ∃ print, (fingerprint.run exit.created).1 = .ok print ∧ (fingerprint.run exit.ended).1 = .ok print) := by
  refine ⟨fun final => ⟨fun halts => halts.unique (program.halts ec), ?_⟩, ?_, ?_, ?_⟩
  · rintro rfl
    exact program.halts ec
  · intro exit _ part
    exact ⟨Scope.same_created_of_guards exit.created exit.left, Scope.same_left_of_not_guards exit.created exit.left⟩
  · intro seed
    exact program.keeps (new seed) (coherent_new seed)
  · intro coherent exit member whole
    have created := coherent_created coherent member
    have same := Exit.run_fingerprint whole created
    rw [created.run_fingerprint] at same
    exact ⟨exit.created.space.fingerprint, by rw [created.run_fingerprint], same⟩

/-- Three guards in each other whose innermost body fails. -/
theorem guards_restore_nested :
    let ec := (new 0).setGroup 97 ((Group.named "user" 7).addNamed "age" .one true)
    let innermost := Program.act (.onGroup (.id 98) (modify (·.push 5 .one))) (.act (.stop .overflow) .done)
    let copied := Program.act (.delete (.id 97)) (.within (.namespaceCopy 98) innermost .done)
    let whole := Program.act (.setInteractions [[97, 98]]) (.within .space copied .done)
    let program := Program.recover (.within .interactions whole .done) (.act .fingerprint .done)
    (program.exits ec).map Exit.scope = [.namespaceCopy 98, .space, .interactions] ∧ ec.Coherent ∧
      (∀ exit ∈ program.exits ec, ∀ part : Part,
        (exit.scope.Guards part → part.Same exit.ended exit.created) ∧
          (¬ exit.scope.Guards part → part.Same exit.ended exit.left)) ∧
      ∀ exit ∈ program.exits ec, exit.scope = .space →
        ∃ print, (fingerprint.run exit.created).1 = .ok print ∧ (fingerprint.run exit.ended).1 = .ok print := by
  intro ec innermost copied whole program
  have coherent : ec.Coherent := coherent_withSpace _ _
  have restored := guards_restore program ec
  exact ⟨rfl, coherent, restored.2.1, restored.2.2.2 coherent⟩

end Program

end HashedFeatures.Example
