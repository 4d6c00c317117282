import HashedFeatures.Example.Scope
import HashedFeatures.Example.Transplant
import HashedFeatures.Example.Unique
import HashedFeatures.Expansion.Traversal
import HashedFeatures.Ngram.Generate
import HashedFeatures.Proofs.Attempt.Invariant

/-! What can be done with an example.

No operation leaves a remembered fingerprint behind that is not the fingerprint of the feature space.
-/

set_option autoImplicit false

namespace HashedFeatures.Example

open Attempt (Keeps)

inductive Operation where
  /-- Work on the group of a namespace, which starts to exist if it does not. -/
  | onGroup (address : Address) (work : Attempt Group Unit)
  /-- Work on every group, in ascending order of the namespaces. -/
  | onGroups (work : UInt8 → Attempt Group Unit)
  | setGroup (ns : UInt8) (group : Group)
  | delete (address : Address)
  | deleteAll
  | appendGroup (ns : UInt8) (group : Group)
  | truncateGroup (ns : UInt8) (group : Group)
  | appendFrom (source : Example)
  | truncateFrom (source : Example)
  | uniqueSort (mask : UInt64)
  | generate (ngrams : Ngrams)
  /-- Shift every index to the left and back. -/
  | shift (width : Nat)
  | flatten (ignored : NamespaceSet) (permutations : Bool) (hashBits : UInt32) (mask : UInt64) (scratch : Scratch)
  | setScale (scale : UInt64)
  | setOffset (offset : UInt64)
  | setInteractions (terms : List Term)
  | fingerprint
  | forgetFingerprint
  | stop (fault : Fault)

def Operation.attempt : Operation → Attempt Example Unit
  | .onGroup address work => Example.onGroup address work
  | .onGroups work => do
    modify (·.withSpace id)
    (← get).space.namespaces.forM fun ns => Example.onGroup (.id ns) (work ns)
  | .setGroup ns group => modify (·.setGroup ns group)
  | .delete address => modify fun ec => ec.delete (ec.resolve address)
  | .deleteAll => modify Example.deleteAll
  | .appendGroup ns group => Example.appendGroup ns group
  | .truncateGroup ns group => Example.truncateGroup ns group
  | .appendFrom source => Example.appendFrom source
  | .truncateFrom source => Example.truncateFrom source
  | .uniqueSort mask => Example.uniqueSort mask
  | .generate ngrams => ngrams.generate
  | .shift width => underShift width (pure ())
  | .flatten ignored permutations hashBits mask scratch => do
    let _ ← Example.flatten ignored permutations hashBits mask scratch
  | .setScale scale => modify fun ec => { ec with scale }
  | .setOffset offset => modify fun ec => { ec with offset }
  | .setInteractions interactions => modify fun ec => { ec with interactions }
  | .fingerprint => do
    let _ ← Example.fingerprint
  | .forgetFingerprint => modify Example.forgetFingerprint
  | .stop fault => throw fault

/-- A remembered fingerprint is that of the space. -/
def Coherent (ec : Example) : Prop :=
  ∀ known, ec.remembered = some known → known = ec.space.fingerprint

theorem coherent_new (seed : UInt64) : (new seed).Coherent := nofun

-- What changes the space forgets the fingerprint.
theorem coherent_withSpace (ec : Example) (f : Space → Space) : (ec.withSpace f).Coherent := nofun

/-- The fingerprint of a coherent example is that of its space, remembered or not. -/
theorem Coherent.run_fingerprint {ec : Example} (coherent : ec.Coherent) :
    fingerprint.run ec =
      (.ok ec.space.fingerprint, { ec with remembered := some ec.space.fingerprint }) := by
  unfold fingerprint
  rw [Attempt.run_bind, Attempt.run_get]
  obtain ⟨scale, offset, interactions, seed, space, remembered⟩ := ec
  cases remembered with
  | none => rfl
  | some known =>
    have same : known = space.fingerprint := coherent known rfl
    rw [same]
    rfl

theorem get?_setGroup (ec : Example) (ns other : UInt8) (group : Group) :
    (ec.setGroup ns group).space.get? other = if ns = other then some group else ec.space.get? other :=
  Space.get?_insert ec.space ns other group

theorem forall_get?_new {P : UInt8 → Group → Prop} (seed : UInt64) :
    ∀ ns found, (new seed).space.get? ns = some found → P ns found := by
  intro ns found present
  rw [new, Space.get?_empty] at present
  cases present

theorem forall_get?_setGroup {P : UInt8 → Group → Prop} {ec : Example} {ns : UInt8} {group : Group}
    (others : ∀ other found, ec.space.get? other = some found → P other found) (own : P ns group) :
    ∀ other found, (ec.setGroup ns group).space.get? other = some found → P other found := by
  intro other found present
  rw [get?_setGroup] at present
  split at present
  case isTrue same =>
    cases present
    exact same ▸ own
  case isFalse => exact others other found present

theorem forall_get?_single {P : UInt8 → Group → Prop} {seed : UInt64} {ns : UInt8} {group : Group} (own : P ns group) :
    ∀ other found, ((new seed).setGroup ns group).space.get? other = some found → P other found :=
  forall_get?_setGroup (forall_get?_new seed) own

theorem run_onGroup {α : Type} (address : Address) (step : Attempt Group α) (ec : Example) :
    (onGroup address step).run ec =
      let work := step.run ((ec.touch address).group address)
      (work.1, (ec.touch address).setGroup (ec.resolve address) work.2) := by
  unfold onGroup
  rw [Attempt.run_bind, Attempt.run_modify]
  dsimp only
  rw [Attempt.run_focus]
  cases address <;> rfl

theorem get?_touch (ec : Example) (address : Address) (other : UInt8) :
    (ec.touch address).space.get? other =
      if ec.resolve address = other then some (ec.group address) else ec.space.get? other :=
  Space.get?_insert ec.space (ec.resolve address) other (ec.group address)

theorem group_touch (ec : Example) (address : Address) : (ec.touch address).group address = ec.group address := by
  have same : (ec.touch address).resolve address = ec.resolve address := by cases address <;> rfl
  have own : (ec.touch address).get? address = some (ec.group address) := by
    rw [get?, same, get?_touch, if_pos rfl]
  rw [group, own, Option.getD_some]

theorem get?_run_onGroup {α : Type} (ec : Example) (address : Address) (step : Attempt Group α) (other : UInt8) :
    ((onGroup address step).run ec).2.space.get? other =
      if ec.resolve address = other then some (step.run (ec.group address)).2 else ec.space.get? other := by
  rw [run_onGroup, group_touch]
  simp only [get?_setGroup, get?_touch]
  split <;> rfl

theorem keeps_onGroup {α : Type} (address : Address) (work : Attempt Group α) :
    Keeps Coherent (onGroup address work) :=
  (Keeps.modify fun _ _ => coherent_withSpace _ _).bind fun _ _ _ => coherent_withSpace _ _

theorem keeps_truncateGroup (ns : UInt8) (group : Group) : Keeps Coherent (truncateGroup ns group) := by
  intro ec coherent
  unfold truncateGroup
  rw [Attempt.run_make]
  split
  · exact coherent
  · split
    · exact coherent_withSpace _ _
    · -- The rest of the group takes its place, or the namespace goes with it.
      dsimp only
      split <;> exact coherent_withSpace _ _

theorem keeps_underShift {α : Type} (width : Nat) {body : Attempt Example α} (kept : Keeps Coherent body) :
    Keeps Coherent (underShift width body) := by
  unfold underShift
  split
  · exact kept
  · refine Keeps.get.bind fun ec => ?_
    split
    · exact Keeps.bind (fun _ _ => coherent_withSpace _ _) fun _ => Keeps.throw _
    · exact Keeps.scope (fun _ _ => coherent_withSpace _ _) (fun _ _ _ => coherent_withSpace _ _) kept

theorem keeps_flatten (ignored : NamespaceSet) (permutations : Bool) (hashBits : UInt32) (mask : UInt64)
    (scratch : Scratch) : Keeps Coherent (flatten ignored permutations hashBits mask scratch) := by
  refine Keeps.scope (fun _ coherent => coherent) (fun _ _ coherent => coherent) ?_
  refine Keeps.bind (Keeps.modify fun _ coherent => coherent) fun _ => Keeps.get.bind fun ec => ?_
  dsimp only
  split
  · exact Keeps.pure _
  · exact Keeps.throw _

theorem Operation.keeps (operation : Operation) : Keeps Coherent operation.attempt := by
  cases operation with
  | onGroup address work => exact keeps_onGroup address work
  | onGroups work =>
    refine (Keeps.modify fun _ _ => coherent_withSpace _ _).bind fun _ => Keeps.get.bind fun ec => ?_
    exact Keeps.forM fun ns => keeps_onGroup (.id ns) (work ns)
  | setGroup | delete | deleteAll => exact Keeps.modify fun _ _ => coherent_withSpace _ _
  | appendGroup ns group => exact keeps_onGroup _ _
  | truncateGroup ns group => exact keeps_truncateGroup ns group
  | appendFrom source => exact Keeps.forM fun (ns, group) => keeps_onGroup _ _
  | truncateFrom source => exact Keeps.forM fun (ns, group) => keeps_truncateGroup ns group
  | uniqueSort mask =>
    refine (Keeps.modify fun _ _ => coherent_withSpace _ _).bind fun _ => Keeps.get.bind fun ec => ?_
    exact Keeps.forM fun ns => keeps_onGroup _ _
  | generate ngrams =>
    refine Keeps.get.bind fun ec => Keeps.forM fun ns => ?_
    split
    · exact Keeps.pure _
    · exact keeps_onGroup _ _
  | shift width => exact keeps_underShift width (Keeps.pure ())
  | flatten ignored permutations hashBits mask scratch =>
    exact (keeps_flatten ignored permutations hashBits mask scratch).bind fun _ => Keeps.pure _
  | setScale | setOffset | setInteractions => exact Keeps.modify fun _ coherent => coherent
  | fingerprint =>
    refine Keeps.bind (fun ec coherent => ?_) fun _ => Keeps.pure _
    rw [coherent.run_fingerprint]
    intro known same
    exact (Option.some.inj same).symm
  | forgetFingerprint => exact Keeps.modify fun _ _ => nofun
  | stop fault => exact Keeps.throw fault

end HashedFeatures.Example
