import HashedFeatures.Proofs.Example.Operation

/-! Steps that each work on one namespace.

A step is local if it looks at the group of its namespace and leaves the others alone. Local steps on different
namespaces do not meet: each of them finds the group that was there before all of them.
-/

set_option autoImplicit false

namespace HashedFeatures.Example

abbrev Change : Type := Option Group → Except Fault (Option Group)

/-- The step changes one namespace, and does so without a look at the others. -/
structure Local (ns : UInt8) (change : Change) (step : Attempt Example PUnit) : Prop where
  outcome : ∀ ec : Example, (step.run ec).1 = (change (ec.space.get? ns)).map fun _ => ⟨⟩
  reached : ∀ (ec : Example) (next : Option Group), change (ec.space.get? ns) = .ok next →
    ∀ other, (step.run ec).2.space.get? other = if ns = other then next else ec.space.get? other

variable {ι : Type} {key : ι → UInt8} {change : ι → Change} {step : ι → Attempt Example PUnit} {items : List ι}
  {ec reached : Example}

theorem Local.run_eq_ok {ns : UInt8} {change : Change} {step : Attempt Example PUnit} (own : Local ns change step)
    {next : Option Group} (changed : change (ec.space.get? ns) = .ok next) :
    ∃ middle, step.run ec = (.ok ⟨⟩, middle) ∧
      ∀ other, middle.space.get? other = if ns = other then next else ec.space.get? other := by
  have outcome := own.outcome ec
  rw [changed] at outcome
  exact ⟨_, Prod.ext outcome rfl, own.reached ec next changed⟩

-- Later steps find their groups as they were before the first step.
theorem get?_of_fresh {ns other : UInt8} {next : Option Group} {middle : Example}
    (each : ∀ other, middle.space.get? other = if ns = other then next else ec.space.get? other) (apart : ns ≠ other) :
    middle.space.get? other = ec.space.get? other := by
  rw [each, if_neg apart]

/-- Local steps on different namespaces go through if each of them does. -/
theorem run_forM_local_ok (ec : Example) (distinct : (items.map key).Nodup)
    (each : ∀ item ∈ items, Local (key item) (change item) (step item))
    (changes : ∀ item ∈ items, ∃ next, change item (ec.space.get? (key item)) = .ok next) :
    ∃ reached, (items.forM step).run ec = (.ok ⟨⟩, reached) := by
  induction items generalizing ec with
  | nil => exact ⟨ec, rfl⟩
  | cons item items ih =>
    obtain ⟨fresh, distinct⟩ := List.nodup_cons.1 distinct
    obtain ⟨own, others⟩ := List.forall_mem_cons.1 each
    obtain ⟨⟨next, changed⟩, rest⟩ := List.forall_mem_cons.1 changes
    obtain ⟨middle, run, left⟩ := own.run_eq_ok changed
    obtain ⟨reached, onward⟩ := ih middle distinct others fun other member => by
      rw [get?_of_fresh left fun same => fresh (List.mem_map.2 ⟨other, member, same.symm⟩)]
      exact rest other member
    exact ⟨reached, (Attempt.run_bind_ok run).trans onward⟩

/-- When local steps on different namespaces have gone through, each has changed its group, and all others are there as
before. -/
theorem run_forM_local (distinct : (items.map key).Nodup)
    (each : ∀ item ∈ items, Local (key item) (change item) (step item))
    (done : (items.forM step).run ec = (.ok ⟨⟩, reached)) :
    (∀ item ∈ items, change item (ec.space.get? (key item)) = .ok (reached.space.get? (key item))) ∧
      ∀ ns, ns ∉ items.map key → reached.space.get? ns = ec.space.get? ns := by
  induction items generalizing ec with
  | nil =>
    cases done
    exact ⟨nofun, fun _ _ => rfl⟩
  | cons item items ih =>
    obtain ⟨fresh, distinct⟩ := List.nodup_cons.1 distinct
    obtain ⟨own, others⟩ := List.forall_mem_cons.1 each
    obtain ⟨⟨⟩, middle, first, rest⟩ := Attempt.run_bind_eq_ok.1 done
    have outcome := own.outcome ec
    rw [first] at outcome
    cases changed : change item (ec.space.get? (key item)) with
    | error fault =>
      rw [changed] at outcome
      cases outcome
    | ok next =>
      have left := own.reached ec next changed
      rw [first] at left
      obtain ⟨later, untouched⟩ := ih distinct others rest
      refine ⟨List.forall_mem_cons.2 ⟨?_, fun other member => ?_⟩, fun ns outside => ?_⟩
      · rw [changed, untouched _ fresh, left, if_pos rfl]
      · rw [← later other member, get?_of_fresh left fun same => fresh (List.mem_map.2 ⟨other, member, same.symm⟩)]
      · rw [List.map_cons, List.mem_cons, not_or] at outside
        rw [untouched ns outside.2, get?_of_fresh left (Ne.symm outside.1)]

/-- What work on a group makes of it; a group that is missing is created first. -/
def changeBy (ns : UInt8) (work : Attempt Group PUnit) : Change := fun group =>
  match work.run (group.getD (freshById ns)) with
  | (.ok _, next) => .ok (some next)
  | (.error fault, _) => .error fault

/-- Work on the group of a namespace is local to it. -/
theorem local_onGroup (ns : UInt8) (work : Attempt Group PUnit) :
    Local ns (changeBy ns work) (onGroup (.id ns) work) where
  outcome ec := by
    have start : ec.group (.id ns) = (ec.space.get? ns).getD (freshById ns) := rfl
    rw [run_onGroup, group_touch, start, changeBy]
    cases work.run ((ec.space.get? ns).getD (freshById ns)) with
    | mk outcome next => cases outcome <;> rfl
  reached ec next changed other := by
    have start : ec.group (.id ns) = (ec.space.get? ns).getD (freshById ns) := rfl
    rw [changeBy] at changed
    rw [get?_run_onGroup, start]
    cases run : work.run ((ec.space.get? ns).getD (freshById ns)) with
    | mk outcome after =>
      rw [run] at changed
      cases outcome with
      | error fault => cases changed
      | ok => cases changed; rfl

theorem run_onGroups (ec : Example) (work : UInt8 → Attempt Group Unit)
    (each : ∀ ns group, ec.space.get? ns = some group → ((work ns).run group).1 = .ok ()) :
    ∃ reached, (Operation.onGroups work).attempt.run ec = (.ok (), reached) ∧
      ∀ ns, reached.space.get? ns = (ec.space.get? ns).map fun group => ((work ns).run group).2 := by
  have distinct : (ec.space.namespaces.map id).Nodup := by
    rw [List.map_id]
    exact ec.space.nodup_namespaces
  have steps : ∀ ns ∈ ec.space.namespaces, Local (id ns) (changeBy ns (work ns)) (onGroup (.id ns) (work ns)) :=
    fun ns _ => local_onGroup ns (work ns)
  have present : ∀ ns ∈ ec.space.namespaces, ∃ group, ec.space.get? ns = some group ∧
      changeBy ns (work ns) ((ec.withSpace id).space.get? ns) = .ok (some ((work ns).run group).2) := by
    intro ns member
    obtain ⟨group, found⟩ := Option.isSome_iff_exists.1 (Space.mem_namespaces.1 member)
    have start : (ec.withSpace id).space.get? ns = some group := found
    have done : (work ns).run group = (.ok (), ((work ns).run group).2) := Prod.ext (each ns group found) rfl
    refine ⟨group, found, ?_⟩
    rw [start, changeBy, Option.getD_some, done]
  obtain ⟨reached, run⟩ := run_forM_local_ok (ec.withSpace id) distinct steps fun ns member => by
    obtain ⟨group, -, changed⟩ := present ns member
    exact ⟨_, changed⟩
  obtain ⟨changed, untouched⟩ := run_forM_local distinct steps run
  refine ⟨reached, run, fun ns => ?_⟩
  by_cases member : ns ∈ ec.space.namespaces
  · obtain ⟨group, found, own⟩ := present ns member
    rw [found, Option.map_some]
    exact (Except.ok.inj (own.symm.trans (changed ns member))).symm
  · have absent : ec.space.get? ns = none := by
      rw [Space.mem_namespaces] at member
      simpa using member
    rw [List.map_id] at untouched
    rw [untouched ns member, absent]
    exact absent

end HashedFeatures.Example
