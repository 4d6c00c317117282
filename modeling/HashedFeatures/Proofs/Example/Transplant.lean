import HashedFeatures.Proofs.Binary32.Exact
import HashedFeatures.Proofs.Example.Namespaces
import HashedFeatures.Proofs.Group.Labels

/-! Cutting off what was appended.

Group by group: what is cut off is as long as what was appended, so the features and the labels are those from before,
and a namespace that was made for the appended features goes with them. From namespace to namespace the steps are
local, and from source to source they are undone in reverse order.
-/

set_option autoImplicit false

namespace HashedFeatures

open Binary32 (ExactSum Regained Stands)

/-! ## Groups -/

namespace Group

/-- The same group but for its sum of squares, which is regained under a condition. -/
structure Regains (exact : Prop) (group again : Group) : Prop where
  same : { again with sumSquares := group.sumSquares } = group
  sum : exact → Regained group.sumSquares again.sumSquares

variable {group other joined again : Group} {exact : Prop}

theorem Regains.refl (exact : Prop) (group : Group) : Regains exact group group := ⟨rfl, fun _ => .inl rfl⟩

/-- Appending goes through unless a group with features is audited and the other one is not, or the other way round. -/
theorem concat_eq_ok_iff : group.concat other = .ok joined ↔
    (group.isEmpty = false → group.isAudited = other.isAudited) ∧
      joined = { group with
        features := group.features ++ other.features
        labels := group.labels ++ other.labels
        sumSquares := group.sumSquares + other.sumSquares } := by
  unfold concat
  cases group.isEmpty <;> cases group.isAudited <;> cases other.isAudited <;> simp [eq_comm]

theorem Complete.labels_of_isEmpty (complete : group.Complete) (none : group.isEmpty = true) : group.labels = [] := by
  rcases complete with unlabelled | full
  · exact unlabelled
  · have features : group.features = [] := List.isEmpty_iff.1 none
    rw [length, features] at full
    exact List.eq_nil_of_length_eq_zero full

/-- The labels of two groups that go together: either both have them or neither, where the first one has features. -/
theorem Complete.concat (complete : group.Complete) (alsoComplete : other.Complete)
    (joins : group.concat other = .ok joined) : joined.Complete := by
  obtain ⟨alike, rfl⟩ := concat_eq_ok_iff.1 joins
  cases empty : group.isEmpty with
  | true =>
    have features : group.features = [] := List.isEmpty_iff.1 empty
    simpa only [Complete, length, features, complete.labels_of_isEmpty empty, List.nil_append] using alsoComplete
  | false =>
    rcases complete with unlabelled | full
    · have plain := isAudited_eq_false_iff.2 unlabelled
      rw [alike empty, isAudited_eq_false_iff] at plain
      exact .inl (by simp only [unlabelled, plain, List.append_nil])
    · rcases alsoComplete with unlabelled | alsoFull
      · have plain := isAudited_eq_false_iff.2 unlabelled
        rw [← alike empty, isAudited_eq_false_iff] at plain
        exact .inl (by simp only [unlabelled, plain, List.append_nil])
      · exact .inr (by simp only [length, List.length_append] at full alsoFull ⊢; rw [full, alsoFull])

structure Filled (audit : Bool) (group : Group) : Prop where
  present : group.isEmpty = false
  audited : group.isAudited = audit
  complete : group.Complete

theorem Filled.concat {audit : Bool} (filled : other.Filled audit) (complete : group.Complete)
    (alike : group.isEmpty = false → group.isAudited = audit) (joins : group.concat other = .ok joined) :
    joined.Filled audit := by
  have whole := complete.concat filled.complete joins
  obtain ⟨-, rfl⟩ := concat_eq_ok_iff.1 joins
  refine ⟨?_, ?_, whole⟩
  · have present : other.features ≠ [] := List.isEmpty_eq_false_iff.1 filled.present
    exact List.isEmpty_eq_false_iff.2 (List.append_ne_nil_of_right_ne_nil _ present)
  · have audited := filled.audited
    cases empty : group.isEmpty with
    | true => simpa only [isAudited, complete.labels_of_isEmpty empty, List.nil_append] using audited
    | false =>
      have own := alike empty
      cases audit with
      | false => simp_all [isAudited]
      | true => simp_all [isAudited]

/-- Cutting off what was appended leaves the features and the labels from before. -/
theorem Regains.truncateKnowing (regains : Regains exact joined again) (complete : group.Complete)
    (joins : group.concat other = .ok joined) :
    ∃ rest, again.truncateKnowing (again.length - other.length) other.sumSquares = .ok rest ∧
      Regains (ExactSum group.sumSquares other.sumSquares ∧ exact) group rest := by
  obtain ⟨alike, rfl⟩ := concat_eq_ok_iff.1 joins
  have features : again.features = group.features ++ other.features := congrArg Group.features regains.same
  have labels : again.labels = group.labels ++ other.labels := congrArg Group.labels regains.same
  have left : again.length - other.length = group.length := by
    simp only [length, features, List.length_append, Nat.add_sub_cancel]
  have inside : ¬ again.length < group.length := by
    simp only [length, features, List.length_append]
    omega
  have keptFeatures : again.features.take group.length = group.features := by
    rw [features]
    exact List.take_left
  have keptLabels : again.labels.take group.length = group.labels := by
    rw [labels]
    rcases complete with unlabelled | full
    · -- Without labels there are none of the other group either, or nothing is kept.
      cases empty : group.isEmpty with
      | true => rw [length, List.isEmpty_iff.1 empty, unlabelled, List.length_nil, List.take_zero]
      | false =>
        have plain := isAudited_eq_false_iff.2 unlabelled
        rw [alike empty, isAudited_eq_false_iff] at plain
        rw [unlabelled, plain, List.append_nil, List.take_nil]
    · exact List.take_left' full
  unfold Group.truncateKnowing
  rw [left, if_neg inside, keptFeatures, keptLabels]
  refine ⟨_, rfl, ?_, fun both => both.1.regained_sub (regains.sum both.2)⟩
  exact congrArg (fun whole : Group => { whole with
    features := group.features, labels := group.labels, sumSquares := group.sumSquares }) regains.same

theorem Regains.isEmpty_eq (regains : Regains exact group again) : again.isEmpty = group.isEmpty := by
  have features := congrArg Group.features regains.same
  exact congrArg List.isEmpty features

theorem Regains.eq_none {after : Option Group} (regains : Option.Rel (Regains exact) none after) : after = none := by
  cases regains
  rfl

theorem Regains.exists_some {after : Option Group} (regains : Option.Rel (Regains exact) (some group) after) :
    ∃ again, after = some again ∧ Regains exact group again := by
  cases regains with
  | some own => exact ⟨_, rfl, own⟩

theorem Regains.weaken {stronger : Prop} {before after : Option Group}
    (regains : Option.Rel (Regains exact) before after) (implies : stronger → exact) :
    Option.Rel (Regains stronger) before after := by
  cases regains with
  | none => exact .none
  | some own => exact .some ⟨own.same, fun holds => own.sum (implies holds)⟩

end Group

namespace Example

def cut (group : Group) : Change
  | none => .ok none
  | some target =>
    (target.truncateKnowing (target.length - group.length) group.sumSquares).map fun rest =>
      if rest.isEmpty then none else some rest

theorem get?_delete (ec : Example) (ns other : UInt8) :
    (ec.delete ns).space.get? other = if ns = other then none else ec.space.get? other :=
  Space.get?_put ec.space ns other none

theorem local_truncateGroup (ns : UInt8) (group : Group) : Local ns (cut group) (truncateGroup ns group) where
  outcome ec := by
    unfold truncateGroup cut
    rw [Attempt.run_make]
    cases ec.space.get? ns with
    | none => rfl
    | some target =>
      dsimp only
      cases target.truncateKnowing (target.length - group.length) group.sumSquares <;> rfl
  reached ec next changed other := by
    unfold truncateGroup
    rw [Attempt.run_make]
    cases found : ec.space.get? ns with
    | none =>
      rw [found] at changed
      cases changed
      dsimp only
      split
      case isTrue same => exact same ▸ found
      case isFalse => rfl
    | some target =>
      rw [found, cut] at changed
      dsimp only
      cases rest : target.truncateKnowing (target.length - group.length) group.sumSquares with
      | error fault =>
        rw [rest] at changed
        cases changed
      | ok rest' =>
        rw [rest] at changed
        cases changed
        dsimp only
        split
        · exact get?_delete ec ns other
        · exact get?_setGroup ec ns other rest'

theorem changeBy_change (ns : UInt8) (f : Group → Except Fault Group) (group : Option Group) :
    changeBy ns (.change f) group = (f (group.getD (freshById ns))).map some := by
  unfold changeBy
  cases changed : f (group.getD (freshById ns)) with
  | ok next => rw [Attempt.run_change_of_ok changed]; rfl
  | error fault => rw [Attempt.run_change_of_error changed]; rfl

theorem mem_transplanted {source : Example} {ns : UInt8} {group : Group} :
    (ns, group) ∈ source.transplanted ↔ source.space.get? ns = some group ∧ ns ≠ Namespace.constant := by
  rw [transplanted, List.mem_filter, Space.mem_toList, decide_eq_true_iff]

theorem nodup_transplanted (source : Example) : (source.transplanted.map Prod.fst).Nodup := by
  have keys := source.space.nodup_namespaces
  rw [← Space.map_fst_toList] at keys
  exact keys.sublist (List.filter_sublist.map Prod.fst)

def Complete (ec : Example) : Prop := ∀ ns group, ec.space.get? ns = some group → group.Complete

variable {source ec next : Example}

theorem transplanted_or (source : Example) (ns : UInt8) :
    (ns = Namespace.constant ∨ source.space.get? ns = none) ∨
      ∃ group, source.space.get? ns = some group ∧ ns ≠ Namespace.constant := by
  by_cases constant : ns = Namespace.constant
  · exact .inl (.inl constant)
  · cases found : source.space.get? ns with
    | none => exact .inl (.inr rfl)
    | some group => exact .inr ⟨group, rfl, constant⟩

theorem not_mem_transplanted {ns : UInt8} (alone : ns = Namespace.constant ∨ source.space.get? ns = none) :
    ns ∉ source.transplanted.map Prod.fst := by
  intro member
  obtain ⟨⟨_, group⟩, listed, rfl⟩ := List.mem_map.1 member
  obtain ⟨found, apart⟩ := mem_transplanted.1 listed
  rcases alone with same | absent
  · exact apart same
  · cases absent.symm.trans found

structure Appended (source ec next : Example) : Prop where
  joined : ∀ ns group, source.space.get? ns = some group → ns ≠ Namespace.constant →
    ∃ joined, ((ec.space.get? ns).getD (freshById ns)).concat group = .ok joined ∧ next.space.get? ns = some joined
  alone : ∀ ns, (ns = Namespace.constant ∨ source.space.get? ns = none) → next.space.get? ns = ec.space.get? ns

theorem local_appendGroup (source : Example) : ∀ entry ∈ source.transplanted,
    Local entry.1 (changeBy entry.1 (.change (·.concat entry.2))) (appendGroup entry.1 entry.2) :=
  fun entry _ => local_onGroup entry.1 _

theorem appended_of_run (run : (appendFrom source).run ec = (.ok ⟨⟩, next)) : source.Appended ec next := by
  obtain ⟨changed, untouched⟩ := run_forM_local source.nodup_transplanted (local_appendGroup source) run
  refine ⟨fun ns group found apart => ?_, fun ns alone => untouched ns (not_mem_transplanted alone)⟩
  have own := changed (ns, group) (mem_transplanted.2 ⟨found, apart⟩)
  rw [changeBy_change] at own
  cases joins : ((ec.space.get? ns).getD (freshById ns)).concat group with
  | error fault =>
    rw [joins] at own
    cases own
  | ok joined =>
    rw [joins] at own
    exact ⟨joined, rfl, (Except.ok.inj own).symm⟩

theorem Complete.getD (complete : ec.Complete) (ns : UInt8) : ((ec.space.get? ns).getD (freshById ns)).Complete := by
  cases found : ec.space.get? ns with
  | none => exact .inl rfl
  | some target => exact complete ns target found

theorem Appended.complete (appended : source.Appended ec next) (complete : ec.Complete) (alsoComplete : source.Complete) :
    next.Complete := by
  intro ns result found
  rcases source.transplanted_or ns with alone | ⟨group, given, apart⟩
  · exact complete ns result (appended.alone ns alone ▸ found)
  · obtain ⟨joined, joins, placed⟩ := appended.joined ns group given apart
    cases placed.symm.trans found
    exact (complete.getD ns).concat (alsoComplete ns group given) joins

/-- What is cut off a namespace leaves the group that was there, or none. -/
theorem cut_appended {ns : UInt8} {before : Option Group} {group joined again : Group} {sums exact : Prop}
    (complete : (before.getD (freshById ns)).Complete) (present : ∀ target ∈ before, target.isEmpty = false)
    (joins : (before.getD (freshById ns)).concat group = .ok joined)
    (exactSums : sums → ∀ target ∈ before, ExactSum target.sumSquares group.sumSquares)
    (regains : Group.Regains exact joined again) :
    ∃ rest, cut group (some again) = .ok rest ∧ Option.Rel (Group.Regains (sums ∧ exact)) before rest := by
  obtain ⟨rest, cutOff, kept⟩ := regains.truncateKnowing complete joins
  refine ⟨if rest.isEmpty then none else some rest, by rw [cut, cutOff]; rfl, ?_⟩
  rw [kept.isEmpty_eq]
  cases before with
  | none => exact .none
  | some target =>
    rw [if_neg (by rw [Option.getD_some, present target rfl]; exact Bool.false_ne_true)]
    exact .some ⟨kept.same, fun both => kept.sum ⟨exactSums both.1 target rfl, both.2⟩⟩

/-- A source that can be appended: where both have a namespace, that of the example has features, and both are audited
or neither is. -/
structure Stackable (source ec : Example) : Prop where
  complete : source.Complete
  meets : ∀ ns group target, source.space.get? ns = some group → ns ≠ Namespace.constant →
    ec.space.get? ns = some target → target.isEmpty = false ∧ target.isAudited = group.isAudited

theorem Stackable.run_appendFrom (stackable : source.Stackable ec) :
    ∃ next, (appendFrom source).run ec = (.ok ⟨⟩, next) := by
  refine run_forM_local_ok ec source.nodup_transplanted (local_appendGroup source) fun ⟨ns, group⟩ member => ?_
  obtain ⟨given, apart⟩ := mem_transplanted.1 member
  refine ⟨_, (changeBy_change ns _ _).trans (congrArg (Except.map some) (Group.concat_eq_ok_iff.2 ⟨?_, rfl⟩))⟩
  intro present
  cases found : ec.space.get? ns with
  | none =>
    rw [found] at present
    cases present
  | some target => exact (stackable.meets ns group target given apart found).2

def ExactAt (ns : UInt8) (source ec : Example) : Prop :=
  ∀ target ∈ ec.space.get? ns, ∀ group ∈ source.space.get? ns, ExactSum target.sumSquares group.sumSquares

/-- Cutting off what was appended leaves what was there before, also on an example that differs in sums. -/
theorem Appended.run_truncateFrom (appended : source.Appended ec next) (complete : ec.Complete)
    (stackable : source.Stackable ec) {exact : UInt8 → Prop} {again : Example}
    (regains : ∀ ns, Option.Rel (Group.Regains (exact ns)) (next.space.get? ns) (again.space.get? ns)) :
    ∃ restored, (truncateFrom source).run again = (.ok ⟨⟩, restored) ∧
      restored.space.get? Namespace.constant = again.space.get? Namespace.constant ∧
      ∀ ns, Option.Rel (Group.Regains (ExactAt ns source ec ∧ exact ns)) (ec.space.get? ns)
        (restored.space.get? ns) := by
  have cuts : ∀ ns group, source.space.get? ns = some group → ns ≠ Namespace.constant → ∃ rest,
      cut group (again.space.get? ns) = .ok rest ∧
        Option.Rel (Group.Regains (ExactAt ns source ec ∧ exact ns)) (ec.space.get? ns) rest := by
    intro ns group given apart
    obtain ⟨joined, joins, placed⟩ := appended.joined ns group given apart
    obtain ⟨left, found, own⟩ := Group.Regains.exists_some (placed ▸ regains ns)
    rw [found]
    exact cut_appended (complete.getD ns) (fun target found => (stackable.meets ns group target given apart found).1)
      joins (fun exactAt target found => exactAt target found group given) own
  have steps : ∀ entry ∈ source.transplanted, Local entry.1 (cut entry.2) (truncateGroup entry.1 entry.2) :=
    fun entry _ => local_truncateGroup entry.1 entry.2
  obtain ⟨restored, run⟩ := run_forM_local_ok again source.nodup_transplanted steps fun ⟨ns, group⟩ member => by
    obtain ⟨given, apart⟩ := mem_transplanted.1 member
    obtain ⟨rest, cutOff, -⟩ := cuts ns group given apart
    exact ⟨rest, cutOff⟩
  obtain ⟨changed, untouched⟩ := run_forM_local source.nodup_transplanted steps run
  refine ⟨restored, run, untouched _ (not_mem_transplanted (.inl rfl)), fun ns => ?_⟩
  rcases source.transplanted_or ns with alone | ⟨group, given, apart⟩
  · rw [untouched ns (not_mem_transplanted alone), ← appended.alone ns alone]
    exact Group.Regains.weaken (regains ns) And.right
  · obtain ⟨rest, cutOff, kept⟩ := cuts ns group given apart
    have own := changed (ns, group) (mem_transplanted.2 ⟨given, apart⟩)
    rw [← Except.ok.inj (cutOff.symm.trans own)]
    exact kept

/-! ## Stacks of sources -/

/-- Every source can be appended to what the ones before it have made of the example. -/
def Stack : Example → List Example → Prop
  | _, [] => True
  | ec, source :: rest => source.Stackable ec ∧ Stack ((appendFrom source).run ec).2 rest

/-- Sources without empty groups can be stacked whatever they are, where all is audited or nothing is. -/
theorem stack_of_filled {audit : Bool} {sources : List Example}
    (filled : ∀ ns group, ec.space.get? ns = some group → group.Filled audit)
    (each : ∀ source ∈ sources, ∀ ns group, source.space.get? ns = some group → group.Filled audit) :
    ec.Stack sources := by
  induction sources generalizing ec with
  | nil => trivial
  | cons source rest ih =>
    obtain ⟨own, others⟩ := List.forall_mem_cons.1 each
    have stackable : source.Stackable ec := by
      refine ⟨fun ns group given => (own ns group given).complete, fun ns group target given _ found => ?_⟩
      have there := filled ns target found
      exact ⟨there.present, there.audited.trans (own ns group given).audited.symm⟩
    obtain ⟨next, run⟩ := stackable.run_appendFrom
    have appended := appended_of_run run
    refine ⟨stackable, ?_⟩
    rw [run]
    refine ih (fun ns result found => ?_) others
    rcases source.transplanted_or ns with alone | ⟨group, given, apart⟩
    · exact filled ns result (appended.alone ns alone ▸ found)
    · obtain ⟨joined, joins, placed⟩ := appended.joined ns group given apart
      cases placed.symm.trans found
      cases before : ec.space.get? ns with
      | none =>
        rw [before] at joins
        exact (own ns group given).concat (.inl rfl) (by nofun) joins
      | some target =>
        rw [before] at joins
        have there := filled ns target before
        exact (own ns group given).concat there.complete (fun _ => there.audited) joins

/-- No sum of squares of a namespace is rounded while the sources are appended. -/
def Unrounded (ns : UInt8) : Example → List Example → Prop
  | _, [] => True
  | ec, source :: rest => ExactAt ns source ec ∧ Unrounded ns ((appendFrom source).run ec).2 rest

/-- Whatever sources are appended, cutting them off in reverse order restores the feature space: the namespaces, and in
each of them all but the sum of squares, which is regained unless it was rounded. The constant is not touched. -/
theorem truncate_undoes_append (ec : Example) (sources : List Example) (complete : ec.Complete)
    (stack : ec.Stack sources) :
    ∃ joined restored, (sources.forM appendFrom).run ec = (.ok ⟨⟩, joined) ∧
      (sources.reverse.forM truncateFrom).run joined = (.ok ⟨⟩, restored) ∧
      joined.space.get? Namespace.constant = ec.space.get? Namespace.constant ∧
      restored.space.get? Namespace.constant = ec.space.get? Namespace.constant ∧
      ∀ ns, Option.Rel (Group.Regains (ec.Unrounded ns sources)) (ec.space.get? ns) (restored.space.get? ns) := by
  induction sources generalizing ec with
  | nil =>
    refine ⟨ec, ec, rfl, rfl, rfl, rfl, fun ns => ?_⟩
    cases ec.space.get? ns with
    | none => exact .none
    | some group => exact .some (.refl _ group)
  | cons source rest ih =>
    obtain ⟨stackable, onward⟩ := stack
    obtain ⟨next, run⟩ := stackable.run_appendFrom
    rw [run] at onward
    have appended := appended_of_run run
    obtain ⟨joined, left, append, truncate, joinedAlone, leftAlone, regains⟩ :=
      ih _ (appended.complete complete stackable.complete) onward
    obtain ⟨restored, last, restoredAlone, undone⟩ := appended.run_truncateFrom complete stackable regains
    have alone := appended.alone Namespace.constant (.inl rfl)
    refine ⟨joined, restored, (Attempt.run_bind_ok run).trans append, ?_, joinedAlone.trans alone,
      restoredAlone.trans (leftAlone.trans alone), fun ns => ?_⟩
    · rw [List.reverse_cons, List.forM_eq_forM, List.forM_append]
      exact (Attempt.run_bind_ok truncate).trans (Attempt.run_bind_ok last)
    · rw [Unrounded, run]
      exact undone ns

/-- The second source adds to a namespace that the first one has made, and each of them makes one. -/
theorem truncate_undoes_append_nested :
    let group (index : UInt64) (value : Float32) := Group.empty.append [⟨index, .ofFloat value⟩]
    let ec := (new 0).setGroup 97 (group 5 3)
    let first := ((new 0).setGroup 97 (group 6 2)).setGroup 98 (group 7 1)
    let second := ((new 0).setGroup 98 (group 8 1)).setGroup 99 (group 9 1)
    (ec.Complete ∧ ec.Stack [first, second]) ∧
      ∃ joined restored again, ([first, second].forM appendFrom).run ec = (.ok ⟨⟩, joined) ∧
        ([second, first].forM truncateFrom).run joined = (.ok ⟨⟩, restored) ∧
        restored.space.get? 97 = some again ∧ { again with sumSquares := 9 } = group 5 3 ∧ again.sumSquares = 9 ∧
        restored.space.get? 98 = none ∧ restored.space.get? 99 = none := by
  intro group ec first second
  have single (index : UInt64) (value : Float32) : (group index value).Filled false := ⟨rfl, rfl, .inl rfl⟩
  have filled : ∀ ns found, ec.space.get? ns = some found → found.Filled false := forall_get?_single (single 5 3)
  have complete : ec.Complete := fun ns found present => (filled ns found present).complete
  have stack : ec.Stack [first, second] := by
    refine stack_of_filled filled ?_
    simp only [List.forall_mem_cons]
    exact ⟨forall_get?_setGroup (forall_get?_single (single 6 2)) (single 7 1),
      forall_get?_setGroup (forall_get?_single (single 8 1)) (single 9 1), nofun⟩
  obtain ⟨joined, restored, append, truncate, -, -, undone⟩ :=
    truncate_undoes_append ec [first, second] complete stack
  have absent {ns : UInt8} (apart : 97 ≠ ns) : restored.space.get? ns = none := by
    have none : ec.space.get? ns = none := by rw [get?_setGroup, if_neg apart, new, Space.get?_empty]
    exact Group.Regains.eq_none (none ▸ undone ns)
  have found : ec.space.get? 97 = some (group 5 3) := by rw [get?_setGroup, if_pos rfl]
  obtain ⟨again, placed, own⟩ := Group.Regains.exists_some (found ▸ undone 97)
  have unrounded : ec.Unrounded 97 [first, second] := by
    refine ⟨fun target before other given => ?_, fun target before other given => ?_, trivial⟩
    · have nine : Stands (group 5 3).sumSquares 9 := by decide +kernel
      have four : Stands (group 6 2).sumSquares 4 := by decide +kernel
      rw [get?_setGroup, if_neg (by decide), get?_setGroup, if_pos rfl] at given
      cases found.symm.trans before
      cases given
      exact nine.exactSum four (by decide)
    · rw [get?_setGroup, if_neg (by decide), get?_setGroup, if_neg (by decide), new, Space.get?_empty] at given
      cases given
  refine ⟨⟨complete, stack⟩, joined, restored, again, append, truncate, placed, own.same, ?_, absent (by decide),
    absent (by decide)⟩
  have nine : (group 5 3).sumSquares = 9 := by decide +kernel
  rcases own.sum unrounded with same | ⟨minus, -⟩
  · exact same.trans nine
  · rw [nine] at minus
    exact absurd minus (by decide +kernel)

end Example

end HashedFeatures
