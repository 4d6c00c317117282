import HashedFeatures.Proofs.Group.Entries

/-! Groups that are built up by operations, each of them in step with its entries.

A run starts with an empty group. A group that is appended to another one has a run of its own.
-/

set_option autoImplicit false

namespace HashedFeatures.Group

open Binary32 (Stands IsInteger integer)

inductive Change where
  | addNamed (name : String) (value : Single)
  | addNumbered (number : UInt64) (value : Single)
  | addText (name text : String)
  | addNumberedText (number : UInt64) (text : String)
  | truncate (length : Nat)
  | sort (mask : UInt64)
  | unique (cap : Option Nat)
  | mergeRuns
  | clear

namespace Change

/-- The operation, with labels for what it adds if the group is audited; what it answers is left out. -/
def attempt (audit : Bool) : Change → Attempt Group Unit
  | .addNamed name value => modify (·.addNamed name value audit)
  | .addNumbered number value => modify (·.addNumbered number value audit)
  | .addText name text => modify (·.addText name text audit)
  | .addNumberedText number text => modify (·.addNumberedText number text audit)
  | .truncate length => .change (·.truncate length)
  | .sort mask => do
    let _ ← Group.sort mask
  | .unique cap => Group.unique cap
  | .mergeRuns => do
    let _ ← Group.mergeRuns
  | .clear => modify Group.clear

def Integral : Change → Prop
  | .addNamed _ value | .addNumbered _ value => IsInteger value.number
  | _ => True

def entries (origin : Origin) : Change → List Entry → List Entry
  | .addNamed name value, before =>
    before ++ [⟨Hash.feature name origin.hash, integer value.number * integer origin.multiplier.number,
      origin.label name ""⟩]
  | .addNumbered number value, before =>
    before ++ [⟨Hash.numbered number origin.hash, integer value.number * integer origin.multiplier.number,
      origin.label (toString number.toNat) ""⟩]
  | .addText name text, before =>
    before ++ [⟨Hash.chain name text origin.hash, integer origin.multiplier.number, origin.label name text⟩]
  | .addNumberedText number text, before =>
    before ++ [⟨Hash.chainNumbered number text origin.hash, integer origin.multiplier.number,
      origin.label (toString number.toNat) text⟩]
  | .truncate length, before => before.take length
  | .sort mask, before => before.mergeSort (Entry.upTo mask)
  | .unique cap, before => Entry.firsts cap before
  | .mergeRuns, before => Entry.summed before
  | .clear, _ => []

def stop : Change → List Entry → Option Fault
  | .truncate length, before => if before.length < length then some .truncatePastEnd else none
  | _, _ => none

end Change

def ended : Option Fault → Except Fault Unit
  | none => .ok ()
  | some fault => .error fault

/-- Every operation keeps a group in step with its entries, and one that stops leaves it as it was. -/
theorem Represents.change {audit : Bool} {origin : Origin} {group : Group} {entries : List Entry}
    (rep : Represents audit origin group entries) (multiplier : IsInteger origin.multiplier.number)
    (before : Binary32.Small (Entry.squares entries)) {change : Change} (integral : change.Integral)
    (small : Binary32.Small (Entry.squares (change.entries origin entries))) :
    ∃ after, (change.attempt audit).run group = (ended (change.stop entries), after) ∧
      Represents audit origin after (change.entries origin entries) ∧
      (change.stop entries ≠ none → after = group) := by
  have scaled := rep.origin_eq
  subst scaled
  have added : ∀ {entry : Entry}, Binary32.Small (Entry.squares (entries ++ [entry])) →
      Binary32.Small (Entry.squares entries + entry.value ^ 2) := by
    intro entry small
    simpa using small
  have product : ∀ {value : Single}, IsInteger value.number →
      Binary32.Small (Entry.squares entries + (integer value.number * integer group.multiplier.number) ^ 2) →
      Stands (value.mul group.multiplier).number (integer value.number * integer group.multiplier.number) := by
    intro value integral bound
    have square := bound.mono (sq_nonneg _) (le_add_of_nonneg_left (Entry.squares_nonneg entries))
    exact Stands.mul integral multiplier square.of_square
  cases change with
  | addNamed name value =>
    exact ⟨_, rfl, rep.pushLabelled (product integral (added small)) (added small), nofun⟩
  | addNumbered number value =>
    exact ⟨_, rfl, rep.pushLabelled (product integral (added small)) (added small), nofun⟩
  | addText name text => exact ⟨_, rfl, rep.pushLabelled multiplier (added small), nofun⟩
  | addNumberedText number text => exact ⟨_, rfl, rep.pushLabelled multiplier (added small), nofun⟩
  | truncate length =>
    by_cases beyond : entries.length < length
    · have failed : group.truncate length = .error .truncatePastEnd := if_pos (rep.length_eq ▸ beyond)
      have same : entries.take length = entries := List.take_of_length_le beyond.le
      refine ⟨group, ?_, by rwa [Change.entries, same], fun _ => rfl⟩
      rw [Change.stop, if_pos beyond]
      exact Attempt.run_change_of_error failed
    · obtain ⟨after, truncated, kept⟩ := rep.truncate before (not_lt.1 beyond)
      have goesOn : Change.stop (.truncate length) entries = none := if_neg beyond
      refine ⟨after, ?_, kept, fun stops => absurd goesOn stops⟩
      rw [goesOn]
      exact Attempt.run_change_of_ok truncated
  | sort mask =>
    obtain ⟨some, after, run, kept⟩ := rep.sort before mask
    refine ⟨after, ?_, kept, nofun⟩
    unfold Change.attempt
    rw [Attempt.run_bind, run]
    rfl
  | unique cap =>
    obtain ⟨after, run, kept⟩ := rep.unique cap before small
    exact ⟨after, run, kept, nofun⟩
  | mergeRuns =>
    obtain ⟨sum, after, run, kept⟩ := rep.mergeRuns before small
    refine ⟨after, ?_, kept, nofun⟩
    unfold Change.attempt
    rw [Attempt.run_bind, run]
    rfl
  | clear => exact ⟨_, rfl, rep.clear, nofun⟩

inductive History where
  | start (origin : Origin)
  | change (before : History) (last : Change)
  /-- Append a group with a history of its own. -/
  | concat (before other : History)

def Origin.group (origin : Origin) : Group :=
  { named origin.name origin.hash with multiplier := origin.multiplier }

namespace History

def run (audit : Bool) : History → Except Fault Unit × Group
  | .start origin => (.ok (), origin.group)
  | .change before last => (last.attempt audit).run (before.run audit).2
  | .concat before other => (Attempt.change (·.concat (other.run audit).2)).run (before.run audit).2

def origin : History → Origin
  | .start origin => origin
  | .change before _ | .concat before _ => before.origin

def entries : History → List Entry
  | .start _ => []
  | .change before last => last.entries before.origin before.entries
  | .concat before other => before.entries ++ other.entries

def before : History → History
  | .start origin => .start origin
  | .change before _ | .concat before _ => before

def stop (audit : Bool) : History → Option Fault
  | .start _ => none
  | .change before last => last.stop before.entries
  | .concat before other =>
    if audit ∧ before.entries ≠ [] ∧ other.entries = [] then some .auditMismatch else none

/-- All values are integers whose squares never sum up to more than a small integer: no step rounds. -/
def Exact : History → Prop
  | .start origin => IsInteger origin.multiplier.number
  | .change before last =>
    before.Exact ∧ last.Integral ∧ Binary32.Small (Entry.squares (last.entries before.origin before.entries))
  | .concat before other =>
    before.Exact ∧ other.Exact ∧ Binary32.Small (Entry.squares (before.entries ++ other.entries))

variable {history : History}

theorem Exact.multiplier (exact : history.Exact) : IsInteger history.origin.multiplier.number := by
  induction history with
  | start origin => exact exact
  | change before last ih => exact ih exact.1
  | concat before other ih _ => exact ih exact.1

theorem Exact.small (exact : history.Exact) : Binary32.Small (Entry.squares history.entries) := by
  cases history with
  | start origin => exact Nat.zero_le _
  | change before last => exact exact.2.2
  | concat before other => exact exact.2.2

theorem represents_start (audit : Bool) (origin : Origin) : Represents audit origin origin.group [] where
  origin_eq := rfl
  shows := .nil
  labels_eq := by cases audit <;> rfl
  squares := .zero

/-- A run leaves the group in step with the entries, and its last operation stops where it should. -/
theorem represents (audit : Bool) (exact : history.Exact) :
    Represents audit history.origin (history.run audit).2 history.entries ∧
      (history.run audit).1 = ended (history.stop audit) ∧
      (history.stop audit ≠ none → (history.run audit).2 = (history.before.run audit).2) := by
  induction history with
  | start origin => exact ⟨represents_start audit origin, rfl, nofun⟩
  | change before last ih =>
    obtain ⟨after, run, kept, same⟩ := (ih exact.1).1.change exact.1.multiplier exact.1.small exact.2.1 exact.2.2
    have reached : (History.change before last).run audit = (ended (last.stop before.entries), after) := run
    rw [reached]
    exact ⟨kept, rfl, same⟩
  | concat before other ih ihOther =>
    have rep := (ih exact.1).1
    have also := (ihOther exact.2.1).1
    have joined := rep.concat_eq also
    split at joined
    case isTrue mismatched =>
      have reached : (History.concat before other).run audit = (.error .auditMismatch, (before.run audit).2) :=
        Attempt.run_change_of_error (f := fun group : Group => group.concat (other.run audit).2) joined
      have stops : (History.concat before other).stop audit = some .auditMismatch := if_pos mismatched
      have same : before.entries ++ other.entries = before.entries := by rw [mismatched.2.2, List.append_nil]
      rw [reached, stops, entries, same]
      exact ⟨rep, rfl, fun _ => rfl⟩
    case isFalse matched =>
      have reached : (History.concat before other).run audit = (.ok (), _) :=
        Attempt.run_change_of_ok (f := fun group : Group => group.concat (other.run audit).2) joined
      have goesOn : (History.concat before other).stop audit = none := if_neg matched
      rw [reached, goesOn]
      exact ⟨rep.concat also exact.2.2, rfl, nofun⟩

/-- After every step the features, their labels and the sum of squares are those of the entries: each surviving
feature has the label that it was added with. An operation that stops leaves the group as it was. -/
theorem group_in_step (audit : Bool) (exact : history.Exact) :
    let group := (history.run audit).2
    group.features.map Feature.index = history.entries.map Entry.index ∧
      List.Forall₂ Stands (group.features.map Feature.value) (history.entries.map Entry.value) ∧
      group.labels = (if audit then history.entries.map Entry.label else []) ∧
      group.labels.length = (if audit then group.features.length else 0) ∧
      Stands group.sumSquares (group.features.map fun f => integer f.value ^ 2).sum ∧
      (history.run audit).1 = ended (history.stop audit) ∧
      ∀ fault, (history.run audit).1 = .error fault → group = (history.before.run audit).2 := by
  obtain ⟨rep, outcome, same⟩ := represents audit exact
  intro group
  have indices : group.features.map Feature.index = history.entries.map Entry.index := by
    rw [← List.forall₂_eq_eq_eq, List.forall₂_map_left_iff, List.forall₂_map_right_iff]
    exact rep.shows.imp fun _ _ shown => shown.1
  have values : List.Forall₂ Stands (group.features.map Feature.value) (history.entries.map Entry.value) := by
    rw [List.forall₂_map_left_iff, List.forall₂_map_right_iff]
    exact rep.shows.imp fun _ _ shown => shown.2
  have squares : (group.features.map fun f => integer f.value ^ 2) =
      history.entries.map fun entry => entry.value ^ 2 := by
    rw [← List.forall₂_eq_eq_eq, List.forall₂_map_left_iff, List.forall₂_map_right_iff]
    exact rep.shows.imp fun _ _ shown => by rw [shown.2.integer_eq]
  refine ⟨indices, values, rep.labels_eq, rep.length_labels, ?_, outcome, ?_⟩
  · rw [squares]
    exact rep.squares
  · intro fault stopped
    apply same
    intro goesOn
    rw [outcome, goesOn] at stopped
    exact nomatch stopped

/-- Two features merge, two more follow, one of them from another group; the truncation at the end stops. -/
theorem group_in_step_stopped :
    let merged := ((((History.start ⟨"user", 7, .one⟩).change (.addNumbered 5 (.ofFloat 2))).change
      (.addNumbered 5 .one)).change .mergeRuns).change (.addText "colour" "red")
    let other := (History.start ⟨"item", 9, .one⟩).change (.addNamed "age" (.ofFloat 3))
    let history := ((merged.concat other).change (.sort 0xff)).change (.truncate 9)
    let group := (history.run true).2
    history.Exact ∧ group.features.map Feature.index = history.entries.map Entry.index ∧
      group.labels = history.entries.map Entry.label ∧ group.labels.length = group.features.length ∧
      Stands group.sumSquares (group.features.map fun f => integer f.value ^ 2).sum ∧
      (history.run true).1 = .error .truncatePastEnd ∧ group = (history.before.run true).2 := by
  intro merged other history group
  have unit : IsInteger Single.one.number := Stands.one.isInteger
  have two : IsInteger (Single.ofFloat 2).number := by decide +kernel
  have three : IsInteger (Single.ofFloat 3).number := by decide +kernel
  have first : merged.Exact := by
    refine ⟨⟨⟨⟨unit, two, ?_⟩, unit, ?_⟩, trivial, ?_⟩, trivial, ?_⟩ <;> decide +kernel
  have second : other.Exact := ⟨unit, three, by decide +kernel⟩
  have joined : (merged.concat other).Exact := ⟨first, second, by decide +kernel⟩
  -- The sort leaves the squares as they are, and there are fewer than nine entries.
  have sorted : ((merged.concat other).change (.sort 0xff)).Exact := by
    refine ⟨joined, trivial, ?_⟩
    rw [Change.entries, Entry.squares_perm (List.mergeSort_perm _ _)]
    exact joined.small
  have short : ((merged.concat other).change (.sort 0xff)).entries.length = 3 := by
    rw [entries, Change.entries, List.length_mergeSort]
    decide +kernel
  have exact : history.Exact := by
    refine ⟨sorted, trivial, ?_⟩
    rw [Change.entries, List.take_of_length_le (by omega)]
    exact sorted.small
  have stops : history.stop true = some .truncatePastEnd := if_pos (by omega)
  obtain ⟨indices, -, labels, lengths, squares, outcome, same⟩ := group_in_step true exact
  rw [stops] at outcome
  exact ⟨exact, indices, labels, lengths, squares, outcome, same _ outcome⟩

end History

end HashedFeatures.Group
