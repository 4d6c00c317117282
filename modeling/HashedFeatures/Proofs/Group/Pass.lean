import HashedFeatures.Group.Pass
import HashedFeatures.Proofs.Group.Repeats

/-! The pass over a group, step by step.

Up to the last place that is kept stand the entries of the runs so far. Behind them stand features that are not needed
any more, and then the entries that the pass has not come to, as they were. An exchange of labels brings one forward and
leaves another behind among those that are not needed.
-/

set_option autoImplicit false

namespace HashedFeatures

open HashedFeatures.Group (Item)

namespace Group.Lists

variable {group : Group} {audit : Bool} {front behind junk todo : List Item} {item next : Item}

theorem replace (lists : group.Lists audit (front ++ item :: behind)) (feature : Feature) :
    Lists audit { group with features := group.features.set front.length feature }
      (front ++ (feature, item.2) :: behind) where
  features := by rw [lists.features]; simp
  labels := by rw [lists.labels]; simp [labelIn]
  each := by simpa [or_imp, forall_and] using lists.each

/-- Two entries with one feature exchange their labels. -/
theorem exchange (lists : group.Lists true (front ++ (next.1, item.2) :: (junk ++ next :: todo))) :
    ∃ left right, group.labels[front.length]? = some left ∧
      group.labels[front.length + 1 + junk.length]? = some right ∧
      Lists true
        { group with labels := (group.labels.set front.length right).set (front.length + 1 + junk.length) left }
        (front ++ next :: (junk ++ (next.1, item.2) :: todo)) := by
  have place : front.length + 1 + junk.length = front.length + (junk.length + 1) := by omega
  have labels : group.labels =
      front.map labelIn ++ labelIn item :: (junk.map labelIn ++ labelIn next :: todo.map labelIn) := by
    rw [lists.labels]
    simp [labelIn]
  refine ⟨labelIn item, labelIn next, ?_, ?_, ?_, ?_, ?_⟩
  · simp [labels]
  · simp [labels, place]
  · rw [lists.features]
    simp
  · rw [labels, place]
    simp [labelIn]
  · simpa [or_imp, forall_and, and_comm, and_left_comm, and_assoc] using lists.each

end Group.Lists

namespace Pass

variable {audit : Bool} {group : Group} {pass : Pass} {items front behind junk todo : List Item} {kept next item : Item}

theorem run_featureAt {place : Nat} (lists : pass.group.Lists audit items) (found : items[place]? = some item) :
    (featureAt place).run pass = (.ok item.1, pass) := by
  unfold featureAt
  rw [Attempt.run_bind_ok (Attempt.run_get _), lists.features, List.getElem?_map, found]
  rfl

theorem run_put {place : Nat} (inside : place < pass.group.features.length) (feature : Feature) :
    (put place feature).run pass =
      (.ok (), { pass with group := { pass.group with features := pass.group.features.set place feature } }) := by
  unfold put
  rw [Attempt.run_bind_ok (Attempt.run_get _)]
  dsimp only
  rw [if_pos inside]
  rfl

theorem run_swapLabels {i j : Nat} {left right : Label} (first : pass.group.labels[i]? = some left)
    (second : pass.group.labels[j]? = some right) :
    (swapLabels i j).run pass =
      (.ok (), { pass with group := { pass.group with labels := (pass.group.labels.set i right).set j left } }) := by
  unfold swapLabels
  rw [Attempt.run_bind_ok (Attempt.run_get _)]
  dsimp only
  rw [first, second]
  rfl

/-- The entries at the front, the last one that is kept and what stands behind them. -/
structure Holds (audit : Bool) (group : Group) (front : List Item) (kept : Item) (behind : List Item) (pass : Pass) :
    Prop where
  lists : pass.group.Lists audit (front ++ kept :: behind)
  last : pass.last = front.length
  others : { pass.group with features := group.features, labels := group.labels } = group

theorem holds_start (lists : group.Lists audit (kept :: todo)) : Holds audit group [] kept ([] ++ todo) (start group) :=
  ⟨lists, rfl, rfl⟩

/-- Bringing an entry forward leaves a feature that is not needed at its place. -/
theorem run_bring (pass : Pass) (lists : pass.group.Lists audit (front ++ item :: (junk ++ next :: todo))) :
    ∃ reached, (bring audit front.length (front.length + 1 + junk.length)).run pass = (.ok (), reached) ∧
      reached.last = pass.last ∧ reached.sum = pass.sum ∧
      reached.group.Lists audit (front ++ next :: (junk ++ (next.1, item.2) :: todo)) ∧
      { reached.group with features := pass.group.features, labels := pass.group.labels } = pass.group := by
  have place : front.length + 1 + junk.length = front.length + (junk.length + 1) := by omega
  have read : (front ++ item :: (junk ++ next :: todo))[front.length + 1 + junk.length]? = some next := by
    rw [place]
    simp
  have inside : front.length < pass.group.features.length := by
    rw [lists.features]
    simp
  have written := lists.replace next.1
  unfold bring
  rw [Attempt.run_bind_ok (run_featureAt lists read), Attempt.run_bind_ok (run_put inside next.1)]
  cases audit with
  | false =>
    -- There are no labels, so the feature that is copied is the whole entry.
    have own : item.2 = none := by simpa using lists.each item (by simp)
    have other : next.2 = none := by simpa using lists.each next (by simp)
    have whole : next = (next.1, item.2) := by rw [own, ← other]
    exact ⟨_, rfl, rfl, rfl, by rwa [← whole] at written ⊢, rfl⟩
  | true =>
    obtain ⟨left, right, first, second, exchanged⟩ := Group.Lists.exchange written
    exact ⟨_, run_swapLabels first second, rfl, rfl, exchanged, rfl⟩

theorem run_bring_self (pass : Pass) (lists : pass.group.Lists audit (front ++ next :: todo)) :
    (bring audit front.length front.length).run pass = (.ok (), pass) := by
  have read : (front ++ next :: todo)[front.length]? = some next := by simp
  have inside : front.length < pass.group.features.length := by
    rw [lists.features]
    simp
  have rewritten : pass.group.features.set front.length next.1 = pass.group.features := by
    rw [lists.features]
    simp
  have put := run_put inside next.1
  rw [rewritten] at put
  unfold bring
  rw [Attempt.run_bind_ok (run_featureAt lists read), Attempt.run_bind_ok put]
  cases audit with
  | false => rfl
  | true =>
    have label : pass.group.labels[front.length]? = some (Group.labelIn next) := by
      rw [lists.labels]
      simp
    have relabelled : (pass.group.labels.set front.length (Group.labelIn next)).set front.length
        (Group.labelIn next) = pass.group.labels := by
      rw [lists.labels]
      simp
    rw [if_pos rfl, run_swapLabels label label, relabelled]

theorem Holds.advance (holds : Holds audit group front kept (junk ++ next :: todo) pass) (sum : Float32) :
    ∃ reached moved, moved.length = junk.length ∧
      (bring audit (front.length + 1) (front.length + 1 + junk.length)).run
        { pass with last := front.length + 1, sum } = (.ok (), reached) ∧
      reached.sum = sum ∧ Holds audit group (front ++ [kept]) next (moved ++ todo) reached := by
  have behind : (front ++ [kept]).length = front.length + 1 := by simp
  have lists := holds.lists
  rw [List.append_cons] at lists
  rw [← behind]
  cases junk with
  | nil =>
    exact ⟨_, [], rfl, run_bring_self { pass with last := _, sum } lists, rfl, lists, rfl, holds.others⟩
  | cons item junk =>
    obtain ⟨reached, run, last, same, moved, others⟩ := run_bring { pass with last := _, sum } lists
    have place : (front ++ [kept]).length + 1 + junk.length = (front ++ [kept]).length + (item :: junk).length := by
      simp; omega
    rw [place] at run
    refine ⟨reached, junk ++ [(next.1, item.2)], by simp, run, same, ?_, last, ?_⟩
    · simpa using moved
    · exact (congrArg (fun g : Group => { g with features := group.features, labels := group.labels }) others).trans
        holds.others

/-! ## Summing up -/

theorem Holds.run_kept (holds : Holds audit group front kept behind pass) :
    (featureAt pass.last).run pass = (.ok kept.1, pass) :=
  run_featureAt holds.lists (by simp [holds.last])

theorem Holds.run_next (holds : Holds audit group front kept (junk ++ next :: todo) pass) :
    (featureAt (front.length + 1 + junk.length)).run pass = (.ok next.1, pass) := by
  have place : front.length + 1 + junk.length = front.length + (junk.length + 1) := by omega
  exact run_featureAt holds.lists (by simp [place])

theorem Holds.run_mergeNext_of_eq (holds : Holds audit group front kept (junk ++ next :: todo) pass)
    (same : next.1.index = kept.1.index) :
    ∃ reached, (mergeNext audit (front.length + 1 + junk.length)).run pass = (.ok (), reached) ∧
      reached.sum = pass.sum ∧ Holds audit group front (Group.plus kept next) (junk ++ next :: todo) reached := by
  have inside : pass.last < pass.group.features.length := by
    rw [holds.last, holds.lists.features]
    simp
  have replaced := holds.lists.replace (Group.plus kept next).1
  unfold mergeNext
  rw [Attempt.run_bind_ok (Attempt.run_get _), Attempt.run_bind_ok holds.run_kept, Attempt.run_bind_ok holds.run_next,
    if_pos same, run_put inside]
  refine ⟨_, rfl, rfl, ?_, holds.last, holds.others⟩
  rw [holds.last]
  exact replaced

theorem Holds.run_mergeNext_of_ne (holds : Holds audit group front kept (junk ++ next :: todo) pass)
    (other : next.1.index ≠ kept.1.index) :
    ∃ reached moved, moved.length = junk.length ∧
      (mergeNext audit (front.length + 1 + junk.length)).run pass = (.ok (), reached) ∧
      reached.sum = pass.sum + kept.1.value * kept.1.value ∧
      Holds audit group (front ++ [kept]) next (moved ++ todo) reached := by
  obtain ⟨reached, moved, length, run, sum, after⟩ := holds.advance (pass.sum + kept.1.value * kept.1.value)
  refine ⟨reached, moved, length, ?_, sum, after⟩
  unfold mergeNext
  rw [Attempt.run_bind_ok (Attempt.run_get _), Attempt.run_bind_ok holds.run_kept, Attempt.run_bind_ok holds.run_next,
    if_neg other, Attempt.run_bind_ok (Attempt.run_modify _ _), holds.last]
  exact run

/-- Going on from any place treats the rest run by run. -/
theorem Holds.run_mergeNext (holds : Holds audit group front kept (junk ++ todo) pass) :
    ∃ reached done last behind,
      ((List.range' (front.length + 1 + junk.length) todo.length).forM (mergeNext audit)).run pass =
        (.ok (), reached) ∧
      Holds audit group done last behind reached ∧
      done ++ [last] = front ++ Group.foldRuns Group.plus kept todo ∧
      reached.sum + last.1.value * last.1.value =
        addSquares pass.sum ((Group.foldRuns Group.plus kept todo).map Prod.fst) := by
  induction todo generalizing front kept junk pass with
  | nil =>
    rw [List.append_nil] at holds
    exact ⟨pass, front, kept, junk, rfl, holds, rfl, rfl⟩
  | cons next todo ih =>
    rw [List.length_cons, List.range'_succ]
    unfold Group.foldRuns
    split
    case isTrue same =>
      obtain ⟨reached, step, sum, after⟩ := holds.run_mergeNext_of_eq same
      rw [List.append_cons] at after
      obtain ⟨ended, done, last, behind, run, rest⟩ := ih after
      rw [sum] at rest
      refine ⟨ended, done, last, behind, ?_, rest⟩
      rw [Attempt.run_forM_cons step]
      simpa [Nat.add_assoc] using run
    case isFalse other =>
      obtain ⟨reached, moved, length, step, sum, after⟩ := holds.run_mergeNext_of_ne other
      obtain ⟨ended, done, last, behind, run, holds, made, squares⟩ := ih after
      refine ⟨ended, done, last, behind, ?_, holds, by simpa using made, ?_⟩
      · rw [Attempt.run_forM_cons step]
        simpa [length, Nat.add_right_comm] using run
      · rw [squares, sum]
        rfl

theorem take_append_cons (front : List Item) (kept : Item) (behind : List Item) :
    (front ++ kept :: behind).take (front.length + 1) = front ++ [kept] := by
  rw [List.take_length_add_append, List.take_succ_cons, List.take_zero]

theorem Holds.lists_front (holds : Holds audit group front kept behind pass) :
    pass.front.Lists audit (front ++ [kept]) where
  features := by
    rw [Pass.front, holds.lists.features, holds.last, ← List.map_take, take_append_cons]
  labels := by
    rw [Pass.front, holds.lists.labels, holds.last]
    cases audit with
    | false => exact List.take_nil
    | true => rw [if_pos rfl, if_pos rfl, ← List.map_take, take_append_cons]
  each item member := holds.lists.each item (by rw [List.append_cons]; exact List.mem_append_left _ member)

theorem Holds.front_eq (holds : Holds audit group front kept behind pass) {made : Group} {sum : Float32}
    (lists : made.Lists audit (front ++ [kept]))
    (others : made = { group with features := made.features, labels := made.labels, sumSquares := sum }) :
    { pass.front with sumSquares := sum } = made := by
  have features : pass.front.features = made.features := holds.lists_front.features.trans lists.features.symm
  have labels : pass.front.labels = made.labels := holds.lists_front.labels.trans lists.labels.symm
  have same := congrArg (fun g : Group => { g with features := made.features, labels := made.labels, sumSquares := sum })
    holds.others
  calc { pass.front with sumSquares := sum }
      = { pass.group with features := made.features, labels := made.labels, sumSquares := sum } := by
        rw [← features, ← labels]
        rfl
    _ = made := same.trans others.symm

/-! ## Keeping first entries -/

theorem Holds.run_keepNext_of_eq (holds : Holds audit group front kept (junk ++ next :: todo) pass)
    (same : next.1.index = kept.1.index) :
    (keepNext audit (front.length + 1 + junk.length)).run pass = (.ok (), pass) := by
  unfold keepNext
  rw [Attempt.run_bind_ok (Attempt.run_get _), Attempt.run_bind_ok holds.run_kept, Attempt.run_bind_ok holds.run_next,
    if_neg (not_not.2 same)]
  rfl

theorem Holds.run_keepNext_of_ne (holds : Holds audit group front kept (junk ++ next :: todo) pass)
    (other : next.1.index ≠ kept.1.index) :
    ∃ reached moved, moved.length = junk.length ∧
      (keepNext audit (front.length + 1 + junk.length)).run pass = (.ok (), reached) ∧
      Holds audit group (front ++ [kept]) next (moved ++ todo) reached := by
  unfold keepNext
  rw [Attempt.run_bind_ok (Attempt.run_get _), Attempt.run_bind_ok holds.run_kept, Attempt.run_bind_ok holds.run_next,
    if_pos other, Attempt.run_bind_ok (Attempt.run_modify _ _), holds.last]
  cases junk with
  | nil =>
    -- The entry is where it belongs.
    rw [if_neg (by simp)]
    refine ⟨_, [], rfl, rfl, ?_, by simp, holds.others⟩
    simpa using holds.lists
  | cons item junk =>
    rw [if_pos (by simp)]
    obtain ⟨reached, moved, length, run, -, after⟩ := holds.advance pass.sum
    exact ⟨reached, moved, length, run, after⟩

/-- Going on from any place keeps the entries that do not repeat an index, as long as the cap allows. -/
theorem Holds.run_keepUpTo (holds : Holds audit group front kept (junk ++ todo) pass) (cap : Option Nat) :
    ∃ reached done last behind,
      (keepUpTo cap audit (List.range' (front.length + 1 + junk.length) todo.length)).run pass = (.ok (), reached) ∧
      Holds audit group done last behind reached ∧
      done ++ [last] = front ++ kept ::
        Group.capped (cap.map (· - (front.length + 1))) (Group.dropRepeats (some kept.1.index) todo) := by
  induction todo generalizing front kept junk pass with
  | nil =>
    rw [List.append_nil] at holds
    refine ⟨pass, front, kept, junk, rfl, holds, ?_⟩
    rw [Group.dropRepeats, Group.capped_nil]
  | cons next todo ih =>
    rw [List.length_cons, List.range'_succ, keepUpTo, Attempt.run_bind_ok (Attempt.run_get _), holds.last]
    dsimp only
    split
    case isTrue full =>
      obtain ⟨n, rfl, reached⟩ := (Option.any_eq_true _ _).1 full
      refine ⟨pass, front, kept, junk ++ next :: todo, rfl, holds, ?_⟩
      have none : n - (front.length + 1) = 0 := Nat.sub_eq_zero_of_le (by simpa using reached)
      simp [Group.capped, none]
    case isFalse room =>
      by_cases same : next.1.index = kept.1.index
      · rw [Attempt.run_bind_ok (holds.run_keepNext_of_eq same), Group.dropRepeats_of_eq same]
        have after := holds
        rw [List.append_cons] at after
        obtain ⟨ended, done, last, behind, run, rest⟩ := ih after
        exact ⟨ended, done, last, behind, by simpa [Nat.add_assoc] using run, rest⟩
      · obtain ⟨reached, moved, length, step, after⟩ := holds.run_keepNext_of_ne same
        obtain ⟨ended, done, last, behind, run, holds, made⟩ := ih after
        refine ⟨ended, done, last, behind, ?_, holds, ?_⟩
        · rw [Attempt.run_bind_ok step]
          simpa [length, Nat.add_right_comm] using run
        · rw [made, Group.dropRepeats_of_ne same]
          cases cap with
          | none => simp [Group.capped]
          | some n =>
            have more : n - (front.length + 1) = n - (front.length + 1 + 1) + 1 := by
              simp at room
              omega
            simp [Group.capped, more]

end Pass

namespace Group

variable {group : Group}

theorem Lists.isAudited_of_cons {audit : Bool} {item : Item} {rest : List Item}
    (lists : group.Lists audit (item :: rest)) : group.isAudited = audit := by
  simpa using lists.isAudited_eq

theorem Lists.laterPlaces_eq {audit : Bool} {item : Item} {rest : List Item}
    (lists : group.Lists audit (item :: rest)) : group.laterPlaces = List.range' 1 rest.length := by
  rw [laterPlaces, length, lists.features, List.length_map, List.length_cons, Nat.add_sub_cancel]

theorem Lists.exists_cons {audit : Bool} {items : List Item} (lists : group.Lists audit items)
    (present : group.isEmpty = false) : ∃ first rest, items = first :: rest := by
  rw [lists.isEmpty_eq, List.isEmpty_eq_false_iff] at present
  exact List.exists_cons_of_ne_nil present

/-- Summing up in place comes to the same as summing up run by run. -/
theorem Complete.run_mergeInPlace (complete : group.Complete) : mergeInPlace.run group = mergeRuns.run group := by
  cases empty : group.isEmpty with
  | true =>
    unfold mergeInPlace mergeRuns
    rw [Attempt.run_make, Attempt.run_make]
    dsimp only
    rw [if_pos empty, if_pos empty]
  | false =>
    obtain ⟨audit, lists⟩ := complete.lists
    obtain ⟨first, rest, items⟩ := lists.exists_cons empty
    rw [items] at lists
    obtain ⟨merged, run, keeps, -, same⟩ := lists.run_mergeRuns
    obtain ⟨pass, front, kept, behind, loop, holds, made, squares⟩ := (Pass.holds_start lists).run_mergeNext
    rw [List.length_nil, Nat.zero_add, Nat.add_zero] at loop
    rw [folds_total.filterMap_entryRuns_cons] at keeps
    have sum : pass.sum + kept.1.value * kept.1.value = addSquares 0 merged.features := by
      rw [squares, keeps.features]
      rfl
    rw [List.nil_append] at made
    rw [← made] at keeps
    have all : (Pass.mergeAll group.isAudited group.laterPlaces).run (.start group) =
        (.ok (addSquares 0 merged.features), pass) := by
      unfold Pass.mergeAll
      rw [lists.isAudited_of_cons, lists.laterPlaces_eq, Attempt.run_bind_ok loop,
        Attempt.run_bind_ok (Attempt.run_get _), Attempt.run_bind_ok holds.run_kept,
        Attempt.run_bind_ok (Attempt.run_get _), sum]
      rfl
    unfold mergeInPlace
    rw [Attempt.run_make, run, if_neg (by simp [empty]), all]
    dsimp only
    rw [holds.front_eq keeps same]

/-- Keeping first entries in place comes to the same as keeping them run by run. -/
theorem Complete.keepInPlace_eq (complete : group.Complete) (present : group.isEmpty = false) {cap : Option Nat}
    (room : cap ≠ some 0) : group.keepInPlace cap = group.keepFirsts cap := by
  obtain ⟨audit, lists⟩ := complete.lists
  obtain ⟨first, rest, items⟩ := lists.exists_cons present
  rw [items] at lists
  obtain ⟨result, run, keeps, same⟩ := lists.keepFirsts cap
  obtain ⟨pass, front, kept, behind, loop, holds, made⟩ := (Pass.holds_start lists).run_keepUpTo cap
  have firsts : front ++ [kept] = firstEntries cap (first :: rest) := by
    rw [made, firstEntries_eq, dropRepeats_none_cons]
    cases cap with
    | none => rfl
    | some n =>
      cases n with
      | zero => exact absurd rfl room
      | succ n => rfl
  rw [← firsts] at keeps
  have features : pass.front.features = result.features := holds.lists_front.features.trans keeps.features.symm
  have squares : pass.front.recompute = { pass.front with sumSquares := sumOfSquares result.features } := by
    rw [← features]
    rfl
  rw [List.length_nil, Nat.zero_add, Nat.add_zero] at loop
  unfold keepInPlace
  rw [lists.isAudited_of_cons, lists.laterPlaces_eq, loop, run]
  dsimp only
  rw [squares, holds.front_eq keeps same]

/-- Dropping repeated indices in place comes to the same as dropping them run by run. -/
theorem Complete.run_uniqueInPlace (complete : group.Complete) (cap : Option Nat) :
    (uniqueInPlace cap).run group = (unique cap).run group := by
  unfold uniqueInPlace unique
  rw [Attempt.run_make, Attempt.run_make]
  cases empty : group.isEmpty with
  | true => rfl
  | false =>
    match cap with
    | none => exact complete.keepInPlace_eq empty (by simp)
    | some 0 => rfl
    | some 1 => rfl
    | some (n + 2) => exact complete.keepInPlace_eq empty (by simp)

end Group

end HashedFeatures
