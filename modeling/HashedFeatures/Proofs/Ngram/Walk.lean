import HashedFeatures.Ngram.Walk
import HashedFeatures.Proofs.Ngram.Group

/-! The walk over the stack of offsets meets the windows in their order.

Each call leaves the stack as it found it. What it appends are the windows of all gaps that it can still
choose, the first of them widened by the skips that are used up already.
-/

set_option autoImplicit false

namespace HashedFeatures.Ngrams

def widen (used : Nat) : List Nat → List Nat
  | [] => []
  | gap :: gaps => (used + gap) :: gaps

theorem widen_widen (more used : Nat) (gaps : List Nat) : widen used (widen more gaps) = widen (used + more) gaps := by
  cases gaps with
  | nil => rfl
  | cons gap gaps => rw [widen, widen, widen, Nat.add_assoc]

theorem widen_zero (gaps : List Nat) : widen 0 gaps = gaps := by
  cases gaps with
  | nil => rfl
  | cons gap gaps => rw [widen, Nat.zero_add]

-- The first gap is none, or one of the skips goes into it.
theorem gapVectors_succ_succ (count skips : Nat) : gapVectors (count + 1) (skips + 1) =
    (gapVectors count (skips + 1)).map (0 :: ·) ++ (gapVectors (count + 1) skips).map (widen 1) := by
  rw [gapVectors, List.range_succ_eq_map, List.flatMap_cons, List.flatMap_map, gapVectors, List.map_flatMap]
  congr 1
  apply List.flatMap_congr
  intro gap _
  rw [List.map_map, Nat.succ_sub_succ]
  apply List.map_congr_left
  intro gaps _
  rw [Function.comp_apply, widen, Nat.add_comm]

namespace Walk

variable {group : Group} {windows : List (List Nat)} {stack offsets : List Nat} {place first : Nat}

theorem run_indexAt (inside : place < group.length) :
    (indexAt place).run ⟨group.withGrams windows, stack⟩ =
      (.ok (group.indexAt place), ⟨group.withGrams windows, stack⟩) := by
  have within : place < group.features.length := inside
  unfold indexAt
  rw [Attempt.run_bind_ok (Attempt.run_get _), Group.getElem?_features_withGrams inside, Group.indexAt,
    List.getElem?_eq_getElem within]
  rfl

theorem run_nameAt {walk : Walk} (complete : group.Complete) (audited : group.isAudited = true)
    (same : walk.group.labels = (group.withGrams windows).labels) (inside : place < group.length) :
    (nameAt place).run walk = (.ok (group.labelAt place).feature, walk) := by
  unfold nameAt
  rw [Attempt.run_bind_ok (Attempt.run_get walk), same, Group.getElem?_labels_withGrams windows complete audited inside]
  rfl

theorem run_index (start : first < group.length) (behind : ∀ offset ∈ offsets, first + offset < group.length) :
    (index first offsets).run ⟨group.withGrams windows, stack⟩ =
      (.ok (group.gram (first :: offsets.map (first + ·))).index, ⟨group.withGrams windows, stack⟩) := by
  unfold index
  rw [Attempt.run_bind_ok (run_indexAt start)]
  refine (Attempt.run_foldlM (fun index offset => index * indexFactor + group.indexAt (first + offset))
    (fun offset member index => ?_) _).trans ?_
  · exact Attempt.run_bind_ok (run_indexAt (behind offset member))
  · simp [Group.gram, foldIndices, List.foldl_map]

theorem intercalate_eq_foldl (separator first : String) (others : List String) :
    separator.intercalate (first :: others) = others.foldl (fun joined next => joined ++ separator ++ next) first := by
  induction others generalizing first with
  | nil => rfl
  | cons next others ih => exact ih (first ++ separator ++ next)

theorem run_name {walk : Walk} (windows : List (List Nat)) (complete : group.Complete)
    (audited : group.isAudited = true) (same : walk.group.labels = (group.withGrams windows).labels)
    (start : first < group.length) (behind : ∀ offset ∈ offsets, first + offset < group.length) :
    (name first offsets).run walk =
      (.ok ("^".intercalate ((first :: offsets.map (first + ·)).map fun place => (group.labelAt place).feature)),
        walk) := by
  unfold name
  rw [Attempt.run_bind_ok (run_nameAt complete audited same start), List.map_cons, intercalate_eq_foldl,
    List.map_map, List.foldl_map]
  refine Attempt.run_foldlM (fun name offset => name ++ "^" ++ (group.labelAt (first + offset)).feature)
    (fun offset member name => ?_) _
  exact Attempt.run_bind_ok (run_nameAt complete audited same (behind offset member))

/-- The n-gram that is read from a group under way is that of the group at the start. -/
theorem run_emit (complete : group.Complete) (inside : ∀ place ∈ first :: offsets.map (first + ·), place < group.length)
    (windows : List (List Nat)) (low : Nat) :
    (emit first).run ⟨group.withGrams windows, low :: offsets⟩ =
      (.ok (), ⟨group.withGrams (windows ++ [first :: offsets.map (first + ·)]), low :: offsets⟩) := by
  have start := inside first List.mem_cons_self
  have behind : ∀ offset ∈ offsets, first + offset < group.length := fun offset member =>
    inside _ (List.mem_cons_of_mem _ (List.mem_map_of_mem member))
  have offered : above.run ⟨group.withGrams windows, low :: offsets⟩ =
    (.ok offsets, ⟨group.withGrams windows, low :: offsets⟩) := rfl
  unfold emit
  rw [Attempt.run_bind_ok offered, Attempt.run_bind_ok (run_index start behind),
    Attempt.run_bind_ok (Attempt.run_modify _ _), Attempt.run_bind_ok (Attempt.run_get _)]
  dsimp only
  cases audited : group.isAudited with
  | false =>
    rw [Group.withGrams_append_of_plain audited, if_neg (by simp [Group.isAudited_withGrams, audited])]
    rfl
  | true =>
    -- The new feature leaves the labels alone.
    have labelled : ((group.withGrams windows).push
        (group.gram (first :: offsets.map (first + ·))).index .one).isAudited = true :=
      Group.isAudited_withGrams.trans audited
    rw [if_pos labelled,
      Attempt.run_bind_ok (run_name windows complete audited rfl start behind), Attempt.run_modify,
      Group.withGrams_append_of_audited audited]

def Climbing (offsets : List Nat) : Prop := ∀ offset ∈ offsets, offset ≤ offsets.getLastD 0

theorem Climbing.push (climbing : Climbing offsets) (used : Nat) :
    Climbing (offsets ++ [offsets.getLastD 0 + 1 + used]) := by
  intro offset member
  rw [List.getLastD_concat]
  rcases List.mem_append.1 member with before | last
  · have below := climbing offset before
    omega
  · exact Nat.le_of_eq (List.mem_singleton.1 last)

-- What is under way with one more offset on the stack are the vectors whose first gap is used up.
theorem flatMap_push (length count skips used : Nat) (offsets : List Nat) :
    ((gapVectors count skips).flatMap fun gaps =>
      windowsAt length ((offsets ++ [offsets.getLastD 0 + 1 + used]) ++
        marks ((offsets ++ [offsets.getLastD 0 + 1 + used]).getLastD 0) (widen 0 gaps))) =
      (gapVectors count skips).flatMap fun gaps =>
        windowsAt length (offsets ++ marks (offsets.getLastD 0) (widen used (0 :: gaps))) := by
  apply List.flatMap_congr
  intro gaps _
  rw [List.getLastD_concat, List.append_assoc, widen_zero]
  rfl

theorem run_emit_all (complete : group.Complete) (climbing : Climbing offsets) (windows : List (List Nat)) :
    ((List.range (group.length - offsets.getLastD 0)).forM emit).run ⟨group.withGrams windows, 0 :: offsets⟩ =
      (.ok (), ⟨group.withGrams (windows ++ windowsAt group.length offsets), 0 :: offsets⟩) := by
  have each : ∀ first ∈ List.range (group.length - offsets.getLastD 0), ∀ done,
      (emit first).run ⟨group.withGrams done, 0 :: offsets⟩ =
        (.ok (), ⟨group.withGrams (done ++ [first :: offsets.map (first + ·)]), 0 :: offsets⟩) := by
    intro first member done
    have room := List.mem_range.1 member
    refine run_emit complete (fun place inside => ?_) done 0
    rcases List.mem_cons.1 inside with rfl | later
    · omega
    · obtain ⟨offset, taken, rfl⟩ := List.mem_map.1 later
      have before := climbing offset taken
      omega
  have run := Attempt.run_forM_append (fun done => (⟨group.withGrams done, 0 :: offsets⟩ : Walk)) _ each windows
  rw [run, ← List.map_eq_flatMap]
  rfl

/-- The walk appends the windows of all vectors it has left and leaves the stack as it was. -/
theorem run_descend (complete : group.Complete) (count skips used : Nat) {offsets : List Nat}
    (climbing : Climbing offsets) (windows : List (List Nat)) :
    (descend group.length count skips used).run ⟨group.withGrams windows, 0 :: offsets⟩ =
      (.ok (), ⟨group.withGrams (windows ++ (gapVectors count skips).flatMap fun gaps =>
        windowsAt group.length (offsets ++ marks (offsets.getLastD 0) (widen used gaps))), 0 :: offsets⟩) := by
  induction count, skips, used using descend.induct generalizing offsets windows with
  | case1 skips used =>
    rw [descend, Attempt.run_bind_ok (Attempt.run_get _)]
    dsimp only
    rw [List.getLastD_cons, run_emit_all complete climbing windows]
    simp [gapVectors, widen, marks]
  | case2 count skips used deeper wider =>
    -- First the vectors that widen no further, then those for which one more skip is used.
    have taken := deeper (climbing.push used) windows
    rw [flatMap_push] at taken
    rw [descend.eq_def]
    dsimp only
    rw [Attempt.run_bind_ok (Attempt.run_get _)]
    dsimp only
    rw [List.getLastD_cons, Attempt.run_bind_ok (Attempt.run_modify _ _), List.cons_append,
      Attempt.run_bind_ok taken, Attempt.run_bind_ok (Attempt.run_modify _ _)]
    dsimp only
    rw [← List.cons_append, List.dropLast_concat]
    cases skips with
    | zero =>
      rw [gapVectors, List.range_one, List.flatMap_singleton, List.flatMap_map]
      rfl
    | succ skips =>
      rw [wider climbing, gapVectors_succ_succ, List.flatMap_append, List.flatMap_map, List.flatMap_map,
        List.append_assoc]
      simp only [widen_widen]

theorem run_length (complete : group.Complete) (skips more : Nat) (windows : List (List Nat)) (stack : List Nat) :
    (do
      modify fun walk => { walk with stack := [0] }
      descend group.length more skips 0 : Attempt Walk Unit).run ⟨group.withGrams windows, stack⟩ =
      (.ok (), ⟨group.withGrams (windows ++ (gapVectors more skips).flatMap fun gaps =>
        windowsAt group.length (marks 0 gaps)), [0]⟩) := by
  have climbing : Climbing [] := fun _ member => nomatch member
  have run := run_descend complete more skips 0 climbing windows
  simp only [widen_zero, List.nil_append] at run
  rw [Attempt.run_bind_ok (Attempt.run_modify _ _)]
  exact run

theorem run_addGrams (complete : group.Complete) {n : Nat} (long : 2 ≤ n) (skips : Nat) (stack : List Nat) :
    (addGrams n skips).run ⟨group, stack⟩ = (.ok (), ⟨group.withGrams (allWindows group.length n skips), [0]⟩) := by
  obtain ⟨more, rfl⟩ := Nat.exists_eq_add_of_le long
  have lengths : List.range' 1 (2 + more - 1) = 1 :: List.range' 2 more := by
    rw [show 2 + more - 1 = more + 1 by omega, List.range'_succ]
  have start := run_length complete skips 1 [] stack
  have each := fun longer (_ : longer ∈ List.range' 2 more) windows =>
    run_length complete skips longer windows [0]
  have rest := Attempt.run_forM_append (fun windows => (⟨group.withGrams windows, [0]⟩ : Walk)) _ each
  rw [Group.withGrams_nil, List.nil_append] at start
  unfold addGrams
  rw [Attempt.run_bind_ok (Attempt.run_get _), allWindows, lengths, List.flatMap_cons]
  exact (Attempt.run_bind_ok start).trans (rest _)

end Walk

end HashedFeatures.Ngrams
