import HashedFeatures.Proofs.Example.Operation
import HashedFeatures.Proofs.Ngram.Walk

/-! The n-grams of a whole example.

Every namespace is extended by itself, and both ways to generate lead to the same example.
-/

set_option autoImplicit false

namespace HashedFeatures.Ngrams

variable {ngrams : Ngrams} {ec : Example} {group : Group}

def extend (ngrams : Ngrams) (ns : UInt8) (group : Group) : Group :=
  if ngrams.gramsFor ns < 2 then group
  else group.withGrams (allWindows group.length (ngrams.gramsFor ns) (ngrams.skipsFor ns))

def advance (ngrams : Ngrams) (ec : Example) (ns : UInt8) : Example :=
  if ngrams.gramsFor ns < 2 then ec
  else (ec.touch (.id ns)).setGroup ns (ngrams.extend ns (ec.group (.id ns)))

theorem group_of_present {ns : UInt8} (present : ec.space.get? ns = some group) : ec.group (.id ns) = group := by
  have found : ec.get? (.id ns) = some group := present
  rw [Example.group, found, Option.getD_some]

theorem get?_advance {ns : UInt8} (present : ec.space.get? ns = some group) (other : UInt8) :
    (ngrams.advance ec ns).space.get? other =
      if ns = other then some (ngrams.extend ns group) else ec.space.get? other := by
  unfold advance
  split
  case isTrue short =>
    rw [extend, if_pos short]
    split
    case isTrue same => rw [← same, present]
    case isFalse => rfl
  case isFalse =>
    rw [Example.get?_setGroup, group_of_present present]
    split
    case isTrue => rfl
    case isFalse apart => exact (Example.get?_touch ec (.id ns) other).trans (if_neg apart)

theorem run_onNamespace {ns : UInt8} (present : ec.space.get? ns = some group) (complete : group.Complete) :
    (if ngrams.gramsFor ns < 2 then pure ()
      else Example.onGroup (.id ns) (addGrams (ngrams.gramsFor ns) (ngrams.skipsFor ns))).run ec =
      (.ok (), ngrams.advance ec ns) := by
  unfold advance extend
  split
  case isTrue => rfl
  case isFalse =>
    rw [Example.run_onGroup, Example.group_touch, group_of_present present, run_addGrams complete]
    rfl

theorem run_overNamespace (ngrams : Ngrams) {ns : UInt8} (present : ec.space.get? ns = some group)
    (complete : group.Complete) (stack : List Nat) : ∃ left,
    (if ngrams.gramsFor ns < 2 then pure () else ngrams.overNamespace ns).run (ec, stack) =
      (.ok (), (ngrams.advance ec ns, left)) := by
  unfold advance extend
  split
  case isTrue => exact ⟨stack, rfl⟩
  case isFalse long =>
    refine ⟨[0], ?_⟩
    unfold overNamespace
    rw [Attempt.run_bind_ok (Attempt.run_modify _ _), Attempt.run_focus]
    dsimp only
    rw [Example.group_touch, group_of_present present, Walk.run_addGrams complete (Nat.le_of_not_lt long)]

/-- Namespaces that come once each are extended one after the other, whatever is on the stack. -/
theorem run_namespaces (ngrams : Ngrams) {namespaces : List UInt8} (distinct : namespaces.Nodup)
    (complete : ∀ ns ∈ namespaces, ∃ group, ec.space.get? ns = some group ∧ group.Complete) :
    ∃ reached,
      (namespaces.forM fun ns =>
        if ngrams.gramsFor ns < 2 then pure ()
        else Example.onGroup (.id ns) (addGrams (ngrams.gramsFor ns) (ngrams.skipsFor ns))).run ec =
          (.ok (), reached) ∧
      (∀ stack, ∃ left, (namespaces.forM fun ns =>
        if ngrams.gramsFor ns < 2 then pure () else ngrams.overNamespace ns).run (ec, stack) =
          (.ok (), (reached, left))) ∧
      ∀ ns, reached.space.get? ns =
        if ns ∈ namespaces then (ec.space.get? ns).map (ngrams.extend ns) else ec.space.get? ns := by
  induction namespaces generalizing ec with
  | nil => exact ⟨ec, rfl, fun stack => ⟨stack, rfl⟩, fun _ => rfl⟩
  | cons ns namespaces ih =>
    obtain ⟨fresh, distinct⟩ := List.nodup_cons.1 distinct
    obtain ⟨group, present, whole⟩ := complete ns List.mem_cons_self
    have apart : ∀ other ∈ namespaces, (ngrams.advance ec ns).space.get? other = ec.space.get? other := by
      intro other member
      rw [get?_advance present, if_neg (ne_of_mem_of_not_mem member fresh).symm]
    obtain ⟨reached, run, stacked, each⟩ := @ih (ngrams.advance ec ns) distinct fun other member => by
      rw [apart other member]
      exact complete other (List.mem_cons_of_mem _ member)
    refine ⟨reached, ?_, fun stack => ?_, fun other => ?_⟩
    · exact (Attempt.run_bind_ok (run_onNamespace present whole)).trans run
    · obtain ⟨middle, first⟩ := run_overNamespace ngrams present whole stack
      obtain ⟨left, rest⟩ := stacked middle
      exact ⟨left, (Attempt.run_bind_ok first).trans rest⟩
    · rw [each other, get?_advance present]
      by_cases same : ns = other
      · subst same
        simp [fresh, present]
      · simp [same, Ne.symm same]

structure Appends (n skips : Nat) (group result : Group) : Prop where
  /-- The vectors of gaps come in lexicographic order, each of them once. -/
  ascending : ∀ count, (gapVectors count skips).Pairwise (· < ·)
  exhaustive : ∀ count gaps, gaps ∈ gapVectors count skips ↔ gaps.length = count ∧ gaps.sum ≤ skips
  inside : ∀ places ∈ allWindows group.length n skips, ∀ place ∈ places, place < group.length
  features : result.features = group.features ++ (allWindows group.length n skips).map group.gram
  labels : result.labels =
    if group.isAudited then group.labels ++ (allWindows group.length n skips).map group.gramLabel else []
  sumSquares : result.sumSquares = addSquares group.sumSquares ((allWindows group.length n skips).map group.gram)
  unchanged : { result with features := group.features, labels := group.labels, sumSquares := group.sumSquares } = group

theorem appends_withGrams (n skips : Nat) (group : Group) :
    Appends n skips group (group.withGrams (allWindows group.length n skips)) where
  ascending count := gapVectors_ascending count skips
  exhaustive _ _ := mem_gapVectors
  inside _ window := lt_of_mem_allWindows window
  features := rfl
  labels := rfl
  sumSquares := rfl
  unchanged := rfl

/-- Every namespace gets its n-grams and nothing else changes, whatever an earlier run left on the stack. -/
theorem generate_appends (ngrams : Ngrams) (ec : Example)
    (complete : ∀ ns group, ec.space.get? ns = some group → group.Complete) :
    ∃ reached, ngrams.generate.run ec = (.ok (), reached) ∧
      (∀ stack, ∃ left, ngrams.generateOver.run (ec, stack) = (.ok (), (reached, left))) ∧
      (∀ ns, ec.space.get? ns = none → reached.space.get? ns = none) ∧
      ∀ ns group, ec.space.get? ns = some group →
        (ngrams.gramsFor ns < 2 → reached.space.get? ns = some group) ∧
        (2 ≤ ngrams.gramsFor ns → ∃ result, reached.space.get? ns = some result ∧
          Appends (ngrams.gramsFor ns) (ngrams.skipsFor ns) group result) := by
  have present : ∀ ns ∈ ec.space.namespaces, ∃ group, ec.space.get? ns = some group ∧ group.Complete := by
    intro ns member
    obtain ⟨group, found⟩ := Option.isSome_iff_exists.1 (Space.mem_namespaces.1 member)
    exact ⟨group, found, complete ns group found⟩
  obtain ⟨reached, run, stacked, each⟩ := run_namespaces ngrams ec.space.nodup_namespaces present
  refine ⟨reached, run, stacked, fun ns absent => ?_, fun ns group found => ?_⟩
  · rw [each ns, absent]
    split <;> rfl
  · have member : ns ∈ ec.space.namespaces := Space.mem_namespaces.2 (by rw [found]; rfl)
    have extended : reached.space.get? ns = some (ngrams.extend ns group) := by
      rw [each ns, if_pos member, found, Option.map_some]
    refine ⟨fun short => ?_, fun long => ⟨_, extended, ?_⟩⟩
    · rw [extended, extend, if_pos short]
    · rw [extend, if_neg (Nat.not_lt.2 long)]
      exact appends_withGrams _ _ group

/-- Three labelled features with bigrams, trigrams and one skip. -/
theorem generate_appends_trigram :
    let words := [(1, "the"), (2, "cat"), (3, "sat")].foldl
      (fun group (index, name) => group.pushLabelled index .one true name "") (Group.named "w" 7)
    let ec := (Example.new 0).setGroup 119 words
    let ngrams : Ngrams := ⟨⟨3, []⟩, ⟨1, []⟩⟩
    ∃ reached result, ngrams.generate.run ec = (.ok (), reached) ∧ reached.space.get? 119 = some result ∧
      (∃ left, ngrams.generateOver.run (ec, [0, 5, 9]) = (.ok (), (reached, left))) ∧
      result.features.map Feature.index =
        [1, 2, 3, 27942141 + 2, 2 * 27942141 + 3, 27942141 + 3, (27942141 + 2) * 27942141 + 3] ∧
      result.labels.map Label.feature = ["the", "cat", "sat", "the^cat", "cat^sat", "the^sat", "the^cat^sat"] := by
  intro words ec ngrams
  have found : ec.space.get? 119 = some words := by rw [Example.get?_setGroup, if_pos rfl]
  have complete : ∀ ns group, ec.space.get? ns = some group → group.Complete :=
    Example.forall_get?_single (P := fun _ group => group.Complete) (.inr rfl)
  obtain ⟨reached, run, stacked, -, each⟩ := generate_appends ngrams ec complete
  obtain ⟨result, placed, appends⟩ := (each 119 words found).2 (by decide)
  refine ⟨reached, result, run, placed, stacked _, ?_, ?_⟩
  · rw [appends.features]
    decide
  · rw [appends.labels]
    decide

end HashedFeatures.Ngrams
