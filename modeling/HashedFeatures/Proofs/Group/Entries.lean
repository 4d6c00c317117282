import HashedFeatures.Proofs.Attempt.Invariant
import HashedFeatures.Proofs.Binary32.Difference
import HashedFeatures.Proofs.Group.Pieces
import HashedFeatures.Proofs.Group.Sort

/-! A group as a list of entries whose values are integers.

An entry has the label that it was added with. As long as the squares of the values sum up to a small integer, no step
of an operation rounds, and a group stays in step with its entries: its features, its labels and its sum of squares.
-/

set_option autoImplicit false

namespace HashedFeatures

open Binary32 (Stands)

structure Entry where
  index : UInt64
  value : Int
  label : Label
  deriving DecidableEq

namespace Entry

def squares (entries : List Entry) : Int := (entries.map fun entry => entry.value ^ 2).sum

def upTo (mask : UInt64) (left right : Entry) : Bool :=
  left.index &&& mask < right.index &&& mask ||
    (left.index &&& mask == right.index &&& mask && left.value ≤ right.value)

def runs (entries : List Entry) : List (List Entry) :=
  entries.splitBy fun left right => left.index == right.index

def runsUpTo (cap : Option Nat) (entries : List Entry) : List (List Entry) :=
  match cap with
  | some n => (runs entries).take n
  | none => runs entries

def firsts (cap : Option Nat) (entries : List Entry) : List Entry := (runsUpTo cap entries).filterMap List.head?

def total (run : List Entry) : Option Entry :=
  run.head?.map fun first => { first with value := (run.map Entry.value).sum }

def summed (entries : List Entry) : List Entry := (runs entries).filterMap total

@[simp] theorem squares_nil : squares [] = 0 := rfl

@[simp] theorem squares_cons (entry : Entry) (entries : List Entry) :
    squares (entry :: entries) = entry.value ^ 2 + squares entries := List.sum_cons

@[simp] theorem squares_append (left right : List Entry) :
    squares (left ++ right) = squares left + squares right := by
  unfold squares
  rw [List.map_append, List.sum_append]

theorem squares_nonneg (entries : List Entry) : 0 ≤ squares entries := by
  induction entries with
  | nil => exact le_refl 0
  | cons entry entries ih =>
    rw [squares_cons]
    positivity

theorem squares_perm {left right : List Entry} (same : left.Perm right) : squares left = squares right :=
  (same.map _).sum_eq

theorem flatten_runs (entries : List Entry) : (runs entries).flatten = entries := List.flatten_splitBy _ _

theorem exists_runsUpTo (cap : Option Nat) (entries : List Entry) :
    ∃ behind, (runsUpTo cap entries).flatten ++ behind = entries := by
  cases cap with
  | none => exact ⟨[], by rw [List.append_nil]; exact flatten_runs entries⟩
  | some n =>
    refine ⟨((runs entries).drop n).flatten, ?_⟩
    rw [runsUpTo, ← List.flatten_append, List.take_append_drop, flatten_runs]

-- Summing up a run leaves the label of its first entry.
theorem map_label_summed (entries : List Entry) :
    (summed entries).map label = ((runs entries).filterMap List.head?).map label := by
  unfold summed
  rw [List.map_filterMap, List.map_filterMap]
  apply List.filterMap_congr
  intro run _
  cases run <;> rfl

-- The first entry of all is the first of its run.
theorem firsts_one (entries : List Entry) : firsts (some 1) entries = entries.take 1 := by
  have whole := flatten_runs entries
  have some : [] ∉ runs entries := List.nil_notMem_splitBy _ _
  unfold firsts runsUpTo
  dsimp only
  generalize runs entries = pieces at whole some
  subst whole
  match pieces, some with
  | [], _ => rfl
  | [] :: _, some => exact absurd List.mem_cons_self some
  | (first :: rest) :: pieces, _ => simp

end Entry

theorem Binary32.Small.of_square {v : Int} (small : Small (v ^ 2)) : Small v := by
  have := Int.natAbs_le_self_sq v
  unfold Small at *
  omega

theorem Entry.small_of_mem {entries : List Entry} (small : Binary32.Small (squares entries)) {entry : Entry}
    (member : entry ∈ entries) : Binary32.Small entry.value := by
  have below : entry.value ^ 2 ≤ squares entries :=
    List.single_le_sum (by simpa using fun (other : Entry) _ => sq_nonneg other.value) _ (List.mem_map_of_mem member)
  exact (small.mono (sq_nonneg _) below).of_square

def Feature.Shows (feature : Feature) (entry : Entry) : Prop :=
  feature.index = entry.index ∧ Stands feature.value entry.value

namespace Group

structure Origin where
  name : String
  hash : UInt64
  multiplier : Single

def Origin.label (origin : Origin) (feature text : String) : Label := ⟨origin.name, origin.hash, feature, text⟩

def origin (group : Group) : Origin := ⟨group.name, group.hash, group.multiplier⟩

/-- The group is in step with its entries, which are labelled if they are audited. -/
structure Represents (audit : Bool) (origin : Origin) (group : Group) (entries : List Entry) : Prop where
  origin_eq : group.origin = origin
  shows : List.Forall₂ Feature.Shows group.features entries
  labels_eq : group.labels = if audit then entries.map Entry.label else []
  squares : Stands group.sumSquares (Entry.squares entries)

variable {audit : Bool} {origin : Origin} {group : Group} {entries : List Entry}

theorem stands_addSquares {features : List Feature} {entries : List Entry} {x : Float32} {n : Int}
    (shows : List.Forall₂ Feature.Shows features entries) (start : Stands x n) (nonneg : 0 ≤ n)
    (small : Binary32.Small (n + Entry.squares entries)) :
    Stands (addSquares x features) (n + Entry.squares entries) := by
  induction shows generalizing x n with
  | nil => simpa [addSquares] using start
  | @cons feature entry features entries first rest ih =>
    have others := Entry.squares_nonneg entries
    have own : 0 ≤ entry.value ^ 2 := sq_nonneg _
    rw [Entry.squares_cons, ← Int.add_assoc] at small ⊢
    have square : Stands (feature.value * feature.value) (entry.value ^ 2) := by
      rw [sq]
      apply first.2.mul first.2
      rw [← sq]
      exact small.mono own (by omega)
    exact ih (start.add square (small.mono (by omega) (by omega))) (by omega) small

theorem stands_sumOfSquares {features : List Feature} {entries : List Entry}
    (shows : List.Forall₂ Feature.Shows features entries) (small : Binary32.Small (Entry.squares entries)) :
    Stands (sumOfSquares features) (Entry.squares entries) := by
  have whole := stands_addSquares shows .negZero (le_refl 0) (by rwa [zero_add])
  rwa [zero_add] at whole

namespace Represents

theorem length_eq (rep : Represents audit origin group entries) : group.length = entries.length :=
  rep.shows.length_eq

theorem isEmpty_eq (rep : Represents audit origin group entries) : group.isEmpty = entries.isEmpty := by
  have length := rep.length_eq
  unfold Group.isEmpty
  rw [Bool.eq_iff_iff, List.isEmpty_iff_length_eq_zero, List.isEmpty_iff_length_eq_zero]
  exact ⟨fun none => length ▸ none, fun none => length.trans none⟩

theorem isAudited_eq (rep : Represents audit origin group entries) :
    group.isAudited = (audit && !entries.isEmpty) := by
  unfold isAudited
  rw [rep.labels_eq]
  cases audit <;> cases entries <;> rfl

theorem length_labels (rep : Represents audit origin group entries) :
    group.labels.length = if audit then group.length else 0 := by
  rw [rep.labels_eq, rep.length_eq]
  cases audit with
  | true => exact List.length_map _
  | false => rfl

theorem pushLabelled (rep : Represents audit origin group entries) {index : UInt64} {amount : Single} {value : Int}
    {feature text : String} (stands : Stands amount.number value)
    (small : Binary32.Small (Entry.squares entries + value ^ 2)) :
    Represents audit origin (group.pushLabelled index amount audit feature text)
      (entries ++ [⟨index, value, origin.label feature text⟩]) := by
  obtain ⟨rfl, shows, labels, squares⟩ := rep
  have added : List.Forall₂ Feature.Shows [⟨index, amount⟩] [⟨index, value, group.origin.label feature text⟩] :=
    .cons ⟨rfl, stands⟩ .nil
  have sum := stands_addSquares added squares (Entry.squares_nonneg entries) (by simpa using small)
  rw [← Entry.squares_append] at sum
  unfold Group.pushLabelled
  cases audit with
  | true =>
    have labelled : (group.push index amount).labels ++ [group.labelFor feature text] =
        (entries ++ [(⟨index, value, group.origin.label feature text⟩ : Entry)]).map Entry.label := by
      rw [List.map_append]
      exact congrArg (· ++ [group.labelFor feature text]) labels
    exact ⟨rfl, List.rel_append shows added, labelled, sum⟩
  | false => exact ⟨rfl, List.rel_append shows added, labels, sum⟩

theorem clear (rep : Represents audit origin group entries) : Represents audit origin group.clear [] where
  origin_eq := rep.origin_eq
  shows := .nil
  labels_eq := by cases audit <;> rfl
  squares := .zero

theorem truncate (rep : Represents audit origin group entries) (small : Binary32.Small (Entry.squares entries))
    {length : Nat} (within : length ≤ entries.length) :
    ∃ after, group.truncate length = .ok after ∧ Represents audit origin after (entries.take length) := by
  obtain ⟨rfl, shows, labels, squares⟩ := rep
  have split : Entry.squares (entries.take length) + Entry.squares (entries.drop length) = Entry.squares entries := by
    rw [← Entry.squares_append, List.take_append_drop]
  have kept := Entry.squares_nonneg (entries.take length)
  have dropped := Entry.squares_nonneg (entries.drop length)
  have removed := stands_sumOfSquares (List.forall₂_drop length shows) (small.mono dropped (by omega))
  have rest : Stands (group.sumSquares - sumOfSquares (group.features.drop length))
      (Entry.squares (entries.take length)) := by
    have difference : Entry.squares (entries.take length) =
        Entry.squares entries - Entry.squares (entries.drop length) := by omega
    rw [difference]
    exact squares.sub removed (small.mono (by omega) (by omega))
  have enough : ¬ group.length < length := by
    rw [Group.length, shows.length_eq]
    omega
  refine ⟨_, if_neg enough, rfl, List.forall₂_take length shows, ?_, rest⟩
  rw [labels]
  cases audit with
  | true => exact List.map_take.symm
  | false => exact List.take_nil

theorem concat_eq (rep : Represents audit origin group entries) {otherOrigin : Origin} {other : Group}
    {others : List Entry} (also : Represents audit otherOrigin other others) :
    group.concat other =
      if audit ∧ entries ≠ [] ∧ others = [] then .error .auditMismatch
      else .ok { group with
        features := group.features ++ other.features
        labels := group.labels ++ other.labels
        sumSquares := group.sumSquares + other.sumSquares } := by
  unfold Group.concat
  rw [rep.isEmpty_eq, rep.isAudited_eq, also.isAudited_eq]
  congr 1
  cases audit <;> cases entries <;> cases others <;> simp

theorem concat (rep : Represents audit origin group entries) {otherOrigin : Origin} {other : Group}
    {others : List Entry} (also : Represents audit otherOrigin other others)
    (small : Binary32.Small (Entry.squares (entries ++ others))) :
    Represents audit origin { group with
      features := group.features ++ other.features
      labels := group.labels ++ other.labels
      sumSquares := group.sumSquares + other.sumSquares } (entries ++ others) := by
  rw [Entry.squares_append] at small
  refine ⟨rep.origin_eq, List.rel_append rep.shows also.shows, ?_, ?_⟩
  · rw [rep.labels_eq, also.labels_eq]
    cases audit with
    | true => exact List.map_append.symm
    | false => rfl
  · rw [Entry.squares_append]
    exact rep.squares.add also.squares small

end Represents

/-! ## Sorting -/

theorem before_eq {f g : Feature} {left right : Entry} (first : f.Shows left) (second : g.Shows right)
    (small : Binary32.Small left.value) (alsoSmall : Binary32.Small right.value) (mask : UInt64) :
    (!Feature.before mask g f) = Entry.upTo mask left right := by
  have order := second.2.lt_iff first.2 alsoSmall small
  unfold Feature.before Entry.upTo
  rw [first.1, second.1]
  dsimp only
  generalize left.index &&& mask = x, right.index &&& mask = y
  rw [Bool.eq_iff_iff, Bool.not_eq_true', ← Bool.not_eq_true]
  simp only [Bool.or_eq_true, Bool.and_eq_true, beq_iff_eq, decide_eq_true_eq, UInt64.lt_iff_toNat_lt,
    ← UInt64.toNat_inj, order]
  omega

theorem Represents.isComparable (rep : Represents audit origin group entries) : group.isComparable = true := by
  have numbers : ∀ {features : List Feature} {entries : List Entry}, List.Forall₂ Feature.Shows features entries →
      ∀ f ∈ features, f.value.isNaN = false := by
    intro features entries shows
    induction shows with
    | nil => simp
    | cons first _ ih => exact List.forall_mem_cons.2 ⟨first.2.isInteger.isNaN, ih⟩
  unfold Group.isComparable
  rw [List.all_eq_true]
  intro f member
  rw [numbers rep.shows f member]
  rfl

/-- The order that is found for the features arranges the labels and the entries alike. -/
theorem Represents.arrange (rep : Represents audit origin group entries)
    (small : Binary32.Small (Entry.squares entries)) (mask : UInt64) :
    ∃ places, group.order mask = .ok places ∧
      Represents audit origin (group.arrange places) (entries.mergeSort (Entry.upTo mask)) := by
  obtain ⟨lengths, paired⟩ := List.forall₂_iff_zip.1 rep.shows
  -- The features and the entries are the sides of one list of pairs, which the sort arranges.
  have left : group.features = (group.features.zip entries).map Prod.fst := (List.map_fst_zip lengths.le).symm
  have right : entries = (group.features.zip entries).map Prod.snd := (List.map_snd_zip lengths.ge).symm
  generalize group.features.zip entries = pairs at paired left right
  have agree : ∀ p ∈ pairs, ∀ q ∈ pairs, (!Feature.before mask q.1 p.1) = Entry.upTo mask p.2 q.2 := by
    intro p first q second
    have each : ∀ r ∈ pairs, Binary32.Small r.2.value := by
      intro r member
      apply Entry.small_of_mem small
      rw [right]
      exact List.mem_map_of_mem member
    exact before_eq (paired first) (paired second) (each p first) (each q second) mask
  have order : group.order mask =
      .ok (Arrangement.stableOrder (fun p q : Feature × Entry => Feature.before mask p.1 q.1) pairs) := by
    rw [Group.order, if_pos rep.isComparable, left, Arrangement.stableOrder_map]
  have picked : ∀ {β : Type} (f : Feature × Entry → β),
      Arrangement.pick (Arrangement.stableOrder (fun p q : Feature × Entry => Feature.before mask p.1 q.1) pairs)
        (pairs.map f) = (pairs.mergeSort fun p q => !Feature.before mask q.1 p.1).map f := by
    intro β f
    rw [Arrangement.pick_map, Arrangement.pick_stableOrder]
  have sorted : entries.mergeSort (Entry.upTo mask) =
      (pairs.mergeSort fun p q => !Feature.before mask q.1 p.1).map Prod.snd := by
    rw [right, List.map_mergeSort agree]
  have shown : ∀ p ∈ pairs.mergeSort fun p q => !Feature.before mask q.1 p.1, p.1.Shows p.2 :=
    fun p member => paired (List.mem_mergeSort.1 member)
  refine ⟨_, order, rep.origin_eq, ?_, ?_, ?_⟩
  · unfold Group.arrange
    rw [left, picked, sorted, List.forall₂_map_left_iff, List.forall₂_map_right_iff, List.forall₂_same]
    exact shown
  · have beyond : group.labels.drop group.length = [] := by
      rw [List.drop_eq_nil_iff, rep.length_labels]
      split <;> omega
    unfold Group.arrange
    rw [beyond, List.append_nil, rep.labels_eq, sorted]
    cases audit with
    | true => rw [if_pos rfl, if_pos rfl, right, List.map_map, picked, List.map_map]
    | false => simp [Arrangement.pick]
  · rw [Entry.squares_perm (List.mergeSort_perm entries _)]
    exact rep.squares

theorem Represents.sort (rep : Represents audit origin group entries) (small : Binary32.Small (Entry.squares entries))
    (mask : UInt64) :
    ∃ some after, (Group.sort mask).run group = (.ok some, after) ∧
      Represents audit origin after (entries.mergeSort (Entry.upTo mask)) := by
  obtain ⟨places, order, arranged⟩ := rep.arrange small mask
  cases empty : group.isEmpty with
  | true =>
    have none : entries = [] := List.isEmpty_iff.1 (rep.isEmpty_eq ▸ empty)
    refine ⟨false, group, run_sort_of_isEmpty mask empty, ?_⟩
    subst none
    rwa [List.mergeSort_nil]
  | false =>
    refine ⟨true, _, run_sort_of_order empty order fun audited => ?_, arranged⟩
    rw [rep.isAudited_eq, Bool.and_eq_true] at audited
    rw [rep.length_labels, if_pos audited.1]

/-! ## Runs -/

def ShowsRun (run : Run) (piece : List Entry) : Prop := List.Forall₂ Feature.Shows run.features piece

theorem ShowsRun.sameLength {run : Run} {piece : List Entry} (shows : ShowsRun run piece) : run.SameLength piece :=
  (List.Forall₂.length_eq shows).symm

theorem Represents.runs (rep : Represents audit origin group entries) :
    List.Forall₂ ShowsRun (Run.ofFeatures group.features) (Entry.runs entries) := by
  have agree : ∀ (f g : Feature) (left right : Entry), f.Shows left → g.Shows right →
      (f.index == g.index) = (left.index == right.index) := by
    intro f g left right first second
    rw [first.1, second.1]
  have cut := forall₂_splitBy agree rep.shows
  rwa [← Run.map_features_ofFeatures, List.forall₂_map_left_iff] at cut

theorem shows_firsts {runs : List Run} {pieces : List (List Entry)} (shows : List.Forall₂ ShowsRun runs pieces) :
    List.Forall₂ Feature.Shows (runs.map Run.first) (pieces.filterMap List.head?) := by
  induction shows with
  | nil => exact .nil
  | cons own _ ih =>
    cases own with
    | cons first _ => exact .cons first ih

theorem stands_added {features : List Feature} {entries : List Entry} {x : Float32} {n : Int}
    (shows : List.Forall₂ Feature.Shows features entries) (start : Stands x n)
    (small : (n.natAbs : Int) + Entry.squares entries ≤ 2 ^ 24) :
    Stands ((features.map Feature.value).foldl (· + ·) x) (n + (entries.map Entry.value).sum) := by
  induction shows generalizing x n with
  | nil => simpa using start
  | @cons feature entry features entries first rest ih =>
    have own := Int.natAbs_le_self_sq entry.value
    have others := Entry.squares_nonneg entries
    rw [Entry.squares_cons] at small
    have next : Stands (x + feature.value) (n + entry.value) := start.add first.2 (by unfold Binary32.Small; omega)
    have whole := ih next (by omega)
    rw [List.map_cons, List.foldl_cons, List.map_cons, List.sum_cons, ← Int.add_assoc]
    exact whole

theorem shows_summed {runs : List Run} {pieces : List (List Entry)} (shows : List.Forall₂ ShowsRun runs pieces)
    (small : Binary32.Small (Entry.squares pieces.flatten)) :
    List.Forall₂ Feature.Shows (runs.map Run.merged) (pieces.filterMap Entry.total) := by
  induction shows with
  | nil => exact .nil
  | @cons run piece runs pieces own _ ih =>
    rw [List.flatten_cons, Entry.squares_append] at small
    have within := Entry.squares_nonneg piece
    have behind := Entry.squares_nonneg pieces.flatten
    have later := ih (small.mono behind (by omega))
    unfold ShowsRun Run.features at own
    cases own with
    | @cons _ first _ rest shown others =>
      refine .cons ⟨shown.1, ?_⟩ later
      rw [Run.value_merged]
      apply stands_added others shown.2
      have := Int.natAbs_le_self_sq first.value
      rw [Entry.squares_cons] at small within
      unfold Binary32.Small at small
      omega

namespace Represents

theorem keepRuns (rep : Represents audit origin group entries) {runs : List Run} {pieces : List (List Entry)}
    {behind : List Entry} (shows : List.Forall₂ ShowsRun runs pieces) (cut : pieces.flatten ++ behind = entries)
    (small : Binary32.Small (Entry.squares (pieces.filterMap List.head?))) (needed : Nat × Nat → Bool) :
    ∃ labels, group.labelsOf needed (Run.starts runs) = .ok labels ∧
      Represents audit origin (recompute { group with features := runs.map Run.first, labels })
        (pieces.filterMap List.head?) := by
  have labels := rep.labels_eq
  rw [← cut] at labels
  have kept := shows_firsts shows
  have read := labelsOf_starts Entry.label (shows.imp fun _ _ => ShowsRun.sameLength) labels needed
  exact ⟨_, read, rep.origin_eq, kept, rfl, stands_sumOfSquares kept small⟩

theorem keepFirsts (rep : Represents audit origin group entries) (cap : Option Nat)
    (small : Binary32.Small (Entry.squares (Entry.firsts cap entries))) :
    ∃ after, group.keepFirsts cap = (.ok (), after) ∧
      Represents audit origin after (Entry.firsts cap entries) := by
  obtain ⟨behind, cut⟩ := Entry.exists_runsUpTo cap entries
  unfold Group.keepFirsts
  cases cap with
  | some n =>
    obtain ⟨labels, read, kept⟩ := rep.keepRuns (List.forall₂_take n rep.runs) cut small fun move => move.1 ≠ move.2
    dsimp only
    rw [read]
    exact ⟨_, rfl, kept⟩
  | none =>
    obtain ⟨labels, read, kept⟩ := rep.keepRuns rep.runs cut small fun move => move.1 ≠ move.2
    dsimp only
    rw [read]
    exact ⟨_, rfl, kept⟩

theorem unique (rep : Represents audit origin group entries) (cap : Option Nat)
    (before : Binary32.Small (Entry.squares entries))
    (small : Binary32.Small (Entry.squares (Entry.firsts cap entries))) :
    ∃ after, (Group.unique cap).run group = (.ok (), after) ∧
      Represents audit origin after (Entry.firsts cap entries) := by
  unfold Group.unique
  rw [Attempt.run_make]
  by_cases empty : group.isEmpty = true
  · have none : entries = [] := List.isEmpty_iff.1 (rep.isEmpty_eq ▸ empty)
    refine ⟨group, by rw [if_pos empty], ?_⟩
    subst none
    have nothing : Entry.firsts cap [] = [] := by
      cases cap <;> simp [Entry.firsts, Entry.runsUpTo, Entry.runs]
    rwa [nothing]
  · rw [if_neg empty]
    match cap, small with
    | some 0, _ => exact ⟨_, rfl, rep.clear⟩
    | some 1, _ =>
      have present : 1 ≤ entries.length := by
        rw [rep.isEmpty_eq, List.isEmpty_iff] at empty
        exact List.length_pos_iff.2 empty
      obtain ⟨after, truncated, rep⟩ := rep.truncate before present
      refine ⟨after, ?_, Entry.firsts_one entries ▸ rep⟩
      exact Attempt.run_change_of_ok truncated
    | some (n + 2), small => exact rep.keepFirsts _ small
    | none, small => exact rep.keepFirsts _ small

theorem mergeRuns (rep : Represents audit origin group entries) (before : Binary32.Small (Entry.squares entries))
    (small : Binary32.Small (Entry.squares (Entry.summed entries))) :
    ∃ sum after, Group.mergeRuns.run group = (.ok sum, after) ∧
      Represents audit origin after (Entry.summed entries) := by
  have merged := shows_summed rep.runs (by rwa [Entry.flatten_runs])
  unfold Group.mergeRuns
  rw [Attempt.run_make]
  dsimp only
  by_cases empty : group.isEmpty = true
  · have none : entries = [] := List.isEmpty_iff.1 (rep.isEmpty_eq ▸ empty)
    subst none
    rw [if_pos empty]
    exact ⟨0, _, rfl, rep.origin_eq, rep.shows, rep.labels_eq, .zero⟩
  · have labels := rep.labels_eq
    rw [← Entry.flatten_runs entries, ← List.append_nil (Entry.runs entries).flatten] at labels
    have read := labelsOf_starts Entry.label (rep.runs.imp fun _ _ => ShowsRun.sameLength) labels fun move => decide (move.1 ≠ 0)
    have sum := stands_addSquares merged .zero (le_refl 0) (by rwa [zero_add])
    rw [zero_add] at sum
    rw [if_neg empty, read]
    exact ⟨_, _, rfl, rep.origin_eq, merged, by rw [Entry.map_label_summed], sum⟩

end Represents

end Group

end HashedFeatures
