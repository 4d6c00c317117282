import HashedFeatures.Proofs.Attempt.Invariant
import HashedFeatures.Proofs.Group.Labels
import HashedFeatures.Proofs.Ngram.Windows

/-! A group with n-grams at its end.

What an n-gram looks up are features of the group as it was: those that were appended stand behind them.
-/

set_option autoImplicit false

namespace HashedFeatures

namespace Group

def indexAt (group : Group) (place : Nat) : UInt64 := (group.features[place]?.map Feature.index).getD 0

def gram (group : Group) (places : List Nat) : Feature :=
  ⟨Ngrams.foldIndices (places.map group.indexAt), .one⟩

def gramLabel (group : Group) (places : List Nat) : Label :=
  group.labelFor ("^".intercalate (places.map fun place => (group.labelAt place).feature)) ""

def withGrams (group : Group) (windows : List (List Nat)) : Group :=
  { group.append (windows.map group.gram) with
    labels := if group.isAudited then group.labels ++ windows.map group.gramLabel else [] }

variable {group : Group} {windows : List (List Nat)} {places : List Nat} {place : Nat}

theorem withGrams_nil : group.withGrams [] = group := by
  cases audited : group.isAudited with
  | false => simp [withGrams, append, addSquares, audited, ← isAudited_eq_false_iff.1 audited]
  | true => simp [withGrams, append, addSquares, audited]

theorem isAudited_withGrams : (group.withGrams windows).isAudited = group.isAudited := by
  cases labels : group.labels <;> simp [withGrams, isAudited, labels]

theorem getElem?_features_withGrams (inside : place < group.length) :
    (group.withGrams windows).features[place]? = group.features[place]? :=
  List.getElem?_append_left inside

theorem getElem?_labels_withGrams (windows : List (List Nat)) (complete : group.Complete)
    (audited : group.isAudited = true) (inside : place < group.length) :
    (group.withGrams windows).labels[place]? = some (group.labelAt place) := by
  have within := complete.lt_length_labels audited inside
  rw [withGrams, if_pos audited, List.getElem?_append_left within, labelAt, List.getElem?_eq_getElem within]
  rfl

theorem getElem?_features (inside : place < group.length) :
    group.features[place]?.map Feature.index = some (group.indexAt place) := by
  have within : place < group.features.length := inside
  rw [indexAt, List.getElem?_eq_getElem within]
  rfl

theorem withGrams_append_of_audited (audited : group.isAudited = true) :
    ((group.withGrams windows).push (group.gram places).index .one).pushLabel
        ("^".intercalate (places.map fun place => (group.labelAt place).feature)) "" =
      group.withGrams (windows ++ [places]) := by
  simp [withGrams, audited, push, pushLabel, append, addSquares, labelFor, gramLabel, gram]

theorem withGrams_append_of_plain (plain : group.isAudited = false) :
    (group.withGrams windows).push (group.gram places).index .one = group.withGrams (windows ++ [places]) := by
  simp [withGrams, plain, push, append, addSquares, gram]

end Group

namespace Ngrams

variable {group : Group} {places : List Nat}

def outputOf (group : Group) (windows : List (List Nat)) : Output :=
  ⟨(windows.map group.gram).reverse, (group.withGrams windows).labels.toArray⟩

theorem filterMap_index (inside : ∀ place ∈ places, place < group.length) :
    (places.filterMap fun place => (group.features.toArray[place]?).map Feature.index) = places.map group.indexAt := by
  rw [← List.filterMap_eq_map]
  apply List.filterMap_congr
  intro place member
  rw [List.getElem?_toArray]
  exact Group.getElem?_features (inside place member)

theorem mapM_labels (complete : group.Complete) (audited : group.isAudited = true)
    (inside : ∀ place ∈ places, place < group.length) (windows : List (List Nat)) :
    places.mapM ((group.withGrams windows).labels.toArray[·]?) = some (places.map group.labelAt) := by
  induction places with
  | nil => rfl
  | cons place places ih =>
    have head := Group.getElem?_labels_withGrams windows complete audited (inside place List.mem_cons_self)
    rw [List.mapM_cons, ih fun other member => inside other (List.mem_cons_of_mem _ member), List.getElem?_toArray,
      head]
    rfl

theorem run_addGram (complete : group.Complete) (inside : ∀ place ∈ places, place < group.length)
    (windows : List (List Nat)) :
    (addGram group group.features.toArray places).run (outputOf group windows) =
      (.ok (), outputOf group (windows ++ [places])) := by
  unfold addGram
  rw [filterMap_index inside, Attempt.run_bind, Attempt.run_modify]
  cases audited : group.isAudited with
  | false =>
    dsimp only
    rw [if_neg Bool.false_ne_true, Attempt.run_pure]
    simp [outputOf, Group.withGrams, audited, Group.gram]
  | true =>
    have names : (places.map group.labelAt).map Label.feature = places.map fun place => (group.labelAt place).feature :=
      List.map_map
    dsimp only
    rw [if_pos rfl, Attempt.run_bind, Attempt.run_get]
    dsimp only [outputOf]
    rw [mapM_labels complete audited inside windows]
    dsimp only
    rw [Attempt.run_modify, names]
    simp [Group.withGrams, audited, Group.gram, Group.gramLabel]

theorem run_addGrams (complete : group.Complete) (n skips : Nat) :
    (addGrams n skips).run group = (.ok (), group.withGrams (allWindows group.length n skips)) := by
  have start : (⟨[], group.labels.toArray⟩ : Output) = outputOf group [] := by
    rw [outputOf, Group.withGrams_nil]
    rfl
  have size : group.features.toArray.size = group.length := List.size_toArray
  have each : ∀ places ∈ allWindows group.length n skips, ∀ done,
      (addGram group group.features.toArray places).run (outputOf group done) =
        (.ok (), outputOf group (done ++ [places])) :=
    fun places window => run_addGram complete (lt_of_mem_allWindows window)
  have run := Attempt.run_forM_append (outputOf group) (fun places => [places]) each []
  rw [List.nil_append, List.flatMap_singleton'] at run
  unfold addGrams
  rw [Attempt.run_make]
  dsimp only
  rw [size, windows_eq, start, run]
  simp [outputOf, Group.withGrams]

end Ngrams

end HashedFeatures
