import HashedFeatures.Proofs.Expansion.Traversal

/-! The labels around the features of an audited traversal.

An audited traversal enters and leaves labels, one inside the other. Around each feature exactly the labels of the
features that it is made of are open, in the order of the term. A traversal that is not audited meets the same
features.
-/

set_option autoImplicit false

namespace HashedFeatures

namespace Event

/-- Every label that is entered is left again, and what is entered inside it is left before. -/
inductive Balanced : List Event → Prop where
  | nil : Balanced []
  | feature (w : Weighted) {events : List Event} : Balanced events → Balanced (.feature w :: events)
  | label (label : Label) {inside behind : List Event} : Balanced inside → Balanced behind →
      Balanced (.enter label :: (inside ++ .leave :: behind))

/-- The features, each with the labels that are open around it, the outermost first. -/
def labelled (labels : List Label) : List Event → List (List Label × Weighted)
  | [] => []
  | .enter label :: events => labelled (labels ++ [label]) events
  | .feature w :: events => (labels, w) :: labelled labels events
  | .leave :: events => labelled labels.dropLast events

def spelled (names : List String) (entry : List Label × Weighted) : Named :=
  ⟨"*".intercalate (names ++ entry.1.map Label.render), entry.2⟩

theorem Collection.add_enter (names : List String) (met : List Named) (label : Label) :
    Collection.add ⟨names, met⟩ (.enter label) = ⟨names ++ [label.render], met⟩ := rfl

theorem Collection.add_feature (names : List String) (met : List Named) (w : Weighted) :
    Collection.add ⟨names, met⟩ (.feature w) = ⟨names, ⟨"*".intercalate names, w⟩ :: met⟩ := rfl

theorem Collection.add_leave (names : List String) (met : List Named) :
    Collection.add ⟨names, met⟩ .leave = ⟨names.dropLast, met⟩ := rfl

namespace Balanced

variable {events others : List Event}

theorem append (first : Balanced events) (second : Balanced others) : Balanced (events ++ others) := by
  induction first with
  | nil => exact second
  | feature w _ ih => exact .feature w ih
  | label label inside _ _ ih =>
    simp only [List.cons_append, List.append_assoc]
    exact .label label inside ih

theorem flatMap {α : Type} {items : List α} {f : α → List Event} (each : ∀ item ∈ items, Balanced (f item)) :
    Balanced (items.flatMap f) := by
  induction items with
  | nil => exact .nil
  | cons item items ih =>
    rw [List.flatMap_cons]
    exact (each item List.mem_cons_self).append (ih fun other member => each other (List.mem_cons_of_mem _ member))

theorem nested (balanced : Balanced events) (audit : Bool) (label : Label) :
    Balanced (HashedFeatures.nested audit label events) := by
  cases audit with
  | true => exact .label label balanced .nil
  | false => exact balanced

-- Balanced events leave the labels open that they found open.
theorem labelled_append (balanced : Balanced events) (labels : List Label) (others : List Event) :
    labelled labels (events ++ others) = labelled labels events ++ labelled labels others := by
  induction balanced generalizing labels others with
  | nil => rfl
  | feature w _ ih => simp [labelled, ih]
  | label label _ _ inside behind => simp [labelled, inside, behind]

theorem labelled_nested (balanced : Balanced events) (labels : List Label) (label : Label) :
    labelled labels (HashedFeatures.nested true label events) = labelled (labels ++ [label]) events := by
  simp [HashedFeatures.nested, labelled, balanced.labelled_append]

theorem labelled_flatMap {α : Type} {items : List α} {f : α → List Event} (each : ∀ item ∈ items, Balanced (f item))
    (labels : List Label) : labelled labels (items.flatMap f) = items.flatMap fun item => labelled labels (f item) := by
  induction items with
  | nil => rfl
  | cons item items ih =>
    obtain ⟨first, rest⟩ := List.forall_mem_cons.1 each
    rw [List.flatMap_cons, first.labelled_append, ih rest, List.flatMap_cons]

/-- Collecting the names of balanced events leaves the names that were open. -/
theorem foldl_add (balanced : Balanced events) (names : List String) (labels : List Label) (met : List Named) :
    events.foldl Collection.add ⟨names ++ labels.map Label.render, met⟩ =
      ⟨names ++ labels.map Label.render, ((labelled labels events).map (spelled names)).reverse ++ met⟩ := by
  induction balanced generalizing labels met with
  | nil => rfl
  | feature w _ ih => simp [labelled, spelled, Collection.add_feature, ih]
  | @label label inside behind within _ ihInside ihBehind =>
    have entered : names ++ labels.map Label.render ++ [label.render] =
        names ++ (labels ++ [label]).map Label.render := by simp
    have left : (names ++ (labels ++ [label]).map Label.render).dropLast = names ++ labels.map Label.render := by
      rw [← entered, List.dropLast_concat]
    have spread : labelled labels (.enter label :: (inside ++ .leave :: behind)) =
        labelled (labels ++ [label]) inside ++ labelled labels behind := by
      simp [labelled, within.labelled_append]
    rw [List.foldl_cons, List.foldl_append, Collection.add_enter, entered, ihInside, List.foldl_cons,
      Collection.add_leave, left, ihBehind, spread, List.map_append, List.reverse_append, List.append_assoc]

end Balanced

theorem map_snd_labelled (labels : List Label) (events : List Event) :
    (labelled labels events).map Prod.snd = features events := by
  induction events generalizing labels with
  | nil => rfl
  | cons event events ih => cases event <;> simp [labelled, features, ih]

end Event

namespace Space

def labelAt (space : Space) (occurrence : Occurrence) : Label :=
  ((space.get? occurrence.1).map fun group => group.labelAt occurrence.2).getD .empty

end Space

/-! ## Loops -/

namespace Factor

def labels (factors : List Factor) (tuple : List Nat) : List Label :=
  List.zipWith (fun factor p => factor.group.labelAt p) factors tuple

end Factor

namespace Expansion

variable (expansion : Expansion)

theorem balanced_around (group : Group) (start : Nat) (value : Float32) (fold : Hash.Fold)
    {inside : Nat → Float32 → Hash.Fold → Emission}
    (each : ∀ (p : Nat) (value : Float32) (fold : Hash.Fold), Event.Balanced (inside p value fold).events) :
    Event.Balanced (expansion.around group start value fold inside).events := by
  unfold around Emission.concat
  rw [List.flatMap_map]
  exact Event.Balanced.flatMap fun place _ => (each _ _ _).nested _ _

theorem balanced_loops (factors : List Factor) (outer : Nat) (value : Float32) (fold : Hash.Fold) :
    Event.Balanced (expansion.loops factors outer value fold).events := by
  induction factors generalizing outer value fold with
  | nil => exact .feature _ .nil
  | cons factor inner ih => exact expansion.balanced_around _ _ _ _ ih

variable {expansion}

/-- A loop opens the label of each of its features around what is inside. -/
theorem labelled_around (audited : expansion.audit = true) (labels : List Label) (group : Group) (start : Nat)
    (value : Float32) (fold : Hash.Fold) {inside : Nat → Float32 → Hash.Fold → Emission}
    (each : ∀ (p : Nat) (value : Float32) (fold : Hash.Fold), Event.Balanced (inside p value fold).events) :
    Event.labelled labels (expansion.around group start value fold inside).events =
      (List.range' start (group.length - start)).flatMap fun p =>
        group.features[p]?.toList.flatMap fun f =>
          Event.labelled (labels ++ [group.labelAt p])
            (inside p (value * f.value) (fold.pushIndex f.index)).events := by
  -- The induction is on the features that are left, of which each turn takes the first.
  induction left : group.length - start generalizing start with
  | zero =>
    rw [around_of_le expansion group (by omega)]
    rfl
  | succ left ih =>
    have bound : start < group.length := by omega
    have found : group.features[start]? = some group.features[start] := List.getElem?_eq_getElem bound
    have turn := each start (value * group.features[start].value) (fold.pushIndex group.features[start].index)
    rw [around_of_lt expansion group bound, Emission.events_append, Emission.nested, audited,
      (turn.nested true _).labelled_append, turn.labelled_nested, ih (start + 1) (by omega), List.range'_succ,
      List.flatMap_cons, found]
    simp

/-- Around each feature of the loops the labels at its tuple of positions are open. -/
theorem labelled_loops (audited : expansion.audit = true) (labels : List Label) (factors : List Factor)
    (outer : Nat) (value : Float32) (fold : Hash.Fold) :
    Event.labelled labels (expansion.loops factors outer value fold).events =
      ((tuples (factors.map fun factor => factor.group.length)).filter (Factor.admits factors outer)).map
        fun tuple => (labels ++ Factor.labels factors tuple,
          expansion.addressing.extend value fold (Factor.pick factors tuple)) := by
  induction factors generalizing labels outer value fold with
  | nil => simp [loops, single, Event.labelled, tuples, Factor.admits, Factor.labels, Factor.pick, Addressing.extend]
  | cons factor inner ih =>
    rw [loops, labelled_around audited _ _ _ _ _ (expansion.balanced_loops inner), Factor.admitted_cons,
      List.map_flatMap]
    apply List.flatMap_congr
    intro p member
    have bound : p < factor.group.features.length := by
      have := List.mem_range'_1.1 member
      unfold Group.length at this
      omega
    have found : factor.group.features[p]? = some factor.group.features[p] := List.getElem?_eq_getElem bound
    simp only [found, Option.toList_some, List.flatMap_cons, List.flatMap_nil, List.append_nil, ih, List.map_map]
    apply List.map_congr_left
    intro tuple _
    simp [Factor.labels, Factor.pick, found, Addressing.extend]

end Expansion

/-! ## Terms -/

namespace Term

variable {permutations : Bool} {space : Space}

theorem Grouped.labels_eq {term : Term} {groups : List Group} (grouped : Grouped space term groups) (same : Bool)
    (tuple : List Nat) :
    Factor.labels (term.factorsFrom permutations same groups) tuple = (term.zip tuple).map space.labelAt := by
  induction grouped generalizing same tuple with
  | nil => rfl
  | @cons a group term groups first rest ih =>
    cases tuple with
    | nil => rfl
    | cons p tuple =>
      have own : space.labelAt (a, p) = group.labelAt p := by simp [Space.labelAt, first.1]
      cases rest with
      | nil => simp [factorsFrom, Factor.labels, own]
      | cons second rest =>
        rw [factorsFrom_cons_cons, List.zip_cons_cons, List.map_cons, own]
        exact congrArg (group.labelAt p :: ·) (ih _ tuple)

end Term

namespace Expansion

variable (expansion : Expansion) (permutations : Bool) (space : Space)

theorem balanced_term (term : Term) (scratch : Scratch) :
    Event.Balanced (expansion.term permutations space term scratch).1.events := by
  unfold Expansion.term
  rcases term.factors?_cases permutations space with ⟨-, none⟩ | ⟨-, groups, grouped, factors⟩
  · rw [none]
    exact .nil
  · rw [factors]
    cases grouped with
    | nil => exact .nil
    | @cons ns group rest groups first others =>
      have grouped : Term.Grouped space (ns :: rest) (group :: groups) := .cons first others
      simp only [cross_eq_loops expansion permutations (grouped.linked false) (List.cons_ne_nil _ _)]
      exact expansion.balanced_loops _ _ _ _

theorem balanced_terms (terms : List Term) (scratch : Scratch) :
    Event.Balanced (expansion.terms permutations space terms scratch).1.events := by
  induction terms generalizing scratch with
  | nil => exact .nil
  | cons first rest ih => exact (expansion.balanced_term permutations space first scratch).append (ih _)

variable {expansion}

theorem labelled_term (audited : expansion.audit = true) (labels : List Label) (term : Term) (scratch : Scratch) :
    Event.labelled labels (expansion.term permutations space term scratch).1.events =
      (term.selections permutations space).map fun selection =>
        (labels ++ selection.map space.labelAt, expansion.addressing.weigh (selection.filterMap space.at?)) := by
  unfold Expansion.term Term.selections
  rcases term.factors?_cases permutations space with ⟨missing, none⟩ | ⟨filled, groups, grouped, factors⟩
  · simp only [none, missing, Bool.or_true, if_true]
    rfl
  · simp only [factors, filled, Bool.or_false]
    cases grouped with
    | nil => rfl
    | @cons ns group rest groups first others =>
      have grouped : Term.Grouped space (ns :: rest) (group :: groups) := .cons first others
      have nonempty : Term.factorsFrom permutations false (group :: groups) (ns :: rest) ≠ [] :=
        List.cons_ne_nil _ _
      rw [cross_eq_loops expansion permutations (grouped.linked false) nonempty, labelled_loops audited,
        grouped.map_length false, List.isEmpty_cons, if_neg Bool.false_ne_true, List.map_map, grouped.filter_admits]
      apply List.map_congr_left
      intro tuple _
      rw [grouped.pick_eq false tuple, grouped.labels_eq false tuple, Addressing.extend_start]
      rfl

theorem labelled_terms (audited : expansion.audit = true) (labels : List Label) (terms : List Term)
    (scratch : Scratch) :
    Event.labelled labels (expansion.terms permutations space terms scratch).1.events =
      (terms.flatMap fun term => term.selections permutations space).map fun selection =>
        (labels ++ selection.map space.labelAt, expansion.addressing.weigh (selection.filterMap space.at?)) := by
  induction terms generalizing scratch with
  | nil => rfl
  | cons first rest ih =>
    simp only [terms, Emission.events_append, (balanced_term _ _ _ _ _).labelled_append,
      labelled_term permutations space audited, ih, List.flatMap_cons, List.map_append]

end Expansion

/-! ## Examples -/

namespace Group

variable (group : Group) (addressing : Addressing)

def labelledFeatures : List (List Label × Weighted) :=
  group.features.zipIdx.map fun (f, place) => ([group.labelAt place], ⟨f.value, addressing.weightIndex f.index⟩)

theorem balanced_audited : Event.Balanced (group.audited addressing) :=
  Event.Balanced.flatMap fun _ _ => (Event.Balanced.feature _ .nil).nested true _

theorem labelled_audited (labels : List Label) :
    Event.labelled labels (group.audited addressing) =
      (group.labelledFeatures addressing).map (Prod.map (labels ++ ·) id) := by
  unfold audited labelledFeatures
  rw [Event.Balanced.labelled_flatMap fun _ _ => (Event.Balanced.feature _ .nil).nested true _, onward_eq_map,
    List.flatMap_map, List.map_map, List.map_eq_flatMap]
  rfl

theorem map_snd_labelledFeatures :
    (group.labelledFeatures addressing).map Prod.snd =
      group.features.map fun f => ⟨f.value, addressing.weightIndex f.index⟩ := by
  unfold labelledFeatures
  rw [List.map_map, ← List.zipIdx_map_fst 0 group.features, List.map_map]
  simp [Function.comp_def]

end Group

namespace Example

variable (ec : Example) (ignored : NamespaceSet) (terms : List Term) (permutations : Bool) (hashBits : UInt32)

/-- The linear features and then those of the selections of each term, with the labels of what they are made of. -/
def labelledFeatures : List (List Label × Weighted) :=
  (ec.space.toList.flatMap fun (ns, group) =>
    if ns ∈ ignored then [] else group.labelledFeatures (ec.addressing 0)) ++
  (terms.flatMap fun term => term.selections permutations ec.space).map fun selection =>
    (selection.map ec.space.labelAt, ec.weigh hashBits selection)

-- The part of the linear events that comes from one namespace.
theorem balanced_linearOf (entry : UInt8 × Group) :
    Event.Balanced (if entry.1 ∈ ignored then [] else entry.2.audited (ec.addressing 0)) := by
  split
  · exact .nil
  · exact entry.2.balanced_audited _

theorem linear_audited : ec.linear true ignored =
    ec.space.toList.flatMap fun entry => if entry.1 ∈ ignored then [] else entry.2.audited (ec.addressing 0) := rfl

theorem balanced_linear : Event.Balanced (ec.linear true ignored) :=
  Event.Balanced.flatMap fun entry _ => ec.balanced_linearOf ignored entry

variable (scratch : Scratch)

theorem balanced_traverse :
    Event.Balanced (ec.traverse true ignored terms permutations hashBits scratch).1.events :=
  (ec.balanced_linear ignored).append (Expansion.balanced_terms _ _ _ _ _)

/-- Around each feature of a traversal the labels of what it is made of are open. -/
theorem labelled_traverse (labels : List Label) :
    Event.labelled labels (ec.traverse true ignored terms permutations hashBits scratch).1.events =
      (ec.labelledFeatures ignored terms permutations hashBits).map (Prod.map (labels ++ ·) id) := by
  have linear : Event.labelled labels (ec.linear true ignored) =
      (ec.space.toList.flatMap fun (ns, group) =>
        if ns ∈ ignored then [] else group.labelledFeatures (ec.addressing 0)).map (Prod.map (labels ++ ·) id) := by
    rw [linear_audited, Event.Balanced.labelled_flatMap fun entry _ => ec.balanced_linearOf ignored entry,
      List.map_flatMap]
    apply List.flatMap_congr
    rintro ⟨ns, group⟩ _
    by_cases skipped : ns ∈ ignored
    · simp [skipped, Event.labelled]
    · simp only [if_neg skipped]
      exact group.labelled_audited _ labels
  have crossed := @Expansion.labelled_terms ⟨true, ec.addressing hashBits⟩ permutations ec.space rfl labels terms scratch
  unfold traverse labelledFeatures
  rw [(ec.balanced_linear ignored).labelled_append, linear, List.map_append, List.map_map]
  exact congrArg _ crossed

-- Auditing changes neither the features nor their number.
theorem features_audited (other : Scratch) :
    Event.features (ec.traverse true ignored terms permutations hashBits scratch).1.events =
      Event.features (ec.traverse false ignored terms permutations hashBits other).1.events := by
  rw [← Event.map_snd_labelled [], labelled_traverse, features_traverse, List.map_map]
  unfold labelledFeatures Space.linearFeatures
  simp only [List.map_append, List.map_map, List.map_flatMap]
  congr 1
  apply List.flatMap_congr
  rintro ⟨ns, group⟩ _
  by_cases skipped : ns ∈ ignored
  · simp [skipped]
  · simp only [if_neg skipped, ← group.map_snd_labelledFeatures]
    rfl

theorem count_traverse (audit : Bool) :
    (ec.traverse audit ignored terms permutations hashBits scratch).1.count =
      (terms.flatMap fun term => term.selections permutations ec.space).length := by
  have counted := Expansion.terms_counted ⟨audit, ec.addressing hashBits⟩ permutations ec.space terms scratch
  unfold Emission.Counted at counted
  rw [Expansion.terms_features, List.length_map] at counted
  exact counted

/-- An audited traversal meets the features of a plain one, and around each of them exactly the labels of what it is
made of are open: one for a linear feature, and one for each id of a term. So the names that were open before are open
again in the end, and each feature is collected under its labels, joined by stars. -/
theorem traverse_audited_nests (other : Scratch) :
    let audited := (ec.traverse true ignored terms permutations hashBits scratch).1
    let plain := (ec.traverse false ignored terms permutations hashBits other).1
    let labelled := ec.labelledFeatures ignored terms permutations hashBits
    Event.features audited.events = Event.features plain.events ∧ audited.count = plain.count ∧
      Event.Balanced audited.events ∧
      (∀ labels, Event.labelled labels audited.events = labelled.map (Prod.map (labels ++ ·) id)) ∧
      (∀ term ∈ terms, ∀ selection ∈ term.selections permutations ec.space, selection.map Prod.fst = term) ∧
      (∀ names met, (audited.events.foldl Event.Collection.add ⟨names, met⟩).names = names) ∧
      Event.named [] audited.events =
        labelled.map fun (labels, w) => ⟨"*".intercalate (labels.map Label.render), w⟩ := by
  intro audited plain labelled
  have balanced : Event.Balanced audited.events := ec.balanced_traverse ignored terms permutations hashBits scratch
  have opened := ec.labelled_traverse ignored terms permutations hashBits scratch
  refine ⟨ec.features_audited ignored terms permutations hashBits scratch other, ?_, balanced, opened, ?_, ?_, ?_⟩
  · rw [count_traverse, count_traverse]
  · exact fun term _ selection member => Term.map_fst_of_mem_selections member
  · intro names met
    have collected := balanced.foldl_add names [] met
    rw [List.map_nil, List.append_nil] at collected
    rw [collected]
  · have collected := balanced.foldl_add [] [] []
    rw [List.map_nil, List.append_nil, List.append_nil, opened []] at collected
    rw [Event.named, collected, List.reverse_reverse, List.map_map]
    rfl

end Example

end HashedFeatures
