import HashedFeatures.Proofs.Group.Unique

/-! Entries that repeat the index in front of them.

A list with such entries is gone through once. What is kept for a run of one index takes in its other entries, or they
are dropped. Where no other index interrupts a run, this leaves one entry for every index, in the order in which the
indices first appear.
-/

set_option autoImplicit false

namespace HashedFeatures

theorem Run.not_split_of_ascending {features : List Feature}
    (ascending : features.Pairwise fun f g => f.index ≤ g.index) : ¬ Split features := by
  rintro ⟨a, b, c, inside, same, other⟩
  have order := ascending.sublist inside
  simp only [List.pairwise_cons, List.forall_mem_cons] at order
  exact other (UInt64.le_antisymm (same ▸ order.2.1.1) order.1.1)

namespace Group

abbrev Item := Feature × Option Label

def dropRepeats (previous : Option UInt64) : List Item → List Item
  | [] => []
  | item :: rest =>
    if previous = some item.1.index then dropRepeats (some item.1.index) rest
    else item :: dropRepeats (some item.1.index) rest

def capped {α : Type} (cap : Option Nat) (list : List α) : List α :=
  match cap with
  | some n => list.take n
  | none => list

/-- One item for every run; `add` takes the next item of a run into the one that is kept for it. -/
def foldRuns (add : Item → Item → Item) (kept : Item) : List Item → List Item
  | [] => [kept]
  | next :: rest =>
    if next.1.index = kept.1.index then foldRuns add (add kept next) rest
    else kept :: foldRuns add next rest

variable {items rest : List Item} {item previous kept next : Item} {cap : Option Nat}

theorem dropRepeats_none_cons (first : Item) (rest : List Item) :
    dropRepeats none (first :: rest) = first :: dropRepeats (some first.1.index) rest := by
  simp [dropRepeats]

theorem dropRepeats_of_eq (same : item.1.index = previous.1.index) :
    dropRepeats (some previous.1.index) (item :: rest) = dropRepeats (some previous.1.index) rest := by
  simp [dropRepeats, same]

theorem dropRepeats_of_ne (other : item.1.index ≠ previous.1.index) :
    dropRepeats (some previous.1.index) (item :: rest) = item :: dropRepeats (some item.1.index) rest := by
  simp [dropRepeats, other.symm]

theorem foldRuns_keep (kept : Item) (rest : List Item) :
    foldRuns (fun kept _ => kept) kept rest = kept :: dropRepeats (some kept.1.index) rest := by
  induction rest generalizing kept with
  | nil => rfl
  | cons next rest ih =>
    unfold foldRuns
    by_cases same : next.1.index = kept.1.index
    · rw [if_pos same, ih, dropRepeats_of_eq same]
    · rw [if_neg same, ih, dropRepeats_of_ne same]

/-! ## One item for every piece -/

structure Folds (add : Item → Item → Item) (whole : List Item → Option Item) : Prop where
  single : ∀ item, whole [item] = some item
  more : ∀ {run kept} next, whole run = some kept → whole (run ++ [next]) = some (add kept next)
  index : ∀ kept next, (add kept next).1.index = kept.1.index

theorem folds_head : Folds (fun kept _ => kept) List.head? where
  single _ := rfl
  more {run} _ _ first := by
    cases run with
    | nil => cases first
    | cons => exact first
  index _ _ := rfl

theorem entryRuns_of_constant {run : List Item} (some : run ≠ [])
    (constant : ∀ item ∈ run, item.1.index = kept.1.index) : entryRuns run = [run] := by
  refine List.splitBy_of_isChain some (List.pairwise_of_forall_mem_list ?_).isChain
  intro left first right second
  rw [constant left first, constant right second, beq_self_eq_true]

theorem Folds.filterMap_entryRuns {add : Item → Item → Item} {whole : List Item → Option Item}
    (folds : Folds add whole) {run : List Item} (present : run ≠ [])
    (constant : ∀ item ∈ run, item.1.index = kept.1.index) (before : whole run = some kept) :
    (entryRuns (run ++ rest)).filterMap whole = foldRuns add kept rest := by
  induction rest generalizing run kept with
  | nil => simp [foldRuns, entryRuns_of_constant present constant, before]
  | cons next rest ih =>
    unfold foldRuns
    split
    case isTrue same =>
      have longer : ∀ item ∈ run ++ [next], item.1.index = (add kept next).1.index := by
        rw [folds.index]
        simpa [or_imp, forall_and, same] using constant
      rw [← ih (by simp) longer (folds.more next before), List.append_assoc, List.singleton_append]
    case isFalse other =>
      have apart : ∀ item ∈ run.getLast?, (item.1.index == next.1.index) = false := by
        intro item last
        rw [constant item (List.mem_of_getLast? last)]
        exact beq_false_of_ne (Ne.symm other)
      have cut : entryRuns (run ++ next :: rest) = entryRuns run ++ entryRuns (next :: rest) :=
        List.splitBy_append_cons rest apart
      have alone : ∀ item ∈ [next], item.1.index = next.1.index := by simp
      have later := ih (List.cons_ne_nil next []) alone (folds.single next)
      rw [List.singleton_append] at later
      rw [cut, List.filterMap_append, later, entryRuns_of_constant present constant]
      simp [before]

theorem Folds.filterMap_entryRuns_cons {add : Item → Item → Item} {whole : List Item → Option Item}
    (folds : Folds add whole) (first : Item) (rest : List Item) :
    (entryRuns (first :: rest)).filterMap whole = foldRuns add first rest :=
  folds.filterMap_entryRuns (List.cons_ne_nil first []) (by simp) (folds.single first)

theorem filterMap_head?_take {α : Type} {pieces : List (List α)} (present : [] ∉ pieces) (n : Nat) :
    (pieces.take n).filterMap List.head? = (pieces.filterMap List.head?).take n := by
  induction pieces generalizing n with
  | nil => simp
  | cons piece pieces ih =>
    rw [List.mem_cons, not_or] at present
    cases n with
    | zero => rfl
    | succ n =>
      cases piece with
      | nil => exact absurd rfl present.1
      | cons first piece => simp [ih present.2]

/-- The first entries of the runs are those that do not repeat the index in front of them. -/
theorem firstEntries_eq (cap : Option Nat) (items : List Item) :
    firstEntries cap items = capped cap (dropRepeats none items) := by
  have all : (entryRuns items).filterMap List.head? = dropRepeats none items := by
    cases items with
    | nil => rfl
    | cons first rest =>
      rw [folds_head.filterMap_entryRuns_cons, foldRuns_keep, dropRepeats_none_cons]
  cases cap with
  | none => exact all
  | some n => exact (filterMap_head?_take (List.nil_notMem_splitBy _ _) n).trans (congrArg (List.take n) all)

/-! ## Dropping twice -/

theorem ne_of_mem_head?_dropRepeats (member : item ∈ (dropRepeats (some previous.1.index) items).head?) :
    item.1.index ≠ previous.1.index := by
  induction items with
  | nil => cases member
  | cons next rest ih =>
    by_cases same : next.1.index = previous.1.index
    · rw [dropRepeats_of_eq same] at member
      exact ih member
    · rw [dropRepeats_of_ne same] at member
      obtain rfl : next = item := by simpa using member
      exact same

theorem isChain_dropRepeats (previous : Option UInt64) (items : List Item) :
    (dropRepeats previous items).IsChain fun left right => right.1.index ≠ left.1.index := by
  induction items generalizing previous with
  | nil => exact .nil
  | cons next rest ih =>
    unfold dropRepeats
    split
    · exact ih _
    · exact List.isChain_cons.2 ⟨fun item => ne_of_mem_head?_dropRepeats, ih _⟩

theorem dropRepeats_of_isChain (chain : items.IsChain fun left right => right.1.index ≠ left.1.index) :
    dropRepeats none items = items := by
  have behind : ∀ {items : List Item} {previous : Item},
      (previous :: items).IsChain (fun left right => right.1.index ≠ left.1.index) →
        dropRepeats (some previous.1.index) items = items := by
    intro items
    induction items with
    | nil => intros; rfl
    | cons next rest ih =>
      intro previous chain
      obtain ⟨other, chain⟩ := List.isChain_cons_cons.1 chain
      rw [dropRepeats_of_ne other, ih chain]
  cases items with
  | nil => rfl
  | cons first rest =>
    rw [dropRepeats_none_cons, behind chain]

-- What is left has no repeats to be dropped, and it fits the cap.
theorem capped_dropRepeats_capped (cap : Option Nat) (items : List Item) :
    capped cap (dropRepeats none (capped cap (dropRepeats none items))) = capped cap (dropRepeats none items) := by
  have chain := isChain_dropRepeats none items
  unfold capped
  cases cap with
  | none => exact dropRepeats_of_isChain chain
  | some n =>
    dsimp only
    rw [dropRepeats_of_isChain (chain.take n), List.take_take, min_self]

theorem capped_nil {α : Type} (cap : Option Nat) : capped cap ([] : List α) = [] := by
  cases cap <;> simp [capped]

theorem map_capped {α β : Type} (cap : Option Nat) (f : α → β) (list : List α) :
    (capped cap list).map f = capped cap (list.map f) := by
  cases cap with
  | none => rfl
  | some n => exact List.map_take

theorem capped_subset (cap : Option Nat) (items : List Item) : capped cap items ⊆ items := by
  unfold capped
  cases cap with
  | none => exact List.Subset.refl items
  | some n => exact List.take_subset n items

/-! ## Runs that are not interrupted -/

theorem split_map_cons :
    Run.Split ((previous :: item :: rest).map Prod.fst) ↔
      Run.Split ((item :: rest).map Prod.fst) ∨
        previous.1.index ≠ item.1.index ∧ ∃ other ∈ item :: rest, other.1.index = previous.1.index := by
  rw [List.map_cons, List.map_cons, Run.split_cons]
  simp

/-- Behind an item, every index that is left appears first where its item is kept. -/
theorem find?_of_mem_dropRepeats (whole : ¬ Run.Split ((previous :: items).map Prod.fst))
    (member : item ∈ dropRepeats (some previous.1.index) items) :
    item.1.index ≠ previous.1.index ∧ items.find? (fun other => other.1.index == item.1.index) = some item := by
  induction items generalizing previous with
  | nil => cases member
  | cons next rest ih =>
    rw [split_map_cons, not_or, not_and, not_exists] at whole
    obtain ⟨whole, apart⟩ := whole
    by_cases same : next.1.index = previous.1.index
    · rw [dropRepeats_of_eq same, ← same] at member
      obtain ⟨other, found⟩ := ih whole member
      rw [← same, List.find?_cons_of_neg (by simpa using other.symm)]
      exact ⟨other, found⟩
    · rw [dropRepeats_of_ne same] at member
      have fresh := apart (Ne.symm same)
      rcases List.mem_cons.1 member with rfl | member
      · exact ⟨same, List.find?_cons_of_pos (beq_self_eq_true _)⟩
      · obtain ⟨other, found⟩ := ih whole member
        rw [List.find?_cons_of_neg (by simpa using other.symm)]
        exact ⟨fun back => fresh item ⟨List.mem_cons_of_mem _ (List.mem_of_find?_eq_some found), back⟩, found⟩

theorem index_dropRepeats_behind (whole : ¬ Run.Split ((previous :: items).map Prod.fst)) :
    (previous :: dropRepeats (some previous.1.index) items).map (·.1.index) =
      ((previous :: items).map (·.1.index)).eraseDups := by
  induction items generalizing previous with
  | nil => rfl
  | cons next rest ih =>
    rw [split_map_cons, not_or, not_and, not_exists] at whole
    obtain ⟨whole, apart⟩ := whole
    have later := ih whole
    by_cases same : next.1.index = previous.1.index
    · rw [dropRepeats_of_eq same, ← same]
      simp only [List.map_cons, same, List.eraseDups_cons] at later ⊢
      simpa using later
    · have erased : ((previous :: next :: rest).map (·.1.index)).eraseDups = previous.1.index ::
          (((next :: rest).map (·.1.index)).filter fun i => !i == previous.1.index).eraseDups := List.eraseDups_cons
      have unchanged : (((next :: rest).map (·.1.index)).filter fun i => !i == previous.1.index) =
          (next :: rest).map (·.1.index) := by
        rw [List.filter_eq_self]
        intro i member
        obtain ⟨item, inside, rfl⟩ := List.mem_map.1 member
        simpa using fun back => apart (Ne.symm same) item ⟨inside, back⟩
      rw [dropRepeats_of_ne same, List.map_cons, later, erased, unchanged]

theorem find?_of_mem_firsts (whole : ¬ Run.Split (items.map Prod.fst)) (member : item ∈ dropRepeats none items) :
    items.find? (fun other => other.1.index == item.1.index) = some item := by
  cases items with
  | nil => cases member
  | cons first rest =>
    rw [dropRepeats_none_cons] at member
    rcases List.mem_cons.1 member with rfl | member
    · exact List.find?_cons_of_pos (beq_self_eq_true _)
    · obtain ⟨other, found⟩ := find?_of_mem_dropRepeats whole member
      rw [List.find?_cons_of_neg (by simpa using other.symm), found]

/-- Every index is left once, in the order in which the indices first appear. -/
theorem index_dropRepeats (whole : ¬ Run.Split (items.map Prod.fst)) :
    (dropRepeats none items).map (·.1.index) = (items.map (·.1.index)).eraseDups := by
  cases items with
  | nil => rfl
  | cons first rest =>
    rw [dropRepeats_none_cons]
    exact index_dropRepeats_behind whole

/-! ## What the operations leave -/

def plus (kept next : Item) : Item := ({ kept.1 with amount := kept.1.amount.add next.1.amount }, kept.2)

def total : List Item → Option Item
  | [] => none
  | first :: rest => some (rest.foldl plus first)

theorem folds_total : Folds plus total where
  single _ := rfl
  more {run} kept next first := by
    cases run with
    | nil => cases first
    | cons item run =>
      obtain rfl : run.foldl plus item = kept := Option.some.inj first
      simp [total]
  index _ _ := rfl

theorem fst_foldl_plus (first : Item) (rest : List Item) :
    (rest.foldl plus first).1 = Run.merged ⟨first.1, rest.map Prod.fst⟩ := by
  induction rest generalizing first with
  | nil => rfl
  | cons next rest ih =>
    rw [List.foldl_cons, ih]
    rfl

theorem snd_foldl_plus (first : Item) (rest : List Item) : (rest.foldl plus first).2 = first.2 := by
  induction rest generalizing first with
  | nil => rfl
  | cons next rest ih =>
    rw [List.foldl_cons, ih]
    rfl

-- A sum has the index and the label of the first item.
theorem map_total {β : Type} (pieces : List (List Item)) (f : UInt64 × Option Label → β) :
    (pieces.filterMap total).map (fun item => f (item.1.index, item.2)) =
      (pieces.filterMap List.head?).map fun item => f (item.1.index, item.2) := by
  rw [List.map_filterMap, List.map_filterMap]
  apply List.filterMap_congr
  intro piece _
  cases piece with
  | nil => rfl
  | cons first rest => simp [total, fst_foldl_plus, snd_foldl_plus, Run.merged]

theorem map_merged_eq {runs : List Run} {pieces : List (List Item)} (same : List.Forall₂ OfPiece runs pieces) :
    runs.map Run.merged = (pieces.filterMap total).map Prod.fst := by
  induction same with
  | nil => rfl
  | @cons run piece runs pieces own _ ih =>
    cases piece with
    | nil => cases own
    | cons item piece =>
      obtain ⟨first, rest⟩ := List.cons.inj own
      obtain ⟨_, _⟩ := run
      subst first rest
      simp [total, fst_foldl_plus, ih]

namespace Lists

variable {group : Group} {audit : Bool}

theorem length_labels_of (lists : group.Lists audit items) {left : Group} {made : List Item}
    (leaves : left.Lists audit made) (nothing : items = [] → made = []) :
    left.labels.length = if group.isAudited then left.length else 0 := by
  rw [leaves.length_labels, lists.isAudited_eq, length, leaves.features]
  cases items with
  | nil => simp [nothing]
  | cons => simp

/-- Each run becomes one entry with the sum of its values and the label of its first entry. -/
theorem run_mergeRuns (lists : group.Lists audit items) :
    ∃ merged : Group, mergeRuns.run group = (.ok (addSquares 0 merged.features), merged) ∧
      merged.Lists audit ((entryRuns items).filterMap total) ∧
      merged.features = (Run.ofFeatures group.features).map Run.merged ∧
      merged = { group with
        features := merged.features
        labels := merged.labels
        sumSquares := addSquares 0 merged.features } := by
  unfold mergeRuns
  rw [Attempt.run_make]
  cases empty : group.isEmpty with
  | true =>
    obtain rfl : items = [] := List.isEmpty_iff.1 (lists.isEmpty_eq ▸ empty)
    have none : group.features = [] := List.isEmpty_iff.1 empty
    refine ⟨{ group with sumSquares := 0 }, ?_, ⟨lists.features, lists.labels, nofun⟩, ?_, ?_⟩
    · simp [none, addSquares]
    · simp [none]
    · simp [none, addSquares]
  | false =>
    have labels := lists.labels
    have whole : (entryRuns items).flatten = items := List.flatten_splitBy _ _
    rw [← whole, ← List.append_nil (entryRuns items).flatten] at labels
    have read := labelsOf_starts labelIn (lists.runs.imp fun _ _ => OfPiece.sameLength) labels
      fun move => decide (move.1 ≠ 0)
    have sameLabels := map_total (entryRuns items) fun entry => entry.2.getD .empty
    have own := map_total (entryRuns items) Prod.snd
    dsimp only
    rw [if_neg Bool.false_ne_true, read]
    refine ⟨{ group with features := (Run.ofFeatures group.features).map Run.merged, labels := _, sumSquares := _ },
      rfl, ⟨map_merged_eq lists.runs, ?_, fun item member => ?_⟩, rfl, rfl⟩
    · exact (congrArg (fun all => if audit = true then all else []) sameLabels).symm
    · have label : item.2 ∈ ((entryRuns items).filterMap total).map Prod.snd := List.mem_map_of_mem member
      obtain ⟨first, inside, same⟩ := List.mem_map.1 (own ▸ label)
      rw [← same]
      exact lists.each first (whole ▸ (filterMap_head?_sublist (entryRuns items)).subset inside)

theorem truncate_one (lists : group.Lists audit items) (present : group.isEmpty = false) :
    ∃ kept, group.truncate 1 = .ok kept ∧ kept.Lists audit (items.take 1) ∧
      kept = { group with
        features := kept.features
        labels := kept.labels
        sumSquares := group.sumSquares - sumOfSquares (group.features.drop 1) } := by
  have enough : ¬ group.length < 1 := by
    rw [isEmpty, List.isEmpty_eq_false_iff] at present
    exact Nat.not_lt.2 (List.length_pos_iff.2 present)
  refine ⟨_, if_neg enough, ⟨?_, ?_, fun item member => lists.each item (List.mem_of_mem_take member)⟩, rfl⟩
  · rw [lists.features, List.map_take]
  · rw [lists.labels, List.map_take]
    split <;> simp

theorem run_unique_capped (lists : group.Lists audit items) (cap : Option Nat) :
    ∃ kept : Group, (unique cap).run group = (.ok (), kept) ∧
      kept.Lists audit (capped cap (dropRepeats none items)) ∧
      { kept with features := group.features, labels := group.labels, sumSquares := group.sumSquares } = group := by
  have byFirsts : ∀ cap, ∃ kept : Group, group.keepFirsts cap = (.ok (), kept) ∧
      kept.Lists audit (firstEntries cap items) ∧
      { kept with features := group.features, labels := group.labels, sumSquares := group.sumSquares } = group := by
    intro cap
    obtain ⟨kept, run, keeps, same⟩ := lists.keepFirsts cap
    refine ⟨kept, run, keeps, ?_⟩
    rw [same]
    rfl
  rw [← firstEntries_eq]
  unfold Group.unique
  rw [Attempt.run_make]
  cases empty : group.isEmpty with
  | true =>
    obtain rfl : items = [] := List.isEmpty_iff.1 (lists.isEmpty_eq ▸ empty)
    have nothing : firstEntries cap [] = [] := List.sublist_nil.1 (firstEntries_sublist cap [])
    exact ⟨group, rfl, by rwa [nothing], rfl⟩
  | false =>
    match cap with
    | none => exact byFirsts none
    | some 0 =>
      refine ⟨_, rfl, ⟨rfl, ?_, nofun⟩, rfl⟩
      cases audit <;> rfl
    | some 1 =>
      obtain ⟨kept, run, keeps, same⟩ := lists.truncate_one empty
      have alone : firstEntries (some 1) items = items.take 1 := by
        rw [firstEntries_eq]
        cases items <;> rfl
      exact ⟨kept, Attempt.run_change_of_ok run, alone ▸ keeps, by rw [same]⟩
    | some (n + 2) => exact byFirsts (some (n + 2))

end Lists

end Group

end HashedFeatures
