import HashedFeatures.Expansion.Traversal
import HashedFeatures.Proofs.Expansion.Bounds
import HashedFeatures.Proofs.Expansion.Selection

/-! The crossed features of a list of terms are one plain enumeration of selections.

The nested loops meet the tuples of positions in lexicographic order and pass over those in front of
the start of a tied factor. For the factors of a term these are the selections of the term, whichever
loops the number of its ids asks for, and no loop leaves its group.
-/

set_option autoImplicit false

namespace HashedFeatures

/-! ## Emitted features -/

namespace Emission

def features (emission : Emission) : List Weighted := Event.features emission.events

@[simp] theorem features_empty : empty.features = [] := rfl

@[simp] theorem features_append (left right : Emission) :
    (left.append right).features = left.features ++ right.features :=
  List.filterMap_append

@[simp] theorem features_nested (audit : Bool) (label : Label) (emission : Emission) :
    (emission.nested audit label).features = emission.features := by
  cases audit with
  | true => simp [features, nested, HashedFeatures.nested, Event.features]
  | false => rfl

def Counted (emission : Emission) : Prop := emission.count = emission.features.length

theorem Counted.append {left right : Emission} (first : left.Counted) (second : right.Counted) :
    (left.append right).Counted := by
  unfold Counted at *
  rw [count_append, features_append, List.length_append, first, second]

theorem Counted.concat {parts : List Emission} (each : ∀ part ∈ parts, part.Counted) :
    (Emission.concat parts).Counted := by
  induction parts with
  | nil => rfl
  | cons first rest ih =>
    rw [concat_cons]
    exact (each first (by simp)).append (ih fun part member => each part (by simp [member]))

theorem Counted.nested {emission : Emission} (counted : emission.Counted) (audit : Bool) (label : Label) :
    (emission.nested audit label).Counted := by
  unfold Counted
  rw [features_nested]
  exact counted

end Emission

namespace Addressing

def extend (addressing : Addressing) (value : Float32) (fold : Hash.Fold) (features : List Feature) : Weighted :=
  ⟨features.foldl (fun value f => value * f.value) value,
    addressing.ofFold (features.foldl (fun fold f => fold.pushIndex f.index) fold)⟩

-- One is neutral, so a product may start with it.
theorem extend_start (addressing : Addressing) (features : List Feature) :
    addressing.extend 1 .start features = addressing.weigh features := by
  unfold extend weigh
  congr 1
  · cases features with
    | nil => rfl
    | cons first rest => rw [List.foldl_cons, Binary32.one_mul, product]
  · rw [Hash.Fold.ofWords, List.foldl_map]
    rfl

end Addressing

/-! ## Tuples that the loops meet -/

namespace Factor

/-- Each position is not in front of the one where its loop starts. -/
def admits : List Factor → Nat → List Nat → Bool
  | factor :: inner, outer, p :: tuple => factor.start outer ≤ p && admits inner p tuple
  | _, _, _ => true

def pick : List Factor → List Nat → List Feature
  | factor :: inner, p :: tuple => factor.group.features[p]?.toList ++ pick inner tuple
  | _, _ => []

end Factor

theorem flatMap_range_from {α : Type} (count start : Nat) (f : Nat → List α) :
    ((List.range count).flatMap fun p => if start ≤ p then f p else []) =
      (List.range' start (count - start)).flatMap f := by
  induction count with
  | zero => simp
  | succ count ih =>
    rw [List.range_succ, List.flatMap_append, ih]
    by_cases inside : start ≤ count
    · have more : count + 1 - start = count - start + 1 := by omega
      have last : start + (count - start) = count := by omega
      simp [more, List.range'_concat, last, inside]
    · have none : count + 1 - start = 0 := by omega
      have before : count - start = 0 := by omega
      simp [none, before, inside]

namespace Factor

-- The tuples that begin with `p` are met in the turn of `p`, or passed over with it.
theorem admitted_cons (factor : Factor) (inner : List Factor) (outer : Nat) :
    (tuples ((factor :: inner).map fun factor => factor.group.length)).filter (admits (factor :: inner) outer) =
      (List.range' (factor.start outer) (factor.group.length - factor.start outer)).flatMap fun p =>
        ((tuples (inner.map fun factor => factor.group.length)).filter (admits inner p)).map (p :: ·) := by
  have turn : ∀ p : Nat, ((tuples (inner.map fun factor => factor.group.length)).map (p :: ·)).filter
      (admits (factor :: inner) outer) =
      if factor.start outer ≤ p then
        ((tuples (inner.map fun factor => factor.group.length)).filter (admits inner p)).map (p :: ·)
      else [] := by
    intro p
    rw [List.filter_map]
    by_cases inside : factor.start outer ≤ p
    · rw [if_pos inside]
      congr 2
      funext tuple
      simp [admits, inside]
    · simp [admits, inside]
  rw [List.map_cons, tuples, List.filter_flatMap]
  simp only [turn, flatMap_range_from]

end Factor

namespace Expansion

variable (expansion : Expansion)

theorem features_around (group : Group) (start : Nat) (value : Float32) (fold : Hash.Fold)
    (inside : Nat → Float32 → Hash.Fold → Emission) :
    (expansion.around group start value fold inside).features =
      (List.range' start (group.length - start)).flatMap fun p =>
        group.features[p]?.toList.flatMap fun f =>
          (inside p (value * f.value) (fold.pushIndex f.index)).features := by
  -- The induction is on the features that are left, of which each turn takes the first.
  induction left : group.length - start generalizing start with
  | zero =>
    rw [around_of_le expansion group (by omega)]
    rfl
  | succ left ih =>
    have bound : start < group.length := by omega
    have found : group.features[start]? = some group.features[start] := List.getElem?_eq_getElem bound
    rw [around_of_lt expansion group bound, Emission.features_append, Emission.features_nested,
      ih (start + 1) (by omega), List.range'_succ, List.flatMap_cons, found]
    simp

theorem counted_around (group : Group) (start : Nat) (value : Float32) (fold : Hash.Fold)
    {inside : Nat → Float32 → Hash.Fold → Emission}
    (each : ∀ (p : Nat) (value : Float32) (fold : Hash.Fold), (inside p value fold).Counted) :
    (expansion.around group start value fold inside).Counted := by
  apply Emission.Counted.concat
  intro part member
  obtain ⟨place, -, rfl⟩ := List.mem_map.1 member
  exact (each _ _ _).nested _ _

theorem counted_loops (factors : List Factor) (outer : Nat) (value : Float32) (fold : Hash.Fold) :
    (expansion.loops factors outer value fold).Counted := by
  induction factors generalizing outer value fold with
  | nil => rfl
  | cons factor inner ih => exact expansion.counted_around _ _ _ _ ih

/-- The loops meet the admitted tuples in lexicographic order. -/
theorem features_loops (factors : List Factor) (outer : Nat) (value : Float32) (fold : Hash.Fold) :
    (expansion.loops factors outer value fold).features =
      ((tuples (factors.map fun factor => factor.group.length)).filter (Factor.admits factors outer)).map
        fun tuple => expansion.addressing.extend value fold (Factor.pick factors tuple) := by
  induction factors generalizing outer value fold with
  | nil => rfl
  | cons factor inner ih =>
    rw [loops, features_around, Factor.admitted_cons, List.map_flatMap]
    apply List.flatMap_congr
    intro p member
    have bound : p < factor.group.features.length := by
      have := List.mem_range'_1.1 member
      unfold Group.length at this
      omega
    have found : factor.group.features[p]? = some factor.group.features[p] := List.getElem?_eq_getElem bound
    simp only [found, Option.toList_some, List.flatMap_cons, List.flatMap_nil, List.append_nil, ih, List.map_map]
    apply List.map_congr_left
    intro tuple _
    simp [Function.comp, Factor.pick, found, Addressing.extend]

end Expansion

/-! ## Factors of a term -/

namespace Term

def Grouped (space : Space) : Term → List Group → Prop :=
  List.Forall₂ fun ns group => space.get? ns = some group ∧ 0 < group.length

def factorsFrom (permutations same : Bool) (groups : List Group) (term : Term) : List Factor :=
  List.zipWith (fun group same => ⟨group, !permutations && same⟩) groups (same :: term.repeats)

theorem nonEmpty?_eq_some {space : Space} {ns : UInt8} {group : Group} :
    space.nonEmpty? ns = some group ↔ space.get? ns = some group ∧ 0 < group.length := by
  simp [Space.nonEmpty?, Option.filter_eq_some_iff, Group.isEmpty, Group.length, List.length_pos_iff]

theorem nonEmpty?_eq_none {space : Space} {ns : UInt8} :
    space.nonEmpty? ns = none ↔ space.isEmptyAt ns = true := by
  unfold Space.nonEmpty? Space.isEmptyAt
  cases space.get? ns <;> simp [Option.filter]

theorem mapM_nonEmpty? {space : Space} {term : Term} :
    (term.any space.isEmptyAt = true ∧ term.mapM space.nonEmpty? = none) ∨
      term.any space.isEmptyAt = false ∧ ∃ groups, Grouped space term groups ∧
        term.mapM space.nonEmpty? = some groups := by
  induction term with
  | nil => exact .inr ⟨rfl, [], .nil, rfl⟩
  | cons ns rest ih =>
    cases found : space.nonEmpty? ns with
    | none =>
      left
      simp [nonEmpty?_eq_none.1 found, found]
    | some group =>
      have filled : space.isEmptyAt ns = false := by
        rw [← Bool.not_eq_true, ← nonEmpty?_eq_none, found]
        simp
      rcases ih with ⟨missing, failed⟩ | ⟨filledRest, groups, grouped, done⟩
      · left
        simp [missing, found, failed]
      · right
        refine ⟨by simp [filled, filledRest], group :: groups, .cons (nonEmpty?_eq_some.1 found) grouped, ?_⟩
        simp [found, done]

theorem factors?_cases (permutations : Bool) (space : Space) (term : Term) :
    (term.any space.isEmptyAt = true ∧ term.factors? permutations space = none) ∨
      term.any space.isEmptyAt = false ∧ ∃ groups, Grouped space term groups ∧
        term.factors? permutations space = some (term.factorsFrom permutations false groups) := by
  rcases @mapM_nonEmpty? space term with ⟨missing, failed⟩ | ⟨filled, groups, grouped, done⟩
  · exact .inl ⟨missing, by simp [factors?, failed]⟩
  · exact .inr ⟨filled, groups, grouped, by simp [factors?, done, factorsFrom]⟩

variable {permutations : Bool} {space : Space}

theorem factorsFrom_cons_cons (same : Bool) (group next : Group) (groups : List Group) (a b : UInt8) (term : Term) :
    factorsFrom permutations same (group :: next :: groups) (a :: b :: term) =
      ⟨group, !permutations && same⟩ :: factorsFrom permutations (b == a) (next :: groups) (b :: term) := rfl

theorem Grouped.map_length {term : Term} {groups : List Group} (grouped : Grouped space term groups) (same : Bool) :
    (term.factorsFrom permutations same groups).map (fun factor => factor.group.length) =
      term.map space.sizeAt := by
  induction grouped generalizing same with
  | nil => rfl
  | @cons a group term groups first rest ih =>
    have size : space.sizeAt a = group.length := by simp [Space.sizeAt, first.1]
    cases rest with
    | nil => simp [factorsFrom, size]
    | cons =>
      rw [factorsFrom_cons_cons, List.map_cons, ih]
      simp only [List.map_cons, size]

theorem Grouped.linked {term : Term} {groups : List Group} (grouped : Grouped space term groups) (same : Bool) :
    Factor.Linked permutations (term.factorsFrom permutations same groups) := by
  induction grouped generalizing same with
  | nil => constructor <;> simp [factorsFrom]
  | @cons a group term groups first rest ih =>
    cases rest with
    | nil => constructor <;> simp +contextual [factorsFrom, first.2]
    | @cons b next term groups second rest =>
      rw [factorsFrom_cons_cons]
      obtain ⟨filled, chain, free⟩ := ih (b == a)
      refine ⟨?_, List.isChain_cons_cons.2 ⟨?_, chain⟩, ?_⟩
      · intro factor member
        rcases List.mem_cons.1 member with rfl | member
        · exact first.2
        · exact filled factor member
      · intro tied
        obtain rfl : b = a := beq_iff_eq.1 (Bool.and_eq_true_iff.1 tied).2
        exact Option.some.inj (second.1.symm.trans first.1)
      · intro all factor member
        rcases List.mem_cons.1 member with rfl | member
        · simp [all]
        · exact free all factor member

-- The loops over the factors of a term meet the tuples that ascend where ids are repeated.
theorem Grouped.admits_iff {term : Term} {groups : List Group} (grouped : Grouped space term groups) (same : Bool)
    (outer : Nat) {tuple : List Nat} (within : List.Forall₂ (· < ·) tuple (term.map space.sizeAt)) :
    Factor.admits (term.factorsFrom permutations same groups) outer tuple = true ↔
      (permutations = false → same = true → ∀ p ∈ tuple.head?, outer ≤ p) ∧
        (permutations || term.ascends tuple) = true := by
  induction grouped generalizing same outer tuple with
  | nil =>
    cases within
    simp [factorsFrom, Factor.admits, ascends]
  | @cons a group term groups first rest ih =>
    cases within with
    | @cons p _ tuple _ below within =>
      have start : (Factor.start ⟨group, !permutations && same⟩ outer ≤ p) ↔
          (permutations = false → same = true → outer ≤ p) := by
        cases permutations <;> cases same <;> simp [Factor.start]
      cases rest with
      | nil =>
        cases within
        change (decide _ && true) = true ↔ _
        rw [Bool.and_true, decide_eq_true_iff, start]
        simp only [List.head?_cons, Option.mem_def, Option.some.injEq, forall_eq', ascends, Bool.or_true, and_true]
      | @cons b next term groups second rest =>
        cases within with
        | @cons q _ tuple _ belowNext within =>
          have onward := ih (b == a) p (.cons belowNext within)
          rw [factorsFrom_cons_cons, Factor.admits, Bool.and_eq_true, decide_eq_true_iff, start, onward, ascends]
          have turned : (b == a) = true ↔ (a != b) = false := by
            rw [beq_iff_eq, bne_eq_false_iff_eq]
            exact eq_comm
          simp only [List.head?_cons, Option.mem_def, Option.some.injEq, turned]
          grind

theorem Grouped.filter_admits {term : Term} {groups : List Group} (grouped : Grouped space term groups) :
    (tuples (term.map space.sizeAt)).filter (Factor.admits (term.factorsFrom permutations false groups) 0) =
      (tuples (term.map space.sizeAt)).filter fun tuple => permutations || term.ascends tuple := by
  apply List.filter_congr
  intro tuple member
  rw [Bool.eq_iff_iff, grouped.admits_iff false 0 (mem_tuples.1 member)]
  simp

theorem Grouped.pick_eq {term : Term} {groups : List Group} (grouped : Grouped space term groups) (same : Bool)
    (tuple : List Nat) :
    Factor.pick (term.factorsFrom permutations same groups) tuple = (term.zip tuple).filterMap space.at? := by
  induction grouped generalizing same tuple with
  | nil => rfl
  | @cons a group term groups first rest ih =>
    cases tuple with
    | nil => rfl
    | cons p tuple =>
      have found : space.at? (a, p) = group.features[p]? := by simp [Space.at?, first.1]
      cases rest with
      | nil => cases chosen : group.features[p]? <;> simp [factorsFrom, Factor.pick, found, chosen]
      | cons =>
        rw [factorsFrom_cons_cons, Factor.pick, ih, List.zip_cons_cons, List.filterMap_cons, found]
        cases group.features[p]? <;> simp

end Term

/-! ## Terms -/

namespace Expansion

variable (expansion : Expansion) (permutations : Bool) (space : Space)

-- The loops for one, two and three groups and the odometer are one thing.
theorem cross_eq_loops {factors : List Factor} (linked : Factor.Linked permutations factors)
    (nonempty : factors ≠ []) (scratch : Scratch) :
    (expansion.cross permutations factors scratch).1 = expansion.loops factors 0 1 .start := by
  match factors with
  | [] => exact absurd rfl nonempty
  | [only] =>
    have begins : only.start 0 = 0 := by simp [Factor.start]
    simp only [cross, last_eq_around, loops, begins]
  | [first, second] => exact expansion.pairs_eq_loops first second
  | [first, second, third] => exact expansion.triples_eq_loops first second third
  | first :: second :: third :: fourth :: others => exact odometer_eq_loops linked nonempty scratch

theorem term_features (term : Term) (scratch : Scratch) :
    (expansion.term permutations space term scratch).1.features =
      (term.selections permutations space).map fun selection =>
        expansion.addressing.weigh (selection.filterMap space.at?) := by
  unfold Expansion.term Term.selections
  rcases term.factors?_cases permutations space with ⟨missing, none⟩ | ⟨filled, groups, grouped, factors⟩
  · simp only [none, missing, Bool.or_true, if_true]
    rfl
  · simp only [factors, filled, Bool.or_false]
    cases grouped with
    | nil => rfl
    | @cons ns group rest groups first others =>
      have grouped : Term.Grouped space (ns :: rest) (group :: groups) := .cons first others
      have nonempty : Term.factorsFrom permutations false (group :: groups) (ns :: rest) ≠ [] :=
        List.cons_ne_nil _ _
      rw [cross_eq_loops expansion permutations (grouped.linked false) nonempty, features_loops,
        grouped.map_length false, List.isEmpty_cons, if_neg Bool.false_ne_true, List.map_map]
      rw [grouped.filter_admits]
      apply List.map_congr_left
      intro tuple _
      rw [grouped.pick_eq false tuple, Addressing.extend_start]
      rfl

theorem term_counted (term : Term) (scratch : Scratch) :
    (expansion.term permutations space term scratch).1.Counted := by
  unfold Expansion.term
  rcases term.factors?_cases permutations space with ⟨-, none⟩ | ⟨-, groups, grouped, factors⟩
  · rw [none]
    rfl
  · rw [factors]
    cases grouped with
    | nil => rfl
    | @cons ns group rest groups first others =>
      have grouped : Term.Grouped space (ns :: rest) (group :: groups) := .cons first others
      simp only [cross_eq_loops expansion permutations (grouped.linked false) (List.cons_ne_nil _ _)]
      exact expansion.counted_loops _ _ _ _

theorem terms_features (terms : List Term) (scratch : Scratch) :
    (expansion.terms permutations space terms scratch).1.features =
      (terms.flatMap fun term => term.selections permutations space).map fun selection =>
        expansion.addressing.weigh (selection.filterMap space.at?) := by
  induction terms generalizing scratch with
  | nil => rfl
  | cons first rest ih =>
    simp only [terms, Emission.features_append, term_features, ih, List.flatMap_cons, List.map_append]

theorem terms_counted (terms : List Term) (scratch : Scratch) :
    (expansion.terms permutations space terms scratch).1.Counted := by
  induction terms generalizing scratch with
  | nil => rfl
  | cons first rest ih => exact (expansion.term_counted permutations space first scratch).append (ih _)

end Expansion

namespace Term

/-- No access to the groups of a term fails: not in the nested loops, and not in a walk. -/
def InBounds (expansion : Expansion) (permutations : Bool) (space : Space) (term : Term) : Prop :=
  ∀ factors, term.factors? permutations space = some factors → factors ≠ [] →
    Factor.InBounds factors 0 ∧
      ∀ (scratch : Scratch) (odometer : Odometer),
        Odometer.Reaches expansion permutations (.start scratch factors) odometer → odometer.InBounds

theorem inBounds (expansion : Expansion) (permutations : Bool) (space : Space) (term : Term) :
    term.InBounds expansion permutations space := by
  intro factors found nonempty
  rcases term.factors?_cases permutations space with ⟨-, none⟩ | ⟨-, groups, grouped, some⟩
  · rw [none] at found
    cases found
  · obtain rfl : _ = factors := Option.some.inj (some.symm.trans found)
    have linked := @Grouped.linked permutations _ _ _ grouped false
    exact ⟨linked.inBounds, fun scratch odometer reaches => reaches.inBounds linked nonempty⟩

end Term

namespace Example

def weigh (ec : Example) (hashBits : UInt32) (selection : List Occurrence) : Weighted :=
  (ec.addressing hashBits).weigh (selection.filterMap ec.space.at?)

/-- The expansion emits one feature for each selection of each term, in lexicographic order of the
positions; it counts them, and it stays inside the groups. -/
theorem crossed_enumerates (ec : Example) (audit : Bool) (terms : List Term) (permutations : Bool)
    (hashBits : UInt32) (scratch : Scratch) :
    Event.features (ec.crossed audit terms permutations hashBits scratch).1.events =
        (terms.flatMap fun term => term.selections permutations ec.space).map (ec.weigh hashBits) ∧
      (ec.crossed audit terms permutations hashBits scratch).1.count =
        (Event.features (ec.crossed audit terms permutations hashBits scratch).1.events).length ∧
      ∀ term ∈ terms, term.InBounds ⟨audit, ec.addressing hashBits⟩ permutations ec.space :=
  ⟨Expansion.terms_features _ permutations ec.space terms scratch,
    Expansion.terms_counted _ permutations ec.space terms scratch,
    fun term _ => term.inBounds _ permutations ec.space⟩

end Example

end HashedFeatures
