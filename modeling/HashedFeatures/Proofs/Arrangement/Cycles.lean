import HashedFeatures.Proofs.Arrangement.Permuted

/-! Bringing items into an order by exchanges along its cycles.

Along a cycle each item is exchanged with the next one, so every place gets the item that it asks for, and the last
place gets the first item. Every place is on one cycle, which is walked once, from its least place. All exchanges are
between places that are there.
-/

set_option autoImplicit false

namespace HashedFeatures.Arrangement

variable {α : Type} {order : Array Nat} {start last place : Nat} {others : List Nat}

def source (order : Array Nat) (place : Nat) : Nat := order.getD place place

theorem source_of_lt (inside : place < order.size) : source order place = order[place] := by
  simp [source, inside]

theorem source_of_le (beyond : order.size ≤ place) : source order place = place := by
  simp [source, beyond]

structure Permutes (order : Array Nat) : Prop where
  inside : ∀ place < order.size, source order place < order.size
  injective : ∀ p < order.size, ∀ q < order.size, source order p = source order q → p = q

theorem permutes_of_perm {order : List Nat} {size : Nat} (places : order.Perm (List.range size)) :
    Permutes order.toArray where
  inside place inside := by
    have length : order.length = size := by simpa using places.length_eq
    have member := places.mem_iff.1 (List.getElem_mem inside)
    rw [source_of_lt inside]
    simpa [length] using member
  injective p first q second same := by
    have distinct : order.Nodup := places.nodup_iff.2 List.nodup_range
    rw [source_of_lt first, source_of_lt second] at same
    exact distinct.getElem_inj_iff.1 same

/-! ## Cycles -/

/-- Places that follow each other, none of them twice, and the place that follows the last one. -/
structure Trail (order : Array Nat) (start : Nat) (others : List Nat) (next : Nat) : Prop where
  distinct : (start :: others).Nodup
  inside : ∀ place ∈ start :: others, place < order.size
  follows : (start :: others).map (source order) = others ++ [next]

theorem Trail.alone (inside : start < order.size) : Trail order start [] (source order start) where
  distinct := List.nodup_singleton _
  inside := by simpa using inside
  follows := rfl

theorem Trail.push (permutes : Permutes order) {next : Nat} (trail : Trail order start others next)
    (ahead : next ≠ start) : Trail order start (others ++ [next]) (source order next) where
  distinct := by
    have moved := trail.distinct.map_on fun p first q second =>
      permutes.injective p (trail.inside p first) q (trail.inside q second)
    rw [trail.follows] at moved
    have fresh : start ∉ others := (List.nodup_cons.1 trail.distinct).1
    simp [moved, fresh, ahead.symm]
  inside := by
    have reached : next ∈ (start :: others).map (source order) := by simp [trail.follows]
    obtain ⟨place, member, rfl⟩ := List.mem_map.1 reached
    have below := permutes.inside place (trail.inside place member)
    have before := trail.inside
    simp_all [or_imp, forall_and]
  follows := by
    rw [← List.cons_append, List.map_append, trail.follows]
    rfl

theorem Trail.length_le {next : Nat} (trail : Trail order start others next) : others.length < order.size := by
  have among : start :: others ⊆ List.range order.size := fun place member =>
    List.mem_range.2 (trail.inside place member)
  simpa [Nat.succ_le_iff] using (List.subperm_of_subset trail.distinct among).length_le

/-- A walk that has room for all places comes back to its start. -/
theorem trail_follow (permutes : Permutes order) {fuel current : Nat} {met : List Nat} (inside : current < order.size)
    (trail : Trail order start met.reverse (source order current)) (enough : order.size ≤ fuel + met.length) :
    Trail order start (follow order start fuel current met) start := by
  induction fuel generalizing current met with
  | zero =>
    have room := trail.length_le
    simp at room enough
    omega
  | succ fuel ih =>
    have next : order.getD current start = source order current := by simp [source, inside]
    unfold follow
    dsimp only
    rw [next]
    split
    case isTrue back => exact back ▸ trail
    case isFalse ahead =>
      have longer := trail.push permutes ahead
      rw [← List.reverse_cons] at longer
      refine ih (permutes.inside current inside) longer ?_
      rw [List.length_cons]
      omega

-- What holds at the start of a cycle and goes on from place to place holds on the whole cycle.
theorem forall_of_follows {next : Nat → Nat} {P : Nat → Prop}
    (follows : (start :: others).map next = others ++ [last]) (step : ∀ place, P place → P (next place))
    (first : P start) : ∀ place ∈ start :: others, P place := by
  induction others generalizing start with
  | nil => simpa using first
  | cons other others ih =>
    obtain ⟨reached, follows⟩ := List.cons.inj follows
    rw [List.forall_mem_cons]
    exact ⟨first, ih follows (reached ▸ step start first)⟩

/-! ## Exchanges along a cycle -/

theorem exchangeAll_append {before behind : List (Nat × Nat)} {items reached : Array α}
    (run : exchangeAll before items = (reached, [])) :
    exchangeAll (before ++ behind) items = exchangeAll behind reached := by
  induction before generalizing items with
  | nil =>
    obtain rfl : items = reached := congrArg Prod.fst run
    rfl
  | cons pair before ih =>
    obtain ⟨i, j⟩ := pair
    unfold exchangeAll at run
    rw [List.cons_append, exchangeAll]
    split at run
    case isTrue within =>
      rw [if_pos within]
      exact ih run
    case isFalse => cases congrArg Prod.snd run

theorem getElem?_swapIfInBounds (items : Array α) {i j : Nat} (first : i < items.size) (second : j < items.size)
    (place : Nat) : (items.swapIfInBounds i j)[place]? =
      if place = i then items[j]? else if place = j then items[i]? else items[place]? := by
  rw [Array.swapIfInBounds_def, dif_pos first, dif_pos second, Array.getElem?_swap]
  by_cases atFirst : place = i <;> by_cases atSecond : place = j <;> simp_all [eq_comm]

theorem exchange_along {next : Nat → Nat} {items : Array α} (distinct : (start :: others).Nodup)
    (fresh : last ∉ others) (inside : ∀ place ∈ start :: others, place < items.size)
    (follows : (start :: others).map next = others ++ [last]) :
    ∃ brought, exchangeAll ((start :: others).zip others) items = (brought, []) ∧ brought.size = items.size ∧
      ∀ place, brought[place]? =
        if place ∈ start :: others then if next place = last then items[start]? else items[next place]?
        else items[place]? := by
  induction others generalizing start items with
  | nil =>
    have back : next start = last := by simpa using follows
    refine ⟨items, rfl, rfl, fun place => ?_⟩
    by_cases same : place = start
    · simp [same, back]
    · simp [same]
  | cons other others ih =>
    obtain ⟨reached, follows⟩ := List.cons.inj follows
    obtain ⟨alone, distinct⟩ := List.nodup_cons.1 distinct
    obtain ⟨first, inside⟩ := List.forall_mem_cons.1 inside
    have second := inside other List.mem_cons_self
    have swapped := getElem?_swapIfInBounds items first second
    have onward : ∀ place ∈ other :: others, place < (items.swapIfInBounds start other).size := by simpa using inside
    obtain ⟨brought, run, size, places⟩ :=
      ih distinct (fun member => fresh (List.mem_cons_of_mem _ member)) onward follows
    have step : exchangeAll ((start :: other :: others).zip (other :: others)) items =
        exchangeAll ((other :: others).zip others) (items.swapIfInBounds start other) := if_pos ⟨first, second⟩
    refine ⟨brought, step.trans run, by simpa using size, fun place => ?_⟩
    rw [places, swapped, swapped, swapped]
    by_cases here : place = start
    · have onward : other ≠ last := fun same => fresh (same ▸ List.mem_cons_self)
      simp [here, alone, reached, onward]
    · -- The places further on ask for items that this exchange has not moved, except for the last one.
      by_cases later : place ∈ other :: others
      · have goes := List.mem_map_of_mem (f := next) later
        rw [follows, List.append_eq, List.mem_append, List.mem_singleton] at goes
        by_cases back : next place = last
        · have apart : other ≠ start := fun same => alone (same ▸ List.mem_cons_self)
          simp [later, back, apart]
        · have within : next place ∈ others := goes.resolve_right back
          have notStart : next place ≠ start := fun same => alone (List.mem_cons_of_mem _ (same ▸ within))
          have notOther : next place ≠ other := fun same => (List.nodup_cons.1 distinct).1 (same ▸ within)
          simp [later, back, notStart, notOther]
      · have notOther : place ≠ other := fun same => later (same ▸ List.mem_cons_self)
        simp [here, later, notOther]

/-- Exchanges along a cycle bring to its places what they ask for, and touch no others. -/
theorem Trail.exchange {items : Array α} (cycle : Trail order start others start) (enough : order.size ≤ items.size) :
    ∃ brought, exchangeAll ((start :: others).zip others) items = (brought, []) ∧ brought.size = items.size ∧
      (∀ place ∈ start :: others, brought[place]? = items[source order place]?) ∧
      ∀ place ∉ start :: others, brought[place]? = items[place]? := by
  have fresh := (List.nodup_cons.1 cycle.distinct).1
  have inside : ∀ place ∈ start :: others, place < items.size := fun place member =>
    Nat.lt_of_lt_of_le (cycle.inside place member) enough
  obtain ⟨brought, run, size, places⟩ := exchange_along cycle.distinct fresh inside cycle.follows
  refine ⟨brought, run, size, fun place member => ?_, fun place absent => ?_⟩
  · rw [places, if_pos member]
    split
    case isTrue back => rw [back]
    case isFalse => rfl
  · rw [places, if_neg absent]

/-! ## All cycles -/

/-- Places whose cycles were walked once the starts below some place have been tried. -/
def Walk.Done (walk : Walk) (tried place : Nat) : Prop := place < tried ∨ walk.met.getD place true = true

structure Walked (order : Array Nat) (items : Array α) (walk : Walk) (tried : Nat) (reached : Array α) : Prop where
  run : exchangeAll walk.cycles.reverse.flatten items = (reached, [])
  size : reached.size = items.size
  met : walk.met.size = order.size
  whole : ∀ place, walk.Done tried (source order place) → walk.Done tried place
  brought : ∀ place, walk.Done tried place → reached[place]? = items[source order place]?
  kept : ∀ place, ¬ walk.Done tried place → reached[place]? = items[place]?

theorem getD_foldl_setIfInBounds (met : Array Bool) (places : List Nat) (place : Nat) :
    (places.foldl (fun met place => met.setIfInBounds place true) met).getD place true = true ↔
      met.getD place true = true ∨ place ∈ places := by
  induction places generalizing met with
  | nil => simp
  | cons next places ih =>
    rw [List.foldl_cons, ih]
    by_cases same : place = next
    · simp [same]
    · simp [same, Ne.symm same]

theorem size_foldl_setIfInBounds (met : Array Bool) (places : List Nat) :
    (places.foldl (fun met place => met.setIfInBounds place true) met).size = met.size := by
  induction places generalizing met with
  | nil => rfl
  | cons next places ih => rw [List.foldl_cons, ih, Array.size_setIfInBounds]

theorem Walked.step (permutes : Permutes order) {items reached : Array α} {walk : Walk} {tried : Nat}
    (walked : Walked order items walk tried reached) (inside : tried < order.size) (enough : order.size ≤ items.size) :
    ∃ next, Walked order items (walk.from order tried) (tried + 1) next := by
  unfold Walk.from
  split
  case isTrue met =>
    -- The place lies on a cycle that was walked before.
    have same : ∀ place, walk.Done (tried + 1) place ↔ walk.Done tried place := by
      intro place
      unfold Walk.Done
      rw [Nat.lt_succ_iff_lt_or_eq, or_assoc]
      exact or_congr_right (or_iff_right_of_imp fun here => here ▸ met)
    refine ⟨reached, walked.run, walked.size, walked.met, ?_, ?_, ?_⟩
    · simpa only [same] using walked.whole
    · simpa only [same] using walked.brought
    · simpa only [same] using walked.kept
  case isFalse unmet =>
    have cycle : Trail order tried (follow order tried order.size tried []) tried :=
      trail_follow permutes inside (Trail.alone inside) (Nat.le_refl _)
    generalize follow order tried order.size tried [] = others at cycle
    have fresh : ∀ place ∈ tried :: others, ¬ walk.Done tried place := by
      refine forall_of_follows cycle.follows (fun place fresh done => fresh (walked.whole place done)) ?_
      simp [Walk.Done, unmet]
    have room : order.size ≤ reached.size := walked.size ▸ enough
    obtain ⟨next, run, size, brought, kept⟩ := cycle.exchange room
    have done : ∀ place, Walk.Done
        ⟨(tried :: others).zip others :: walk.cycles,
          others.foldl (fun met place => met.setIfInBounds place true) walk.met⟩ (tried + 1) place ↔
        walk.Done tried place ∨ place ∈ tried :: others := by
      intro place
      unfold Walk.Done
      rw [getD_foldl_setIfInBounds, Nat.lt_succ_iff_lt_or_eq, List.mem_cons]
      tauto
    have onward : ∀ place ∈ tried :: others, source order place ∈ tried :: others := by
      intro place member
      have goes := List.mem_map_of_mem (f := source order) member
      rw [cycle.follows] at goes
      simpa [or_comm] using goes
    have backward : ∀ place, source order place ∈ tried :: others → place ∈ tried :: others := by
      intro place member
      have asked : source order place ∈ (tried :: others).map (source order) := by
        rw [cycle.follows]
        simpa [or_comm] using member
      obtain ⟨other, within, same⟩ := List.mem_map.1 asked
      by_cases present : place < order.size
      · exact permutes.injective other (cycle.inside other within) place present same ▸ within
      · rwa [source_of_le (Nat.le_of_not_lt present)] at member
    refine ⟨next, ?_, size.trans walked.size, ?_, fun place => ?_, fun place => ?_, fun place => ?_⟩
    · rw [List.reverse_cons, List.flatten_append, exchangeAll_append walked.run, List.flatten_singleton]
      exact run
    · rw [size_foldl_setIfInBounds, walked.met]
    · rw [done, done]
      exact Or.imp (walked.whole place) (backward place)
    · rw [done]
      rintro (before | member)
      · rw [kept place fun member => fresh place member before, walked.brought place before]
      · rw [brought place member, walked.kept _ (fresh _ (onward place member))]
    · rw [done, not_or]
      rintro ⟨before, absent⟩
      rw [kept place absent, walked.kept place before]

theorem exists_walked (permutes : Permutes order) (items : Array α) (enough : order.size ≤ items.size) {tried : Nat}
    (inside : tried ≤ order.size) :
    ∃ reached, Walked order items
      ((List.range tried).foldl (Walk.from order) ⟨[], Array.replicate order.size false⟩) tried reached := by
  induction tried with
  | zero =>
    have none : ∀ place, Walk.Done ⟨[], Array.replicate order.size false⟩ 0 place ↔ order.size ≤ place := by
      intro place
      unfold Walk.Done
      by_cases present : place < order.size
      · simp [present, Nat.not_le.2 present]
      · simp [present, Nat.le_of_not_lt present]
    rw [List.range_zero, List.foldl_nil]
    refine ⟨items, rfl, rfl, Array.size_replicate, fun place => ?_, fun place => ?_, fun place _ => rfl⟩
    · rw [none, none]
      intro beyond
      by_contra present
      exact absurd (permutes.inside place (Nat.lt_of_not_le present)) (Nat.not_lt.2 beyond)
    · rw [none]
      intro beyond
      rw [source_of_le beyond]
  | succ tried ih =>
    obtain ⟨reached, walked⟩ := ih (Nat.le_of_succ_le inside)
    rw [List.range_succ, List.foldl_append]
    exact walked.step permutes inside enough

/-! ## Picking in place -/

section

variable {order : List Nat} {items : List α}

theorem pick_cons {place : Nat} (inside : place < items.length) :
    pick (place :: order) items = items[place] :: pick order items :=
  List.filterMap_cons_some (by simp [inside])

theorem map_some_pick (inside : ∀ place ∈ order, place < items.length) :
    (pick order items).map some = order.map (items[·]?) := by
  induction order with
  | nil => rfl
  | cons place order ih =>
    obtain ⟨first, rest⟩ := List.forall_mem_cons.1 inside
    rw [pick_cons first, List.map_cons, List.map_cons, ih rest, List.getElem?_eq_getElem first]

theorem getElem?_pick (inside : ∀ place ∈ order, place < items.length) (place : Nat) :
    (pick order items)[place]? = order[place]?.bind (items[·]?) := by
  have asked := congrArg (·[place]?) (map_some_pick inside)
  simp only [List.getElem?_map] at asked
  cases picked : (pick order items)[place]? <;> cases found : order[place]? <;> simp_all

/-- Exchanging items in place puts them into the order, and no place is missing. -/
theorem exchangeAll_exchanges (places : order.Perm (List.range items.length)) :
    exchangeAll (exchanges order) items.toArray = ((pick order items).toArray, []) := by
  have length : order.length = items.length := by simpa using places.length_eq
  have inside : ∀ place ∈ order, place < items.length := fun place member =>
    List.mem_range.1 (places.mem_iff.1 member)
  obtain ⟨reached, walked⟩ :=
    exists_walked (permutes_of_perm places) items.toArray (Nat.le_of_eq length) (Nat.le_refl _)
  have picked : reached = (pick order items).toArray := by
    apply Array.ext_getElem?
    intro place
    refine Eq.trans ?_ (List.getElem?_toArray.trans (getElem?_pick inside place)).symm
    by_cases present : place < order.length
    · rw [walked.brought place (.inl present), source_of_lt present, List.getElem?_eq_getElem present]
      simp
    · have beyond := Nat.le_of_not_lt present
      rw [List.getElem?_eq_none beyond, Array.getElem?_eq_none]
      · rfl
      · rw [walked.size, List.size_toArray]
        exact length ▸ beyond
  rw [← picked]
  exact walked.run

end

end HashedFeatures.Arrangement
