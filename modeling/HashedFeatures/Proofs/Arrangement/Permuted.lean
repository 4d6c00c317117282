import HashedFeatures.Arrangement.Exchange
import HashedFeatures.Arrangement.Order
import Mathlib.Algebra.Order.Group.Multiset
import Mathlib.Tactic.Abel

/-! A sort rearranges its items, whatever the relation.

Items that do not compare may end up anywhere, but none is lost and none is doubled. Every merge, insertion, run and
part keeps the items as a multiset.
-/

set_option autoImplicit false

namespace HashedFeatures.Arrangement

variable {α : Type} {less : α → α → Bool}

/-! ## Merging -/

namespace Merging

/-- What a merge has taken from the fronts of its two lists on the way from `before` to `now`. -/
structure Took (before now : Merging α) (left right : List α) : Prop where
  left_eq : before.left = left ++ now.left
  right_eq : before.right = right ++ now.right
  taken_eq : (now.taken : Multiset α) = left + right + before.taken

theorem Took.refl (merging : Merging α) : Took merging merging [] [] := ⟨rfl, rfl, by simp⟩

variable {taken left right others more : List α} {item : α} {now : Merging α}

theorem Took.consLeft (took : Took ⟨item :: taken, left, right⟩ now others more) :
    Took ⟨taken, item :: left, right⟩ now (item :: others) more where
  left_eq := congrArg (item :: ·) took.left_eq
  right_eq := took.right_eq
  taken_eq := by
    rw [took.taken_eq, ← Multiset.cons_coe, ← Multiset.cons_coe]
    simp only [← Multiset.singleton_add]
    abel

theorem Took.consRight (took : Took ⟨item :: taken, left, right⟩ now others more) :
    Took ⟨taken, left, item :: right⟩ now others (item :: more) where
  left_eq := took.left_eq
  right_eq := congrArg (item :: ·) took.right_eq
  taken_eq := by
    rw [took.taken_eq, ← Multiset.cons_coe, ← Multiset.cons_coe]
    simp only [← Multiset.singleton_add]
    abel

theorem took_takeLeast (count : Nat) (merging : Merging α) :
    ∃ left right, Took merging (merging.takeLeast less count) left right := by
  fun_induction takeLeast less count merging with
  | case1 count taken l left r right first ih =>
    obtain ⟨others, more, took⟩ := ih
    exact ⟨others, r :: more, took.consRight⟩
  | case2 count taken l left r right first ih =>
    obtain ⟨others, more, took⟩ := ih
    exact ⟨l :: others, more, took.consLeft⟩
  | case3 => exact ⟨[], [], .refl _⟩

theorem took_takeGreatest (count : Nat) (merging : Merging α) :
    ∃ left right, Took merging (merging.takeGreatest less count) left right := by
  fun_induction takeGreatest less count merging with
  | case1 count taken l left r right first ih =>
    obtain ⟨others, more, took⟩ := ih
    exact ⟨l :: others, more, took.consLeft⟩
  | case2 count taken l left r right first ih =>
    obtain ⟨others, more, took⟩ := ih
    exact ⟨others, r :: more, took.consRight⟩
  | case3 => exact ⟨[], [], .refl _⟩

theorem Took.taken_start (took : Took (start left right) now others more) :
    (now.taken : Multiset α) = others + more := by
  have whole := took.taken_eq
  rwa [start, Multiset.coe_nil, add_zero] at whole

-- What was taken and what is left are the two lists.
theorem Took.total (took : Took (start left right) now others more) :
    (now.taken : Multiset α) + now.left + now.right = left + right := by
  have leftEq : left = others ++ now.left := took.left_eq
  have rightEq : right = more ++ now.right := took.right_eq
  rw [took.taken_start, leftEq, rightEq, ← Multiset.coe_add, ← Multiset.coe_add]
  abel

end Merging

open Merging in
theorem mergeUp_perm (left right : List α) : (mergeUp less left right).Perm (left ++ right) := by
  obtain ⟨_, _, took⟩ := @took_takeLeast _ less (left.length + right.length) (start left right)
  unfold mergeUp
  simp only [← Multiset.coe_eq_coe, ← Multiset.coe_add, Multiset.coe_reverse]
  exact took.total

open Merging in
theorem mergeDown_perm (left right : List α) : (mergeDown less left right).Perm (left ++ right) := by
  obtain ⟨_, _, took⟩ :=
    @took_takeGreatest _ less (left.length + right.length) (start left.reverse right.reverse)
  have whole := took.total
  unfold mergeDown
  simp only [← Multiset.coe_eq_coe, ← Multiset.coe_add, Multiset.coe_reverse] at whole ⊢
  rw [← whole]
  abel

theorem merge_perm (left right : List α) : (merge less left right).Perm (left ++ right) := by
  unfold merge
  split
  case isTrue => exact mergeUp_perm left right
  case isFalse => exact mergeDown_perm left right

-- Between what was taken from the front of a list and what was taken from its end lies the rest.
theorem take_apart {items front ahead back behind : List α} (cut : items = front ++ ahead)
    (cutBack : items.reverse = back ++ behind) (apart : items.length ≤ ahead.length + behind.length) :
    front ++ ahead.take (ahead.length + behind.length - items.length) ++ back.reverse = items := by
  have fromEnd : items = behind.reverse ++ back.reverse := by
    rw [← List.reverse_append, ← cutBack, List.reverse_reverse]
  have total : items.length = front.length + ahead.length := by rw [cut, List.length_append]
  have middle : front ++ ahead.take (ahead.length + behind.length - items.length) = items.take behind.length := by
    have within : front.length ≤ behind.length := by omega
    have rest : behind.length - front.length = ahead.length + behind.length - items.length := by omega
    rw [← rest, cut, List.take_append, List.take_of_length_le within]
  rw [middle, fromEnd, List.take_left' (List.length_reverse ..)]

open Merging in
theorem mergeHalves_perm {items merged : List α} (found : mergeHalves less items = some merged) :
    merged.Perm items := by
  unfold mergeHalves at found
  dsimp only at found
  have halves : items.take (items.length / 2) ++ items.drop (items.length / 2) = items := List.take_append_drop ..
  generalize items.take (items.length / 2) = left, items.drop (items.length / 2) = right at found halves
  obtain ⟨lefts, rights, front⟩ := @took_takeLeast _ less (items.length / 2) (start left right)
  obtain ⟨leftEnd, rightEnd, back⟩ :=
    @took_takeGreatest _ less (items.length / 2) (start left.reverse right.reverse)
  generalize takeLeast less (items.length / 2) (start left right) = ahead at found front
  generalize takeGreatest less (items.length / 2) (start left.reverse right.reverse) = behind at found back
  split at found
  case isFalse => exact nomatch found
  case isTrue apart =>
    obtain rfl := Option.some.inj found
    have leftSum := congrArg Multiset.ofList (take_apart front.left_eq back.left_eq apart.1)
    have rightSum := congrArg Multiset.ofList (take_apart front.right_eq back.right_eq apart.2)
    simp only [start, ← halves, ← Multiset.coe_eq_coe, ← Multiset.coe_add, Multiset.coe_reverse]
      at leftSum rightSum ⊢
    rw [front.taken_start, back.taken_start, ← leftSum, ← rightSum]
    abel

/-! ## Short lists -/

theorem insertLast_perm (item : α) (items : List α) : (insertLast less item items).Perm (item :: items) := by
  induction items with
  | nil => rfl
  | cons last rest ih =>
    unfold insertLast
    split
    case isTrue => exact (ih.cons last).trans (.swap item last rest)
    case isFalse => rfl

theorem insertAll_perm (sorted items : List α) : (insertAll less sorted items).Perm (sorted ++ items) := by
  have inserted : ∀ reversed : List α,
      (items.foldl (fun reversed item => insertLast less item reversed) reversed).Perm (reversed ++ items) := by
    induction items with
    | nil =>
      intro reversed
      rw [List.append_nil]
      rfl
    | cons item items ih =>
      intro reversed
      exact (ih _).trans (((insertLast_perm item reversed).append_right items).trans List.perm_middle.symm)
  exact (List.reverse_perm _).trans ((inserted _).trans ((List.reverse_perm sorted).append_right items))

-- Three steps exchange two items each, or leave them: the pairs, their extremes, and the middle.
theorem sortFour_perm (p q r s : α) : (sortFour less p q r s).Perm [p, q, r, s] := by
  have ordered : ∀ (swap : Bool) (x y : α), ∃ a b,
      (if swap then (y, x) else (x, y)) = (a, b) ∧ ({a} + {b} : Multiset α) = {x} + {y} := by
    intro swap x y
    cases swap with
    | true => exact ⟨y, x, rfl, add_comm _ _⟩
    | false => exact ⟨x, y, rfl, rfl⟩
  obtain ⟨a, b, firstEq, first⟩ := ordered (less q p) p q
  obtain ⟨c, d, secondEq, second⟩ := ordered (less s r) r s
  have whole : (↑[p, q, r, s] : Multiset α) = {a} + {b} + {c} + {d} := by
    rw [first, add_assoc, second]
    simp only [← Multiset.cons_coe, Multiset.coe_nil, ← Multiset.singleton_add]
    abel
  rw [← Multiset.coe_eq_coe, whole]
  unfold sortFour
  simp only [firstEq, secondEq]
  generalize less c a = least, less d b = greatest
  cases least <;> cases greatest <;> simp only [Bool.false_eq_true, if_true, if_false] <;> split <;>
  · simp only [← Multiset.cons_coe, Multiset.coe_nil, ← Multiset.singleton_add]
    abel

theorem firstFour_perm (items : List α) : (firstFour less items).Perm (items.take 4) := by
  unfold firstFour
  split
  · exact sortFour_perm ..
  · next short =>
    rw [List.take_of_length_le]
    match items, short with
    | [], _ | [_], _ | [_, _], _ | [_, _, _], _ => simp
    | p :: q :: r :: s :: rest, short => exact (short p q r s rest rfl).elim

theorem firstEight_perm {items first : List α} (found : firstEight less items = some first) :
    first.Perm (items.take 8) := by
  have four : ((items.take 8).drop 4).take 4 = (items.take 8).drop 4 :=
    List.take_of_length_le (by rw [List.length_drop, List.length_take]; omega)
  have second := @firstFour_perm _ less ((items.take 8).drop 4)
  rw [four] at second
  have eight : items.take 4 ++ (items.take 8).drop 4 = items.take 8 := by
    have front : items.take 4 = (items.take 8).take 4 := by rw [List.take_take]; rfl
    rw [front, List.take_append_drop]
  rw [← eight]
  exact (mergeHalves_perm found).trans ((firstFour_perm items).append second)

theorem sortHalf_perm {length : Nat} {items sorted : List α} (found : sortHalf less length items = some sorted) :
    sorted.Perm items := by
  have inserted : ∀ {front : List α} {n : Nat}, front.Perm (items.take n) →
      (insertAll less front (items.drop n)).Perm items := by
    intro front n taken
    have whole := taken.append_right (items.drop n)
    rw [List.take_append_drop] at whole
    exact (insertAll_perm _ _).trans whole
  unfold sortHalf at found
  split at found
  · obtain ⟨first, eight, rfl⟩ := Option.map_eq_some_iff.1 found
    exact inserted (firstEight_perm eight)
  · split at found
    · obtain rfl := Option.some.inj found
      exact inserted (firstFour_perm items)
    · obtain rfl := Option.some.inj found
      exact inserted (.refl _)

theorem sortShort_perm {items sorted : List α} (found : sortShort less items = some sorted) :
    sorted.Perm items := by
  unfold sortShort at found
  split at found
  · rw [Option.some.inj found]
  · obtain ⟨left, first, found⟩ := Option.bind_eq_some_iff.1 found
    obtain ⟨right, second, found⟩ := Option.bind_eq_some_iff.1 found
    have halves := (sortHalf_perm first).append (sortHalf_perm second)
    rw [List.take_append_drop] at halves
    exact (mergeHalves_perm found).trans halves

/-! ## Runs -/

def Rearranges (whole : Whole α) : Prop := ∀ {items sorted : List α}, whole items = some sorted → sorted.Perm items

def Opens (front items : List α) : Prop := (front ++ items.drop front.length).Perm items

theorem Opens.of_take {front items : List α} {n : Nat} (taken : front.Perm (items.take n)) : Opens front items := by
  have dropped : items.drop front.length = items.drop n := by
    rw [taken.length_eq, List.length_take]
    rcases Nat.le_total n items.length with within | beyond
    · rw [Nat.min_eq_left within]
    · rw [Nat.min_eq_right beyond, List.drop_length, List.drop_of_length_le beyond]
  have whole := taken.append_right (items.drop n)
  rwa [List.take_append_drop, ← dropped] at whole

theorem le_continued (keeps : α → α → Bool) (last : α) (items : List α) (count : Nat) :
    count ≤ continued keeps last items count := by
  induction items generalizing last count with
  | nil => exact Nat.le_refl count
  | cons item rest ih =>
    unfold continued
    split
    · exact Nat.le_trans (Nat.le_succ count) (ih item (count + 1))
    · exact Nat.le_refl count

theorem naturalRun_perm (items : List α) : ∃ n, (naturalRun less items).Perm (items.take n) := by
  unfold naturalRun
  split
  · split
    · exact ⟨_, List.reverse_perm _⟩
    · exact ⟨_, .refl _⟩
  · exact ⟨_, by rw [List.take_length]⟩

theorem naturalRun_ne_nil {items : List α} (more : items ≠ []) : naturalRun less items ≠ [] := by
  have opened : ∀ (first second : α) (rest : List α) (keeps : α → α → Bool),
      (first :: second :: rest).take (continued keeps second rest 2) ≠ [] := by
    intro first second rest keeps none
    have two := le_continued keeps second rest 2
    rcases List.take_eq_nil_iff.1 none with zero | empty
    · omega
    · exact nomatch empty
  unfold naturalRun
  split
  · split
    · exact fun none => opened _ _ _ _ (List.reverse_eq_nil_iff.1 none)
    · exact opened _ _ _ _
  · exact more

theorem goodLength_pos {length : Nat} (present : 0 < length) : 0 < goodLength length := by
  unfold goodLength
  split
  · omega
  · unfold approximateRoot
    have root : 1 ≤ (1 + Nat.log2 length) / 2 := by
      have digits : 12 ≤ Nat.log2 length := (Nat.le_log2 (by omega)).2 (by omega)
      omega
    have wide : 2 ≤ 1 <<< ((1 + Nat.log2 length) / 2) := by
      rw [Nat.one_shiftLeft]
      exact Nat.pow_le_pow_right (Nat.zero_lt_two) root
    dsimp only
    exact Nat.div_pos (Nat.le_trans wide (Nat.le_add_right _ _)) (by decide)

theorem nextRun_opens {eager : Bool} {good : Nat} {items : List α} {run : Run α} (present : 0 < good)
    (more : items ≠ []) (found : nextRun less eager good items = some run) :
    Opens run.items items ∧ run.items ≠ [] := by
  have taken : ∀ {n : Nat} {front : List α}, 0 < n → front.Perm (items.take n) →
      Opens front items ∧ front ≠ [] := by
    intro n front positive perm
    refine ⟨.of_take perm, fun none => ?_⟩
    rw [none, List.nil_perm, List.take_eq_nil_iff] at perm
    rcases perm with zero | empty
    · omega
    · exact more empty
  unfold nextRun at found
  dsimp only at found
  split at found
  · obtain rfl := Option.some.inj found
    obtain ⟨n, perm⟩ := @naturalRun_perm _ less items
    exact ⟨.of_take perm, naturalRun_ne_nil more⟩
  · split at found
    · obtain ⟨sorted, short, rfl⟩ := Option.map_eq_some_iff.1 found
      exact taken (by decide) (sortShort_perm short)
    · obtain rfl := Option.some.inj found
      exact taken present (.refl _)

section

variable {whole : Whole α} (rearranges : Rearranges whole)
include rearranges

theorem Run.sort_perm {run : Run α} {sorted : List α} (found : run.sort whole = some sorted) :
    sorted.Perm run.items := by
  unfold Run.sort at found
  split at found
  · rw [Option.some.inj found]
  · exact rearranges found

theorem Run.join_perm {room : Nat} {left right joined : Run α}
    (found : left.join less whole room right = some joined) : joined.items.Perm (left.items ++ right.items) := by
  unfold Run.join at found
  split at found
  · obtain ⟨first, sortedFirst, found⟩ := Option.bind_eq_some_iff.1 found
    obtain ⟨second, sortedSecond, found⟩ := Option.bind_eq_some_iff.1 found
    obtain rfl := Option.some.inj found
    exact (merge_perm first second).trans
      ((sort_perm rearranges sortedFirst).append (sort_perm rearranges sortedSecond))
  · rw [← Option.some.inj found]

omit rearranges in
def gathered (waiting : List (Run α × Nat)) (last : Run α) : Multiset α :=
  (waiting.map fun entry => (entry.1.items : Multiset α)).sum + last.items

theorem joinDeeper_gathered {room level : Nat} {waiting others : List (Run α × Nat)} {last joined : Run α}
    (found : joinDeeper less whole room level waiting last = some (others, joined)) :
    gathered others joined = gathered waiting last ∧ (last.items : Multiset α) ≤ joined.items := by
  induction waiting generalizing last with
  | nil =>
    obtain ⟨rfl, rfl⟩ := Prod.mk.inj (Option.some.inj found)
    exact ⟨rfl, le_refl _⟩
  | cons entry waiting ih =>
    unfold joinDeeper at found
    split at found
    · obtain ⟨next, join, found⟩ := Option.bind_eq_some_iff.1 found
      obtain ⟨same, below⟩ := ih found
      have both : (next.items : Multiset α) = entry.1.items + last.items :=
        Multiset.coe_eq_coe.2 (Run.join_perm rearranges join)
      rw [both] at below
      refine ⟨?_, le_trans (Multiset.le_add_left _ _) below⟩
      rw [same, gathered, both, gathered, List.map_cons, List.sum_cons]
      abel
    · obtain ⟨rfl, rfl⟩ := Prod.mk.inj (Option.some.inj found)
      exact ⟨rfl, le_refl _⟩

-- At level zero nothing is left to wait.
omit rearranges in
theorem joinDeeper_zero {room : Nat} {waiting others : List (Run α × Nat)} {last joined : Run α}
    (found : joinDeeper less whole room 0 waiting last = some (others, joined)) : others = [] := by
  induction waiting generalizing last with
  | nil => exact (Prod.mk.inj (Option.some.inj found)).1.symm
  | cons entry waiting ih =>
    unfold joinDeeper at found
    rw [if_pos (Nat.zero_le _)] at found
    obtain ⟨next, -, found⟩ := Option.bind_eq_some_iff.1 found
    exact ih found

/-- Runs only wait in front of items, so none is lost where the last run is dropped for being empty. -/
theorem joinRuns_gathered {eager : Bool} {n good room fuel done : Nat} {waiting : List (Run α × Nat)}
    {last joined : Run α} {items : List α} (present : items ≠ [] → 0 < good) (enough : items.length < fuel)
    (behind : last.items = [] → waiting = [])
    (found : joinRuns less whole eager n good room fuel waiting last done items = some joined) :
    (joined.items : Multiset α) = gathered waiting last + items := by
  induction fuel generalizing waiting last done items with
  | zero => omega
  | succ fuel ih =>
    cases items with
    | nil =>
      obtain ⟨⟨others, final⟩, join, found⟩ := Option.bind_eq_some_iff.1 found
      obtain rfl := Option.some.inj found
      obtain ⟨same, -⟩ := joinDeeper_gathered rearranges join
      obtain rfl := joinDeeper_zero join
      simpa [gathered] using same
    | cons item rest =>
      obtain ⟨next, cut, found⟩ := Option.bind_eq_some_iff.1 found
      obtain ⟨⟨others, final⟩, join, found⟩ := Option.bind_eq_some_iff.1 found
      obtain ⟨opens, nonempty⟩ := nextRun_opens (present (List.cons_ne_nil _ _)) (List.cons_ne_nil _ _) cut
      obtain ⟨same, below⟩ := joinDeeper_gathered rearranges join
      have shorter : ((item :: rest).drop next.items.length).length < fuel := by
        have consumed := List.length_pos_iff.2 nonempty
        rw [List.length_cons] at enough
        rw [List.length_drop, List.length_cons]
        omega
      have later := ih (fun _ => present (List.cons_ne_nil _ _)) shorter (fun none => (nonempty none).elim) found
      have kept : gathered (if final.items.isEmpty then [] else (final, joinLevel n (done - last.items.length) done
          (done + next.items.length)) :: others) next = gathered waiting last + next.items := by
        split
        case isTrue empty =>
          -- The run that was last has no items either, so no run has waited for it.
          have none : last.items = [] := by
            rw [List.isEmpty_iff.1 empty, Multiset.coe_nil, Multiset.le_zero, Multiset.coe_eq_zero] at below
            exact below
          simp [gathered, behind none, none]
        case isFalse =>
          rw [← same]
          simp only [gathered, List.map_cons, List.sum_cons]
          abel
      have cutting : (↑(item :: rest) : Multiset α) = next.items + ((item :: rest).drop next.items.length : List α) :=
        (Multiset.coe_eq_coe.2 opens).symm.trans (Multiset.coe_add _ _).symm
      rw [later, kept, cutting, add_assoc]

theorem sortByRuns_perm {eager : Bool} {room : Nat} {items sorted : List α}
    (found : sortByRuns less whole eager room items = some sorted) : sorted.Perm items := by
  obtain ⟨run, joined, found⟩ := Option.bind_eq_some_iff.1 found
  have whole := joinRuns_gathered rearranges (fun more => goodLength_pos (List.length_pos_iff.2 more))
    (Nat.lt_succ_self _) (fun _ => rfl) joined
  refine (Run.sort_perm rearranges found).trans (Multiset.coe_eq_coe.1 ?_)
  simpa [gathered] using whole

end

/-! ## Parts, and the whole sort -/

theorem part_perm (goesLeft : α → Bool) (pivotLeft : Bool) (place : Nat) (items : List α) :
    ((part goesLeft pivotLeft place items).1 ++ (part goesLeft pivotLeft place items).2).Perm items := by
  unfold part
  rw [List.partition_eq_filter_filter, ← List.map_append]
  have parted := (List.filter_append_perm (fun entry : α × Nat =>
    if entry.2 = place then pivotLeft else goesLeft entry.1) items.zipIdx).map Prod.fst
  rwa [List.zipIdx_map_fst] at parted

theorem sortByParts_perm {room fuel limit : Nat} {ancestor : Option α} {items sorted : List α}
    (found : sortByParts less room fuel limit ancestor items = some sorted) : sorted.Perm items := by
  induction fuel generalizing limit ancestor items sorted with
  | zero => rw [← Option.some.inj found]
  | succ fuel ih =>
    unfold sortByParts at found
    split at found
    · exact sortShort_perm found
    · cases limit with
      | zero => exact sortByRuns_perm (fun found => by rw [Option.some.inj found]) found
      | succ limit =>
        dsimp only at found
        split at found
        · rw [← Option.some.inj found]
        · next pivot _ =>
          split at found
          · -- What equals the pivot needs no more sorting.
            obtain ⟨rest, later, rfl⟩ := Option.map_eq_some_iff.1 found
            exact ((ih later).append_left _).trans (part_perm (!less pivot ·) true _ items)
          · obtain ⟨right, second, found⟩ := Option.bind_eq_some_iff.1 found
            obtain ⟨left, first, found⟩ := Option.bind_eq_some_iff.1 found
            obtain rfl := Option.some.inj found
            exact ((ih first).append (ih second)).trans (part_perm (less · pivot) false _ items)

theorem adaptiveSort_perm {items sorted : List α} (found : adaptiveSort? less items = some sorted) :
    sorted.Perm items := by
  unfold adaptiveSort? at found
  split at found
  · rw [← Option.some.inj found]
    exact insertAll_perm [] items
  · exact sortByRuns_perm sortByParts_perm found

/-! ## Orders and exchanges -/

-- Picking all places in order is picking every item.
theorem pick_range (items : List α) : pick (List.range items.length) items = items := by
  have places : List.range items.length = items.zipIdx.map Prod.snd := by
    rw [List.zipIdx_map_snd, List.range_eq_range']
  unfold pick
  conv_rhs => rw [← List.zipIdx_map_fst 0 items, ← List.filterMap_eq_map]
  rw [places, List.filterMap_map]
  apply List.filterMap_congr
  intro entry member
  simpa using List.mem_zipIdx_iff_getElem?.1 member

theorem pick_perm {order : List Nat} {items : List α} (places : order.Perm (List.range items.length)) :
    (pick order items).Perm items := by
  have picked := places.filterMap (items.toArray[·]?)
  rwa [← pick, ← pick, pick_range] at picked

theorem stableOrder_perm (precedes : α → α → Bool) (items : List α) :
    (stableOrder precedes items).Perm (List.range items.length) := by
  have places := (List.mergeSort_perm items.zipIdx fun left right => !precedes right.1 left.1).map Prod.snd
  rwa [List.zipIdx_map_snd, ← List.range_eq_range'] at places

theorem adaptiveOrder_perm {precedes : α → α → Bool} {items : List α} {order : List Nat}
    (found : adaptiveOrder? precedes items = some order) : order.Perm (List.range items.length) := by
  obtain ⟨sorted, sort, rfl⟩ := Option.map_eq_some_iff.1 found
  have places := (adaptiveSort_perm sort).map Prod.snd
  rwa [List.zipIdx_map_snd, ← List.range_eq_range'] at places

theorem exchangeAll_perm (pairs : List (Nat × Nat)) (items : Array α) :
    (exchangeAll pairs items).1.toList.Perm items.toList := by
  induction pairs generalizing items with
  | nil => rfl
  | cons pair rest ih =>
    unfold exchangeAll
    split
    case isTrue within =>
      refine (ih _).trans ?_
      rw [Array.swapIfInBounds_def, dif_pos within.1, dif_pos within.2]
      exact Array.perm_iff_toList_perm.1 (Array.swap_perm _ _)
    case isFalse => rfl

end HashedFeatures.Arrangement
