import HashedFeatures.Proofs.Expansion.Enumeration
import HashedFeatures.Proofs.Term.Compile
import Mathlib.Data.Sym.Card

/-! Compiled terms meet every unordered selection of features once.

A term whose repeats stand side by side meets each of its selections in one order only: sorted by the
rank of the namespace and then by the position. Different compiled terms differ as multisets, so no
selection is met by two of them, and every way to fill a template is met by one.
-/

set_option autoImplicit false

namespace HashedFeatures

namespace Term

variable {space : Space} {term : Term}

/-! ## Selections of one term -/

theorem ascends_iff (selection : List Occurrence) :
    ascends (selection.map Prod.fst) (selection.map Prod.snd) = true ↔
      selection.IsChain fun a b => a.1 = b.1 → a.2 ≤ b.2 := by
  induction selection with
  | nil => simp [ascends]
  | cons a rest ih =>
    cases rest with
    | nil => simp [ascends]
    | cons b rest =>
      simp only [List.map_cons] at ih ⊢
      rw [ascends, Bool.and_eq_true, ih, List.isChain_cons_cons]
      apply and_congr_left
      intro _
      simp [imp_iff_not_or]

theorem mem_selections {selection : List Occurrence} :
    selection ∈ term.selections false space ↔
      term ≠ [] ∧ selection.map Prod.fst = term ∧ (∀ occurrence ∈ selection, (space.at? occurrence).isSome) ∧
        selection.IsChain fun a b => a.1 = b.1 → a.2 ≤ b.2 := by
  unfold selections
  constructor
  · intro member
    split at member
    case isTrue => cases member
    case isFalse proceeds =>
      obtain ⟨tuple, admitted, rfl⟩ := List.mem_map.1 member
      obtain ⟨listed, ascending⟩ := List.mem_filter.1 admitted
      have within := mem_tuples.1 listed
      have length : tuple.length = term.length := by simpa using within.length_eq
      have first : (term.zip tuple).map Prod.fst = term := List.map_fst_zip (Nat.le_of_eq length.symm)
      have second : (term.zip tuple).map Prod.snd = tuple := List.map_snd_zip (Nat.le_of_eq length)
      refine ⟨?_, first, ?_, ?_⟩
      · rintro rfl
        simp at proceeds
      · rw [← forall₂_positions, first, second]
        exact within
      · rw [← ascends_iff, first, second]
        simpa using ascending
  · -- The tuple is that of the positions, and no group of the term is empty.
    rintro ⟨nonempty, rfl, present, ascending⟩
    have filled : ∀ occurrence ∈ selection, space.isEmptyAt occurrence.1 = false := by
      intro occurrence member
      have below := Space.isSome_at?_iff.1 (present occurrence member)
      rw [← Bool.not_eq_true, Space.isEmptyAt_iff]
      omega
    have proceeds : ¬ ((selection.map Prod.fst).isEmpty || (selection.map Prod.fst).any space.isEmptyAt) = true := by
      rw [Bool.or_eq_true, not_or]
      refine ⟨fun empty => nonempty (List.isEmpty_iff.1 empty), ?_⟩
      simpa using filled
    rw [if_neg proceeds]
    refine List.mem_map.2 ⟨selection.map Prod.snd, List.mem_filter.2 ⟨?_, ?_⟩, ?_⟩
    · exact mem_tuples.2 ((forall₂_positions selection).2 present)
    · exact (ascends_iff selection).2 ascending
    · exact List.zip_map'.trans (List.map_id _)

theorem nodup_selections : (term.selections false space).Nodup := by
  unfold selections
  split
  case isTrue => exact .nil
  case isFalse =>
    apply List.Nodup.map_on
    · intro left first right second same
      have lengths : ∀ tuple ∈ (tuples (term.map space.sizeAt)).filter fun tuple => false || term.ascends tuple,
          tuple.length = term.length := by
        intro tuple member
        simpa using (mem_tuples.1 (List.mem_filter.1 member).1).length_eq
      rw [← List.map_snd_zip (Nat.le_of_eq (lengths left first)), same,
        List.map_snd_zip (Nat.le_of_eq (lengths right second))]
    · exact (nodup_tuples _).filter _

/-! ## The one order of a selection -/

/-- Sorted by rank and then by position. -/
def precedes (rank : UInt8 → Nat) (a b : Occurrence) : Bool :=
  rank a.1 < rank b.1 || (rank a.1 == rank b.1 && a.2 ≤ b.2)

variable {rank : UInt8 → Nat}

theorem precedes_iff {a b : Occurrence} :
    precedes rank a b = true ↔ rank a.1 < rank b.1 ∨ rank a.1 = rank b.1 ∧ a.2 ≤ b.2 := by
  simp [precedes]

theorem precedes_trans (a b c : Occurrence) (first : precedes rank a b = true) (second : precedes rank b c = true) :
    precedes rank a c = true := by
  rw [precedes_iff] at *
  omega

theorem precedes_total (a b : Occurrence) : (precedes rank a b || precedes rank b a) = true := by
  rw [Bool.or_eq_true, precedes_iff, precedes_iff]
  omega

theorem Ranked.pairwise_precedes (ranked : Ranked rank term) {selection : List Occurrence}
    (same : selection.map Prod.fst = term) (ascends : selection.IsChain fun a b => a.1 = b.1 → a.2 ≤ b.2) :
    selection.Pairwise fun a b => precedes rank a b = true := by
  have ranks : (selection.map Prod.fst).Pairwise fun a b => rank a ≤ rank b := same ▸ ranked.ascends
  have injective : ∀ a ∈ selection, ∀ b ∈ selection, rank a.1 = rank b.1 → a.1 = b.1 := fun a first b second =>
    ranked.injective a.1 (same ▸ List.mem_map_of_mem first) b.1 (same ▸ List.mem_map_of_mem second)
  -- From here on only the ranks of the ids count, so the induction leaves the term behind.
  clear same ranked
  induction selection with
  | nil => exact .nil
  | cons a rest ih =>
    rw [List.map_cons, List.pairwise_cons] at ranks
    have onward := ih ascends.tail ranks.2 fun b first c second =>
      injective b (List.mem_cons_of_mem a first) c (List.mem_cons_of_mem a second)
    refine List.pairwise_cons.2 ⟨?_, onward⟩
    cases rest with
    | nil => simp
    | cons b rest =>
      have next : precedes rank a b = true := by
        have upTo := ranks.1 b.1 (by simp)
        have equal := injective a (by simp) b (by simp)
        have positions := (List.isChain_cons_cons.1 ascends).1
        rw [precedes_iff]
        rcases Nat.lt_or_eq_of_le upTo with below | level
        · exact .inl below
        · exact .inr ⟨level, positions (equal level)⟩
      intro c member
      rcases List.mem_cons.1 member with rfl | further
      · exact next
      · exact precedes_trans a b c next ((List.pairwise_cons.1 onward).1 c further)

-- Selections of one term that are equal up to order are equal.
theorem Ranked.selection_unique (ranked : Ranked rank term) {left right : List Occurrence}
    (first : left ∈ term.selections false space) (second : right ∈ term.selections false space)
    (same : left.Perm right) : left = right := by
  obtain ⟨-, leftIds, -, leftAscends⟩ := mem_selections.1 first
  obtain ⟨-, rightIds, -, rightAscends⟩ := mem_selections.1 second
  apply List.Perm.eq_of_pairwise ?_ (ranked.pairwise_precedes leftIds leftAscends)
    (ranked.pairwise_precedes rightIds rightAscends) same
  intro a b inLeft inRight forth back
  rw [precedes_iff] at forth back
  have ids : a.1 = b.1 := ranked.injective a.1 (leftIds ▸ List.mem_map_of_mem inLeft) b.1
    (rightIds ▸ List.mem_map_of_mem inRight) (by omega)
  exact Prod.ext ids (by omega)

-- The selection of a term that holds some occurrences with its namespaces is these, sorted.
theorem Ranked.exists_selection (ranked : Ranked rank term) (nonempty : term ≠ []) {chosen : List Occurrence}
    (ids : (chosen.map Prod.fst).Perm term) (present : ∀ occurrence ∈ chosen, (space.at? occurrence).isSome) :
    ∃ selection ∈ term.selections false space, selection.Perm chosen := by
  have sorted := List.pairwise_mergeSort (@precedes_trans rank) precedes_total chosen
  have same := List.mergeSort_perm chosen (precedes rank)
  have sameIds : ((chosen.mergeSort (precedes rank)).map Prod.fst).Perm term := (same.map Prod.fst).trans ids
  refine ⟨chosen.mergeSort (precedes rank), mem_selections.2 ⟨nonempty, ?_, ?_, ?_⟩, same⟩
  · have ranks : ((chosen.mergeSort (precedes rank)).map Prod.fst).Pairwise fun a b => rank a ≤ rank b := by
      rw [List.pairwise_map]
      apply sorted.imp
      intro a b before
      rw [precedes_iff] at before
      omega
    apply List.Perm.eq_of_pairwise ?_ ranks ranked.ascends sameIds
    intro a b first second forth back
    exact ranked.injective a (sameIds.mem_iff.1 first) b second (Nat.le_antisymm forth back)
  · intro occurrence member
    exact present occurrence (same.mem_iff.1 member)
  · apply sorted.isChain.imp
    intro a b before equal
    rw [precedes_iff, equal] at before
    omega

end Term

/-! ## Selections of a list of terms -/

namespace Space

def occurrences (space : Space) (namespaces : NamespaceSet) : List Occurrence :=
  namespaces.toList.flatMap fun ns => (List.range (space.sizeAt ns)).map (ns, ·)

theorem mem_occurrences {space : Space} {namespaces : NamespaceSet} {occurrence : Occurrence} :
    occurrence ∈ space.occurrences namespaces ↔
      occurrence.1 ∈ namespaces ∧ (space.at? occurrence).isSome := by
  rw [isSome_at?_iff]
  obtain ⟨ns, position⟩ := occurrence
  simp [occurrences]

theorem nodup_occurrences (space : Space) (namespaces : NamespaceSet) : (space.occurrences namespaces).Nodup := by
  rw [occurrences, List.nodup_flatMap]
  constructor
  · intro ns _
    exact List.nodup_range.map fun p q same => congrArg Prod.snd same
  · apply namespaces.nodup_toList.imp
    intro ns other different occurrence first second
    obtain ⟨p, -, rfl⟩ := List.mem_map.1 first
    obtain ⟨q, -, same⟩ := List.mem_map.1 second
    exact different (congrArg Prod.fst same).symm

end Space

/-- Occurrences whose namespaces fill a template, all of them features of the space. -/
structure Wanted (namespaces : NamespaceSet) (templates : List Term) (space : Space)
    (chosen : Multiset Occurrence) : Prop where
  fills : ∃ template ∈ templates, ∃ term : Term, Term.Fills namespaces template term ∧
    chosen.map Prod.fst = (term : Multiset UInt8)
  present : ∀ occurrence ∈ chosen, (space.at? occurrence).isSome

def Space.compiledSelections (space : Space) (mode : Selection) (namespaces : NamespaceSet)
    (templates : List Term) : List (List Occurrence) :=
  (Term.compile mode false namespaces templates).terms.flatMap (Term.selections false space)

namespace Space

variable (space : Space) (mode : Selection) (namespaces : NamespaceSet) (templates : List Term)

theorem compiledSelections_apart :
    (space.compiledSelections mode namespaces templates).Pairwise fun left right => ¬ left.Perm right := by
  unfold compiledSelections
  rw [List.pairwise_flatMap]
  constructor
  · intro term member
    obtain ⟨rank, ranked⟩ := Term.exists_ranked_of_mem_compile member
    apply Term.nodup_selections.imp_of_mem
    intro left right first second different same
    exact different (ranked.selection_unique first second same)
  · apply (Term.compile_apart mode namespaces templates).imp
    intro term other different left first right second same
    apply different
    rw [← (Term.mem_selections.1 first).2.1, ← (Term.mem_selections.1 second).2.1]
    exact same.map Prod.fst

theorem mem_compiledSelections (filled : ∀ template ∈ templates, template ≠ []) (chosen : Multiset Occurrence) :
    (∃ selection ∈ space.compiledSelections mode namespaces templates, (selection : Multiset Occurrence) = chosen) ↔
      Wanted namespaces templates space chosen := by
  constructor
  · rintro ⟨selection, member, rfl⟩
    obtain ⟨term, compiled, selected⟩ := List.mem_flatMap.1 member
    obtain ⟨-, ids, present, -⟩ := Term.mem_selections.1 selected
    obtain ⟨template, given, filled, fills, same⟩ :=
      (Term.exists_mem_compile_perm_iff mode false namespaces templates).1 ⟨term, compiled, .refl term⟩
    refine ⟨⟨template, given, filled, fills, ?_⟩, present⟩
    rw [Multiset.map_coe, ids, Multiset.coe_eq_coe]
    exact same.symm
  · induction chosen using Quotient.inductionOn with
    | h chosen =>
      rintro ⟨⟨template, given, filledTerm, fills, ids⟩, present⟩
      obtain ⟨term, compiled, same⟩ := (Term.exists_mem_compile_perm_iff mode false namespaces templates).2
        ⟨template, given, filledTerm, fills, .refl filledTerm⟩
      obtain ⟨rank, ranked⟩ := Term.exists_ranked_of_mem_compile compiled
      have nonempty : term ≠ [] := by
        rintro rfl
        have none : filledTerm.length = 0 := by rw [← same.length_eq, List.length_nil]
        exact filled template given (List.length_eq_zero_iff.1 (fills.length_eq.trans none))
      have idsPerm : (chosen.map Prod.fst).Perm term := (Multiset.coe_eq_coe.1 ids).trans same.symm
      obtain ⟨selection, selected, equal⟩ := ranked.exists_selection nonempty idsPerm present
      exact ⟨selection, List.mem_flatMap.2 ⟨term, compiled, selected⟩, Multiset.coe_eq_coe.2 equal⟩

def timesMet (chosen : Multiset Occurrence) : Nat :=
  (space.compiledSelections mode namespaces templates).countP fun selection : List Occurrence =>
    Multiset.ofList selection = chosen

theorem timesMet_eq (filled : ∀ template ∈ templates, template ≠ []) (chosen : Multiset Occurrence) :
    (Wanted namespaces templates space chosen → space.timesMet mode namespaces templates chosen = 1) ∧
      (¬ Wanted namespaces templates space chosen → space.timesMet mode namespaces templates chosen = 0) := by
  have distinct : ((space.compiledSelections mode namespaces templates).map Multiset.ofList).Nodup := by
    rw [List.Nodup, List.pairwise_map]
    exact (space.compiledSelections_apart mode namespaces templates).imp fun different same =>
      different (Multiset.coe_eq_coe.1 same)
  have counted : space.timesMet mode namespaces templates chosen =
      ((space.compiledSelections mode namespaces templates).map Multiset.ofList).count chosen := by
    rw [timesMet, List.count_eq_countP, List.countP_map]
    apply List.countP_congr
    intro selection _
    simp
  rw [counted, ← space.mem_compiledSelections mode namespaces templates filled, ← List.mem_map]
  exact ⟨List.count_eq_one_of_mem distinct, List.count_eq_zero_of_not_mem⟩

/-! ## Templates of wildcards alone -/

theorem fills_replicate {k : Nat} {term : Term} :
    Term.Fills namespaces (List.replicate k Namespace.wildcard) term ↔
      term.length = k ∧ ∀ ns ∈ term, ns ∈ namespaces := by
  induction k generalizing term with
  | zero => simp +contextual [Term.Fills]
  | succ k ih =>
    cases term with
    | nil => simp [Term.Fills, List.replicate_succ]
    | cons ns term =>
      unfold Term.Fills at ih ⊢
      rw [List.replicate_succ, List.forall₂_cons, ih]
      simp only [if_true, List.length_cons, Nat.add_right_cancel_iff, List.forall_mem_cons]
      exact and_left_comm

-- A template of wildcards alone asks for all multisets of features of its size.
theorem wanted_replicate {k : Nat} {chosen : Multiset Occurrence} :
    Wanted namespaces [List.replicate k Namespace.wildcard] space chosen ↔
      chosen.card = k ∧ ∀ occurrence ∈ chosen, occurrence ∈ space.occurrences namespaces := by
  simp only [mem_occurrences]
  constructor
  · rintro ⟨⟨template, given, term, fills, ids⟩, present⟩
    obtain rfl := List.mem_singleton.1 given
    obtain ⟨length, members⟩ := (fills_replicate namespaces).1 fills
    have size : chosen.card = k := by rw [← Multiset.card_map Prod.fst, ids, Multiset.coe_card, length]
    refine ⟨size, fun occurrence member => ⟨?_, present occurrence member⟩⟩
    apply members
    rw [← Multiset.mem_coe, ← ids]
    exact Multiset.mem_map_of_mem Prod.fst member
  · rintro ⟨size, features⟩
    refine ⟨⟨_, List.mem_singleton_self _, (chosen.map Prod.fst).toList, ?_, (Multiset.coe_toList _).symm⟩,
      fun occurrence member => (features occurrence member).2⟩
    rw [fills_replicate, Multiset.length_toList, Multiset.card_map]
    refine ⟨size, ?_⟩
    intro ns member
    obtain ⟨occurrence, inside, rfl⟩ := Multiset.mem_map.1 (Multiset.mem_toList.1 member)
    exact (features occurrence inside).1

end Space

-- Lists that differ as multisets are as many as the multisets of their size over some items.
theorem length_eq_choose {α : Type} [DecidableEq α] {lists : List (List α)}
    (apart : lists.Pairwise fun left right => ¬ left.Perm right) {items : List α} (distinct : items.Nodup) {k : Nat}
    (all : ∀ chosen : Multiset α,
      (∃ list ∈ lists, (list : Multiset α) = chosen) ↔ chosen.card = k ∧ ∀ x ∈ chosen, x ∈ items) :
    lists.length = (items.length + k - 1).choose k := by
  have nodup : (lists.map Multiset.ofList).Nodup := by
    rw [List.Nodup, List.pairwise_map]
    exact apart.imp fun different same => different (Multiset.coe_eq_coe.1 same)
  -- A multiset of `k` of the items is an element of `Sym`, and their number is known.
  let members (selection : Sym { x // x ∈ items } k) : Multiset α := selection.1.map Subtype.val
  have injective : Function.Injective members :=
    (Multiset.map_injective Subtype.val_injective).comp Sym.coe_injective
  have sameSet : (lists.map Multiset.ofList).toFinset = Finset.univ.image members := by
    ext chosen
    rw [List.mem_toFinset, List.mem_map, all, Finset.mem_image]
    constructor
    · rintro ⟨size, inside⟩
      lift chosen to Multiset { x // x ∈ items } using inside
      rw [Multiset.card_map] at size
      exact ⟨⟨chosen, size⟩, Finset.mem_univ _, rfl⟩
    · rintro ⟨selection, -, rfl⟩
      refine ⟨(Multiset.card_map _ _).trans selection.2, ?_⟩
      intro x member
      obtain ⟨item, -, rfl⟩ := Multiset.mem_map.1 member
      exact item.2
  have items_card : Fintype.card { x // x ∈ items } = items.length := by
    rw [Fintype.card_of_subtype items.toFinset fun x => List.mem_toFinset, List.toFinset_card_of_nodup distinct]
  calc lists.length
      = (lists.map Multiset.ofList).toFinset.card := by
        rw [List.toFinset_card_of_nodup nodup, List.length_map]
    _ = Fintype.card (Sym { x // x ∈ items } k) := by
        rw [sameSet, Finset.card_image_of_injective _ injective, Finset.card_univ]
    _ = (items.length + k - 1).choose k := by rw [Sym.card_sym_eq_choose, items_card]

namespace Example

/-- Compiled and expanded, the templates meet every unordered selection of features that fills one of
them exactly once, and no other. -/
theorem crossed_compiled_once (ec : Example) (audit : Bool) (mode : Selection) (namespaces : NamespaceSet)
    (templates : List Term) (filled : ∀ template ∈ templates, template ≠ []) (hashBits : UInt32)
    (scratch : Scratch) :
    Event.features
        (ec.crossed audit (Term.compile mode false namespaces templates).terms false hashBits scratch).1.events =
      (ec.space.compiledSelections mode namespaces templates).map (ec.weigh hashBits) ∧
    (∀ chosen : Multiset Occurrence,
      (Wanted namespaces templates ec.space chosen →
        ec.space.timesMet mode namespaces templates chosen = 1) ∧
      (¬ Wanted namespaces templates ec.space chosen →
        ec.space.timesMet mode namespaces templates chosen = 0)) ∧
    ∀ k, templates = [List.replicate k Namespace.wildcard] →
      (∀ chosen : Multiset Occurrence, chosen.card = k →
        (∀ occurrence ∈ chosen, occurrence ∈ ec.space.occurrences namespaces) →
        ec.space.timesMet mode namespaces templates chosen = 1) ∧
      (ec.crossed audit (Term.compile mode false namespaces templates).terms false hashBits scratch).1.count =
        ((ec.space.occurrences namespaces).length + k - 1).choose k := by
  have events := Expansion.terms_features ⟨audit, ec.addressing hashBits⟩ false ec.space
    (Term.compile mode false namespaces templates).terms scratch
  refine ⟨events, ec.space.timesMet_eq mode namespaces templates filled, ?_⟩
  rintro k rfl
  constructor
  · intro chosen size features
    exact (ec.space.timesMet_eq mode namespaces _ filled chosen).1
      ((Space.wanted_replicate ec.space namespaces).2 ⟨size, features⟩)
  · have counted := Expansion.terms_counted ⟨audit, ec.addressing hashBits⟩ false ec.space
      (Term.compile mode false namespaces [List.replicate k Namespace.wildcard]).terms scratch
    refine counted.trans ?_
    rw [events, List.length_map]
    apply length_eq_choose (ec.space.compiledSelections_apart mode namespaces _)
      (ec.space.nodup_occurrences namespaces)
    intro chosen
    exact (ec.space.mem_compiledSelections mode namespaces _ filled chosen).trans
      (Space.wanted_replicate ec.space namespaces)

/-- Two wildcards meet the pair of both features of the only namespace once. -/
theorem crossed_compiled_once_pair :
    (∀ template ∈ [[Namespace.wildcard, Namespace.wildcard]], template ≠ []) ∧
      Space.timesMet (Space.empty.insert 97 ((Group.empty.push 5 .one).push 7 .one)) .combinations (.ofList [97])
        [[Namespace.wildcard, Namespace.wildcard]] {(97, 0), (97, 1)} = 1 := by
  have filled : ∀ template ∈ [[Namespace.wildcard, Namespace.wildcard]], template ≠ [] := by decide
  have once := (crossed_compiled_once
    { new 0 with space := Space.empty.insert 97 ((Group.empty.push 5 .one).push 7 .one) } false .combinations
    (.ofList [97]) [[Namespace.wildcard, Namespace.wildcard]] filled 18 #[]).2.1 {(97, 0), (97, 1)}
  refine ⟨filled, once.1 ⟨⟨_, List.mem_singleton_self _, [97, 97], ?_, rfl⟩, ?_⟩⟩
  · rw [Term.Fills]
    exact .cons (by decide) (.cons (by decide) .nil)
  · decide

end Example

end HashedFeatures
