import HashedFeatures.Proofs.Expansion.Enumeration
import HashedFeatures.Proofs.Hash.Fold
import HashedFeatures.Proofs.Weights.Layout

/-! Crossed indices of selections that differ in one slot.

The index of a crossed feature is the hash of the indices it was crossed from, cut to the bits of the store.
A hash that is not cut tells apart two selections that differ in one slot, and every index lies inside the
store.
-/

set_option autoImplicit false

namespace HashedFeatures

namespace Space

variable {space : Space}

def wordsOf (space : Space) (selection : List Occurrence) : List UInt32 :=
  (selection.filterMap space.at?).map fun f => f.index.toUInt32

theorem wordsOf_append (front back : List Occurrence) :
    space.wordsOf (front ++ back) = space.wordsOf front ++ space.wordsOf back := by
  rw [wordsOf, List.filterMap_append, List.map_append, wordsOf, wordsOf]

theorem wordsOf_cons {occurrence : Occurrence} {f : Feature} (found : space.at? occurrence = some f)
    (rest : List Occurrence) : space.wordsOf (occurrence :: rest) = f.index.toUInt32 :: space.wordsOf rest := by
  rw [wordsOf, List.filterMap_cons_some found, List.map_cons, wordsOf]

/-- The features of a namespace have indices with different low halves. -/
def ApartAt (space : Space) (ns : UInt8) : Prop :=
  ∀ group ∈ space.get? ns, (group.features.map fun f => f.index.toUInt32).Nodup

theorem ApartAt.word_ne {ns : UInt8} (apart : space.ApartAt ns) {p q : Nat} (differ : p ≠ q) {f g : Feature}
    (first : space.at? (ns, p) = some f) (second : space.at? (ns, q) = some g) :
    f.index.toUInt32 ≠ g.index.toUInt32 := by
  obtain ⟨group, found, atFirst⟩ := Option.bind_eq_some_iff.1 first
  obtain ⟨other, foundOther, atSecond⟩ := Option.bind_eq_some_iff.1 second
  obtain rfl : group = other := Option.some.inj (found.symm.trans foundOther)
  have word : (group.features.map fun f => f.index.toUInt32)[p]? = some f.index.toUInt32 := by
    rw [List.getElem?_map, atFirst, Option.map_some]
  have otherWord : (group.features.map fun f => f.index.toUInt32)[q]? = some g.index.toUInt32 := by
    rw [List.getElem?_map, atSecond, Option.map_some]
  intro same
  rw [← same, ← word] at otherWord
  have bound := (List.getElem?_eq_some_iff.1 word).1
  exact differ ((List.getElem?_inj bound (apart group found)).1 otherWord.symm)

end Space

namespace Term

theorem neighbours_wordsOf {permutations : Bool} {space : Space} {term : Term} {selection other : List Occurrence}
    (member : selection ∈ term.selections permutations space) (otherMember : other ∈ term.selections permutations space)
    (apart : ∀ ns ∈ term, space.ApartAt ns) (close : Neighbours selection other) :
    Neighbours (space.wordsOf selection) (space.wordsOf other) := by
  obtain ⟨front, ⟨ns, p⟩, ⟨ns', q⟩, back, rfl, rfl, differ⟩ := close.exists_split
  have ids := map_fst_of_mem_selections member
  have sameId : ns = ns' := by
    have others := ids.trans (map_fst_of_mem_selections otherMember).symm
    simpa using others
  subst sameId
  have inTerm : ns ∈ term := ids ▸ List.mem_map_of_mem (List.mem_append_right front List.mem_cons_self)
  obtain ⟨f, found⟩ := Option.isSome_iff_exists.1
    (isSome_at?_of_mem_selections member (ns, p) (List.mem_append_right front List.mem_cons_self))
  obtain ⟨g, foundOther⟩ := Option.isSome_iff_exists.1
    (isSome_at?_of_mem_selections otherMember (ns, q) (List.mem_append_right front List.mem_cons_self))
  have positions : p ≠ q := fun same => differ (congrArg (ns, ·) same)
  rw [Space.wordsOf_append, Space.wordsOf_append, Space.wordsOf_cons found, Space.wordsOf_cons foundOther]
  exact neighbours_append _ ((apart ns inTerm).word_ne positions found foundOther) _

end Term

namespace Layout

theorem truncated_le_hashMask (layout : Layout) (fold : Hash.Fold) :
    (fold.truncated layout.hashBits).toUInt64 ≤ layout.hashMask := by
  have below := fold.truncated_lt layout.hashBits
  rw [UInt64.le_iff_toNat_le, UInt32.toNat_toUInt64, hashMask]
  by_cases fits : layout.hashBits.toNat < 64
  · have inside : 2 ^ min layout.hashBits.toNat 32 ≤ 2 ^ layout.hashBits.toNat :=
      Nat.pow_le_pow_right (by decide) (Nat.min_le_left _ _)
    rw [Word.toNat_lowMask fits]
    omega
  · have full : (Word.lowMask layout.hashBits.toNat).toNat = 2 ^ 64 - 1 := by
      rw [Word.lowMask, if_pos (Nat.le_of_not_lt fits)]
      rfl
    have := (fold.truncated layout.hashBits).toNat_lt
    omega

end Layout

namespace Example

def unscaled (ec : Example) (hashBits : UInt32) (selection : List Occurrence) : UInt64 :=
  ((Hash.Fold.ofWords (ec.space.wordsOf selection)).truncated hashBits).toUInt64

theorem map_index_crossed (ec : Example) (audit : Bool) (terms : List Term) (permutations : Bool)
    (hashBits : UInt32) (scratch : Scratch) :
    (Event.features (ec.crossed audit terms permutations hashBits scratch).1.events).map (fun w => w.index) =
      (terms.flatMap fun term => term.selections permutations ec.space).map fun selection =>
        ec.unscaled hashBits selection * ec.scale + ec.offset := by
  have features := Expansion.terms_features ⟨audit, ec.addressing hashBits⟩ permutations ec.space terms scratch
  rw [Emission.features] at features
  rw [crossed, features, List.map_map]
  rfl

theorem unscaled_ne {ec : Example} {hashBits : UInt32} (wide : 32 ≤ hashBits) {selection other : List Occurrence}
    (close : Neighbours (ec.space.wordsOf selection) (ec.space.wordsOf other)) :
    ec.unscaled hashBits selection ≠ ec.unscaled hashBits other := by
  intro same
  rw [unscaled, unscaled, UInt32.toUInt64_inj, Hash.Fold.truncated_of_le _ wide,
    Hash.Fold.truncated_of_le _ wide] at same
  exact Hash.Fold.ofWords_ne close (congrArg Hash.Fold.mk same)

/-- Indices that differ in one low half fold to different hashes, and a hash cut to some bits has no more of them. So a
hash that is not cut tells apart two selections of a term that differ in one slot, where every namespace has indices
with different low halves; and unless indices are scaled or moved, no feature leaves the store. -/
theorem fold_separates :
    (∀ indices others : List UInt64, Neighbours (indices.map UInt64.toUInt32) (others.map UInt64.toUInt32) →
      (indices.foldl Hash.Fold.pushIndex .start).state ≠ (others.foldl Hash.Fold.pushIndex .start).state) ∧
    (∀ (fold : Hash.Fold) (bits : UInt32), (fold.truncated bits).toNat < 2 ^ min bits.toNat 32) ∧
    (∀ (ec : Example) (audit : Bool) (term : Term) (permutations : Bool) (hashBits : UInt32) (scratch : Scratch),
      (Event.features (ec.crossed audit [term] permutations hashBits scratch).1.events).map (fun w => w.index) =
          (term.selections permutations ec.space).map (fun selection =>
            ec.unscaled hashBits selection * ec.scale + ec.offset) ∧
        (32 ≤ hashBits → (∀ ns ∈ term, ec.space.ApartAt ns) →
          ∀ selection ∈ term.selections permutations ec.space, ∀ other ∈ term.selections permutations ec.space,
            Neighbours selection other → ec.unscaled hashBits selection ≠ ec.unscaled hashBits other)) ∧
    ∀ (ec : Example) (audit : Bool) (terms : List Term) (permutations : Bool) (layout : Layout) (scratch : Scratch),
      ec.scale = 1 → ec.offset = 0 →
      ∀ w ∈ Event.features (ec.crossed audit terms permutations layout.hashBits scratch).1.events,
        w.index ≤ layout.hashMask := by
  refine ⟨fun indices others close => ?_, Hash.Fold.truncated_lt, fun ec audit term permutations hashBits scratch =>
    ⟨?_, fun wide apart selection member other otherMember close => ?_⟩,
    fun ec audit terms permutations layout scratch unit still w member => ?_⟩
  · rw [Hash.Fold.foldl_pushIndex, Hash.Fold.foldl_pushIndex]
    exact fun same => Hash.Fold.ofWords_ne close (congrArg Hash.Fold.mk same)
  · rw [map_index_crossed, List.flatMap_singleton]
  · exact unscaled_ne wide (Term.neighbours_wordsOf member otherMember apart close)
  · have index := List.mem_map_of_mem (f := fun w => w.index) member
    rw [map_index_crossed] at index
    obtain ⟨selection, -, same⟩ := List.mem_map.1 index
    rw [← same, unit, still, UInt64.mul_one, UInt64.add_zero]
    exact layout.truncated_le_hashMask _

/-- Two pairs of features that have the first one in common. -/
theorem fold_separates_pair :
    let ec := { new 0 with space := Space.empty.insert 97 ((Group.empty.push 5 .one).push 7 .one) }
    ec.unscaled 32 [(97, 0), (97, 0)] ≠ ec.unscaled 32 [(97, 0), (97, 1)] := by
  intro ec
  have apart : ∀ ns ∈ [97, 97], ec.space.ApartAt ns := by
    unfold Space.ApartAt
    decide +kernel
  exact (fold_separates.2.2.1 ec false [97, 97] false 32 #[]).2 (by decide) apart _ (by decide +kernel) _
    (by decide +kernel) (neighbours_append [(97, 0)] (by decide) [])

end Example

end HashedFeatures
