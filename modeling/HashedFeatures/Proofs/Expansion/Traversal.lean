import HashedFeatures.Proofs.Expansion.Enumeration

/-! What a traversal emits, and how it depends on the scale and the offset.

A traversal emits the features of the namespaces that are not ignored and then one feature for each
selection of each term. The frames that it takes over play no part, and the scale and the offset only
say which weight a feature meets.
-/

set_option autoImplicit false

namespace HashedFeatures

namespace Addressing

def unscaled (hashBits : UInt32) : Addressing := ⟨hashBits, 1, 0⟩

@[simp] theorem weightIndex_unscaled (hashBits : UInt32) (index : UInt64) :
    (unscaled hashBits).weightIndex index = index := by
  simp [unscaled, weightIndex]

/-- A feature at its own index meets the weight at the index that the addressing makes of it. -/
def readdress (addressing : Addressing) (w : Weighted) : Weighted :=
  { w with index := addressing.weightIndex w.index }

theorem weigh_eq_readdress (addressing : Addressing) (features : List Feature) :
    addressing.weigh features = addressing.readdress ((unscaled addressing.hashBits).weigh features) := by
  simp only [weigh, readdress, ofFold, weightIndex_unscaled]
  rfl

end Addressing

namespace Space

def linearFeatures (space : Space) (ignored : NamespaceSet) : List Feature :=
  space.toList.flatMap fun (ns, group) => if ns ∈ ignored then [] else group.features

end Space

namespace Example

variable (ec : Example) (ignored : NamespaceSet) (terms : List Term) (permutations : Bool) (hashBits : UInt32)
  (scratch : Scratch)

theorem features_linear :
    Event.features (ec.linear false ignored) =
      (ec.space.linearFeatures ignored).map fun f => ⟨f.value, (ec.addressing 0).weightIndex f.index⟩ := by
  have weighted (group : Group) : Event.features ((group.weighted (ec.addressing 0) 1).map .feature) =
      group.features.map fun f => ⟨f.value, (ec.addressing 0).weightIndex f.index⟩ := by
    simp [Event.features, Group.weighted, List.filterMap_map, Function.comp_def, Binary32.one_mul]
  unfold linear Space.linearFeatures
  rw [Event.features, List.filterMap_flatMap, List.map_flatMap]
  apply List.flatMap_congr
  rintro ⟨ns, group⟩ _
  by_cases skipped : ns ∈ ignored
  · simp [skipped]
  · simp only [if_neg skipped]
    exact weighted group

theorem features_traverse :
    Event.features (ec.traverse false ignored terms permutations hashBits scratch).1.events =
      ((ec.space.linearFeatures ignored).map fun f => ⟨f.value, (ec.addressing 0).weightIndex f.index⟩) ++
        (terms.flatMap fun term => term.selections permutations ec.space).map (ec.weigh hashBits) := by
  unfold traverse
  rw [Event.features, List.filterMap_append, ← Event.features, ← Event.features, features_linear]
  exact congrArg _ (Expansion.terms_features _ permutations ec.space terms scratch)

def weightedFeatures : List Weighted :=
  ((ec.space.linearFeatures ignored).map fun f => ⟨f.value, f.index⟩) ++
    (terms.flatMap fun term => term.selections permutations ec.space).map fun selection =>
      (Addressing.unscaled hashBits).weigh (selection.filterMap ec.space.at?)

-- The scale and the offset only readdress what is emitted without them.
theorem features_traverse_eq_readdress :
    Event.features (ec.traverse false ignored terms permutations hashBits scratch).1.events =
      (ec.weightedFeatures ignored terms permutations hashBits).map (ec.addressing hashBits).readdress := by
  rw [features_traverse, weightedFeatures, List.map_append, List.map_map, List.map_map]
  congr 1
  apply List.map_congr_left
  intro selection _
  exact (ec.addressing hashBits).weigh_eq_readdress _

end Example

end HashedFeatures
