import HashedFeatures.Proofs.Example.Operation
import HashedFeatures.Proofs.Weights.Layout

/-! What a scope with shifted indices leaves behind.

No index is saved when the scope opens. What an index loses at its high end when it is shifted to the left is not
there when it is shifted back.
-/

set_option autoImplicit false

namespace HashedFeatures

namespace Word

/-- Shifted to the left and back to the right, a word has its low bits. -/
theorem shiftLeft_shiftRight {amount : Nat} (fits : amount < 64) (word : UInt64) :
    (word <<< UInt64.ofNat amount) >>> UInt64.ofNat amount = UInt64.ofNat (word.toNat % 2 ^ (64 - amount)) := by
  have whole : 2 ^ 64 = 2 ^ (64 - amount) * 2 ^ amount := by rw [← Nat.pow_add, Nat.sub_add_cancel (by omega)]
  have small : word.toNat % 2 ^ (64 - amount) < 2 ^ 64 := Nat.lt_of_le_of_lt (Nat.mod_le _ _) word.toNat_lt
  rw [← UInt64.toNat_inj, toNat_shiftRight fits, UInt64.toNat_shiftLeft, UInt64.toNat_ofNat',
    Nat.mod_eq_of_lt (show amount < 2 ^ 64 by omega), Nat.mod_eq_of_lt fits, Nat.shiftLeft_eq, UInt64.toNat_ofNat',
    Nat.mod_eq_of_lt small, whole, Nat.mul_mod_mul_right, Nat.mul_div_cancel _ (Nat.two_pow_pos _)]

theorem ofNat_mod_eq_iff {bits : Nat} (word : UInt64) :
    UInt64.ofNat (word.toNat % 2 ^ bits) = word ↔ word.toNat < 2 ^ bits := by
  have small : word.toNat % 2 ^ bits < 2 ^ 64 := Nat.lt_of_le_of_lt (Nat.mod_le _ _) word.toNat_lt
  rw [← UInt64.toNat_inj, UInt64.toNat_ofNat', Nat.mod_eq_of_lt small]
  constructor
  · intro same
    exact same ▸ Nat.mod_lt _ (Nat.two_pow_pos _)
  · exact Nat.mod_eq_of_lt

end Word

namespace Group

def reindex (f : UInt64 → UInt64) (group : Group) : Group :=
  { group with features := group.features.map fun feature => { feature with index := f feature.index } }

variable {f g : UInt64 → UInt64} {group : Group}

theorem reindex_reindex : (group.reindex f).reindex g = group.reindex fun index => g (f index) := by
  unfold reindex
  simp only [List.map_map]
  rfl

theorem reindex_eq_iff : group.reindex f = group ↔ ∀ feature ∈ group.features, f feature.index = feature.index := by
  have features : group.reindex f = group ↔ (group.reindex f).features = group.features := by
    refine ⟨congrArg features, fun same => ?_⟩
    exact congrArg (fun features => { group with features }) same
  rw [features]
  constructor
  · intro same feature member
    have own := List.map_inj_left.1 (same.trans (List.map_id _).symm) feature member
    exact congrArg Feature.index own
  · intro own
    refine (List.map_congr_left fun feature member => ?_).trans (List.map_id _)
    rw [own feature member]
    rfl

end Group

namespace Example

theorem get?_mapIndices (f : UInt64 → UInt64) (ec : Example) (ns : UInt8) :
    (ec.mapIndices f).space.get? ns = (ec.space.get? ns).map (Group.reindex f) :=
  Space.get?_mapGroups ec.space (Group.reindex f) ns

theorem run_underShift {α : Type} {shift : Nat} (fits : shift < 64) (positive : shift ≠ 0)
    (body : Attempt Example α) (ec : Example) :
    (underShift shift body).run ec = ((shiftIndices (UInt64.ofNat shift)).scope body).run ec := by
  rw [underShift, if_neg positive, Attempt.run_bind_ok (Attempt.run_get ec), if_neg (by omega)]

/-- Two spaces of which one has changed indices are the same if no index is changed. -/
theorem space_eq_iff {f : UInt64 → UInt64} {ec reached : Example}
    (each : ∀ ns, reached.space.get? ns = (ec.space.get? ns).map (Group.reindex f)) :
    reached.space = ec.space ↔
      ∀ ns group, ec.space.get? ns = some group → ∀ feature ∈ group.features, f feature.index = feature.index := by
  constructor
  · intro same ns group found
    have own := each ns
    rw [same, found] at own
    exact Group.reindex_eq_iff.1 (Option.some.inj own).symm
  · intro fixed
    refine Space.ext fun ns => ?_
    rw [each]
    cases found : ec.space.get? ns with
    | none => rfl
    | some group => exact congrArg some (Group.reindex_eq_iff.2 (fixed ns group found))

/-- Shifted to the left and back, every index has its low bits. -/
theorem get?_shifted_back {shift : Nat} (fits : shift < 64) (ec : Example) (ns : UInt8) :
    ((ec.mapIndices (· <<< UInt64.ofNat shift)).mapIndices (· >>> UInt64.ofNat shift)).space.get? ns =
      (ec.space.get? ns).map (Group.reindex fun index => UInt64.ofNat (index.toNat % 2 ^ (64 - shift))) := by
  rw [get?_mapIndices, get?_mapIndices, Option.map_map]
  congr 1
  funext group
  rw [Function.comp_apply, Group.reindex_reindex]
  simp only [Word.shiftLeft_shiftRight fits]

/-- A scope with shifted indices shows them shifted and leaves them without their high bits; all else is as before. So
the feature space is restored exactly if no index has a bit that is shifted out. -/
theorem underShift_restores_iff {α : Type} {shift : Nat} (fits : shift < 64) (read : Example → Except Fault α)
    (ec : Example) :
    ∃ shown reached, (underShift shift (.make fun shifted => (read shifted, shifted))).run ec = (read shown, reached) ∧
      (∀ ns, shown.space.get? ns = (ec.space.get? ns).map (Group.reindex (· <<< UInt64.ofNat shift))) ∧
      (∀ ns, reached.space.get? ns =
        (ec.space.get? ns).map (Group.reindex fun index => UInt64.ofNat (index.toNat % 2 ^ (64 - shift)))) ∧
      { reached with space := ec.space, remembered := ec.remembered } = ec ∧
      (reached.space = ec.space ↔ ∀ ns group, ec.space.get? ns = some group →
        ∀ feature ∈ group.features, feature.index.toNat < 2 ^ (64 - shift)) := by
  have restored {reached : Example} (each : ∀ ns, reached.space.get? ns =
      (ec.space.get? ns).map (Group.reindex fun index => UInt64.ofNat (index.toNat % 2 ^ (64 - shift)))) :
      reached.space = ec.space ↔ ∀ ns group, ec.space.get? ns = some group →
        ∀ feature ∈ group.features, feature.index.toNat < 2 ^ (64 - shift) := by
    rw [space_eq_iff each]
    simp only [Word.ofNat_mod_eq_iff]
  by_cases none : shift = 0
  · -- Without a shift the example is not touched, and each index keeps all of its bits.
    subst none
    have unchanged {f : UInt64 → UInt64} (fixed : ∀ index, f index = index) (ns : UInt8) :
        ec.space.get? ns = (ec.space.get? ns).map (Group.reindex f) := by
      cases ec.space.get? ns with
      | none => rfl
      | some group => exact congrArg some (Group.reindex_eq_iff.2 fun _ _ => fixed _).symm
    have cropped := unchanged fun index => (Word.ofNat_mod_eq_iff index).2 index.toNat_lt
    exact ⟨ec, ec, rfl, unchanged fun index => UInt64.shiftLeft_zero, cropped, rfl, restored cropped⟩
  · have cropped := get?_shifted_back fits ec
    exact ⟨_, _, (run_underShift fits none _ ec).trans rfl, get?_mapIndices _ ec, cropped, rfl, restored cropped⟩

/-- A hash of 32 bits has room for a shift by three. -/
theorem underShift_restores_iff_hashed :
    let group := (Group.named "user" 7).addNamed "age" .one true
    let ec := (new 0).setGroup 97 group
    3 < 64 ∧ (∀ feature ∈ group.features, feature.index.toNat < 2 ^ (64 - 3)) ∧
      ∃ reached, (underShift 3 (pure ())).run ec = (.ok (), reached) ∧ reached.space = ec.space := by
  intro group ec
  have small : ∀ feature ∈ group.features, feature.index.toNat < 2 ^ (64 - 3) := by decide +kernel
  obtain ⟨_, reached, run, -, -, -, restored⟩ := underShift_restores_iff (show 3 < 64 by decide) (fun _ => .ok ()) ec
  refine ⟨by decide, small, reached, run, restored.2 ?_⟩
  exact forall_get?_single (P := fun _ group => ∀ feature ∈ group.features, feature.index.toNat < 2 ^ (64 - 3)) small

/-- The highest bit of an index is lost. -/
theorem underShift_loses_high_bit :
    let group := Group.empty.append [⟨9223372036854775813, .one⟩]
    let ec := (new 0).setGroup 97 group
    1 < 64 ∧ ∃ reached result, (underShift 1 (pure ())).run ec = (.ok (), reached) ∧
      reached.space.get? 97 = some result ∧ result.features.map Feature.index = [5] ∧
      result.features.map Feature.index ≠ group.features.map Feature.index := by
  intro group ec
  have found : ec.space.get? 97 = some group := by rw [get?_setGroup, if_pos rfl]
  have run : (underShift 1 (pure ())).run ec = (.ok (), _) := run_underShift (by decide) (by decide) (pure ()) ec
  refine ⟨by decide, _, group.reindex fun index => UInt64.ofNat (index.toNat % 2 ^ (64 - 1)), run, ?_, ?_, ?_⟩
  · exact (get?_shifted_back (by decide) ec 97).trans (congrArg (Option.map _) found)
  · decide +kernel
  · decide +kernel

end Example

end HashedFeatures
