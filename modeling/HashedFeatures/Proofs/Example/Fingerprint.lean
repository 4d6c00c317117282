import HashedFeatures.Proofs.Binary32.Order
import HashedFeatures.Proofs.Example.Unwinding
import HashedFeatures.Proofs.Group.Sort

/-! The fingerprint of an example is that of its current feature space, and a sum.

Each namespace adds its id, each feature its index and the bits of its value. Sums modulo 2^64 do not depend on the
order of what they add up, so neither the order of the features nor that of the namespaces matters.
-/

set_option autoImplicit false

namespace HashedFeatures

namespace Feature

/-- The bits of the value; those of the two zeros count as none. -/
def digits (feature : Feature) : Nat :=
  if feature.value.toBits = 0 ∨ feature.value.toBits = 0x80000000 then 0 else feature.amount.bits.toNat

def share (feature : Feature) : Nat := feature.index.toNat + feature.digits

theorem toNat_valueBits (feature : Feature) : feature.valueBits.toNat = feature.digits := by
  unfold valueBits digits
  by_cases zero : (feature.value == 0) = true
  · rw [if_pos zero, if_pos ((Binary32.beq_zero_iff _).1 zero)]
    rfl
  · rw [if_neg zero, if_neg (mt (Binary32.beq_zero_iff _).2 zero), UInt32.toNat_toUInt64]

/-- What a fingerprint sees of a feature. -/
def trace (feature : Feature) : UInt64 × UInt64 := (feature.index, feature.valueBits)

theorem share_eq (feature : Feature) : feature.share = feature.trace.1.toNat + feature.trace.2.toNat := by
  rw [share, ← toNat_valueBits]
  rfl

end Feature

namespace Space

def groupShare (entry : UInt8 × Group) : Nat :=
  entry.1.toNat + (entry.2.features.map Feature.share).sum

def total (space : Space) : Nat :=
  (space.toList.map groupShare).sum

theorem addShares (features : List Feature) (sum : UInt64) :
    features.foldl (fun sum f => sum + f.index + f.valueBits) sum =
      sum + UInt64.ofNat (features.map Feature.share).sum := by
  induction features generalizing sum with
  | nil => simp
  | cons f features ih =>
    rw [List.foldl_cons, ih, List.map_cons, List.sum_cons, UInt64.ofNat_add, Feature.share, ← Feature.toNat_valueBits,
      UInt64.ofNat_add, UInt64.ofNat_toNat, UInt64.ofNat_toNat]
    ac_rfl

theorem fingerprint_eq (space : Space) : space.fingerprint = UInt64.ofNat space.total := by
  have added : ∀ (groups : List (UInt8 × Group)) (sum : UInt64),
      groups.foldl (fun sum entry =>
        entry.2.features.foldl (fun sum f => sum + f.index + f.valueBits) (sum + entry.1.toUInt64)) sum =
          sum + UInt64.ofNat (groups.map groupShare).sum := by
    intro groups
    induction groups with
    | nil => simp
    | cons entry groups ih =>
      intro sum
      rw [List.foldl_cons, ih, addShares, List.map_cons, List.sum_cons, groupShare, UInt64.ofNat_add, UInt64.ofNat_add,
        ← UInt8.toNat_toUInt64, UInt64.ofNat_toNat]
      ac_rfl
  exact (added space.toList 0).trans (UInt64.zero_add _)

theorem toNat_fingerprint (space : Space) : space.fingerprint.toNat = space.total % 2 ^ 64 := by
  rw [fingerprint_eq, UInt64.toNat_ofNat']

/-- The same namespaces with the same features in each, in whatever order. -/
def Alike (left right : Space) : Prop :=
  ∀ ns, Option.Rel (fun g h : Group => (g.features.map Feature.trace).Perm (h.features.map Feature.trace))
    (left.get? ns) (right.get? ns)

theorem Alike.total_eq {left right : Space} (alike : left.Alike right) : left.total = right.total := by
  unfold total toList
  rw [List.map_filterMap, List.map_filterMap]
  congr 1
  apply List.filterMap_congr
  intro ns _
  have shares : ∀ group : Group, (group.features.map Feature.share).sum =
      ((group.features.map Feature.trace).map fun entry => entry.1.toNat + entry.2.toNat).sum := by
    intro group
    rw [List.map_map]
    congr 2
    funext feature
    exact feature.share_eq
  have same := alike ns
  generalize left.get? ns = g, right.get? ns = h at same
  cases same with
  | none => rfl
  | some perm =>
    simp only [Option.map_some, groupShare, shares]
    rw [(perm.map _).sum_eq]

theorem Alike.fingerprint_eq {left right : Space} (alike : left.Alike right) :
    left.fingerprint = right.fingerprint := by
  rw [Space.fingerprint_eq, alike.total_eq, Space.fingerprint_eq]

end Space

namespace Example

theorem alike_sort {ec : Example} {address : Address} {group : Group} (present : ec.get? address = some group)
    (mask : UInt64) : ((onGroup address (Group.sort mask)).run ec).2.space.Alike ec.space := by
  have found : ec.space.get? (ec.resolve address) = some group := present
  have own : ec.group address = group := by rw [Example.group, present, Option.getD_some]
  intro ns
  rw [get?_run_onGroup, own]
  split
  case isTrue same =>
    rw [← same, found]
    exact .some ((Group.features_perm_run_sort mask group).map Feature.trace)
  case isFalse =>
    cases ec.space.get? ns with
    | none => exact .none
    | some other => exact .some (.refl _)

namespace Machine

/-- No step leaves a stale fingerprint behind. -/
theorem coherent_step {machine next : Machine} (coherent : machine.ec.Coherent) (move : machine.step = some next) :
    next.ec.Coherent := by
  obtain ⟨control, ec, frames, exits⟩ := machine
  unfold step at move
  dsimp only at move
  split at move <;> cases move
  · next operation code => exact operation.keeps ec coherent
  · next scope code => exact Scope.coherent_opened coherent
  · exact coherent
  · next code scope created frames => exact Scope.coherent_closed _ coherent
  · exact coherent
  · next fault scope created frames => exact Scope.coherent_closed _ coherent
  · exact coherent

theorem Reaches.coherent {machine final : Machine} (reached : machine.Reaches final)
    (coherent : machine.ec.Coherent) : final.ec.Coherent := by
  induction reached with
  | refl => exact coherent
  | tail _ move ih => exact coherent_step ih move

end Machine

namespace Program

/-- Wherever a program has led, the fingerprint is the sum over the feature space as it is then. It is the same for
two examples that differ in the order of namespaces and features only, and sorting a group does not change it. -/
theorem fingerprint_current {program : Program} {seed : UInt64} {machine : Machine}
    (reached : (program.start (new seed)).Reaches machine) :
    (∃ print : UInt64, print.toNat = machine.ec.space.total % 2 ^ 64 ∧
        fingerprint.run machine.ec = (.ok print, { machine.ec with remembered := some print })) ∧
      (∀ (other : Program) (salt : UInt64) (second : Machine), (other.start (new salt)).Reaches second →
        second.ec.space.Alike machine.ec.space →
          (fingerprint.run second.ec).1 = (fingerprint.run machine.ec).1) ∧
      ∀ (address : Address) (group : Group) (mask : UInt64), machine.ec.get? address = some group →
        (fingerprint.run ((onGroup address (Group.sort mask)).run machine.ec).2).1 =
          (fingerprint.run machine.ec).1 := by
  have coherent := reached.coherent (coherent_new seed)
  have same : ∀ {left right : Example}, left.Coherent → right.Coherent → left.space.Alike right.space →
      (fingerprint.run left).1 = (fingerprint.run right).1 := by
    intro left right first second alike
    rw [first.run_fingerprint, second.run_fingerprint, alike.fingerprint_eq]
  refine ⟨⟨_, machine.ec.space.toNat_fingerprint, coherent.run_fingerprint⟩, ?_, ?_⟩
  · intro other salt second alsoReached alike
    exact same (alsoReached.coherent (coherent_new salt)) coherent alike
  · intro address group mask present
    exact same (keeps_onGroup address _ _ coherent) coherent (alike_sort present mask)

/-- Two examples whose namespaces and features came in another order; the first was read in between. -/
theorem fingerprint_current_reordered :
    let forward := (Group.named "a" 97).append [⟨1, .one⟩, ⟨5, .one⟩]
    let backward := (Group.named "a" 97).append [⟨5, .one⟩, ⟨1, .one⟩]
    let single := (Group.named "b" 98).append [⟨2, .one⟩]
    let program := Program.act (.setGroup 97 forward) (.act .fingerprint (.act (.setGroup 98 single) .done))
    let other := Program.act (.setGroup 98 single) (.act (.setGroup 97 backward) .done)
    let left := (program.attempt.run (new 0)).2
    let right := (other.attempt.run (new 3)).2
    (∃ print : UInt64, print.toNat = left.space.total % 2 ^ 64 ∧
        fingerprint.run left = (.ok print, { left with remembered := some print })) ∧
      right.space.Alike left.space ∧ (fingerprint.run right).1 = (fingerprint.run left).1 ∧
      left.get? (.id 97) = some forward ∧
      (fingerprint.run ((onGroup (.id 97) (Group.sort 7)).run left).2).1 = (fingerprint.run left).1 := by
  intro forward backward single program other left right
  have leftSpace : left.space = (Space.empty.insert 97 forward).insert 98 single := rfl
  have rightSpace : right.space = (Space.empty.insert 98 single).insert 97 backward := rfl
  have alike : right.space.Alike left.space := by
    intro ns
    rw [leftSpace, rightSpace]
    simp only [Space.get?_insert, Space.get?_empty]
    by_cases first : 97 = ns
    · subst first
      exact .some (.swap _ _ _)
    · by_cases second : 98 = ns
      · subst second
        exact .some (.refl _)
      · rw [if_neg first, if_neg second, if_neg second, if_neg first]
        exact .none
  have present : left.get? (.id 97) = some forward := by
    have found : left.get? (.id 97) = ((Space.empty.insert 97 forward).insert 98 single).get? 97 := rfl
    rw [found, Space.get?_insert, Space.get?_insert]
    rfl
  obtain ⟨current, reordered, sorted⟩ := fingerprint_current (program.halts (new 0)).1
  have agree := reordered other 3 _ (other.halts (new 3)).1 alike
  exact ⟨current, alike, agree, present, sorted (.id 97) forward 7 present⟩

end Program

end Example

end HashedFeatures
