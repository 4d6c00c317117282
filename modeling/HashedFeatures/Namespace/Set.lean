/-! Sets of namespace ids: one bit for each of the 256 ids, listed in ascending order. -/

set_option autoImplicit false

namespace HashedFeatures

structure NamespaceSet where
  bits : BitVec 256
  deriving DecidableEq

namespace NamespaceSet

def empty : NamespaceSet := ⟨0⟩

def contains (set : NamespaceSet) (ns : UInt8) : Bool :=
  set.bits.getLsbD ns.toNat

instance : Membership UInt8 NamespaceSet where
  mem set ns := set.contains ns = true

instance (set : NamespaceSet) (ns : UInt8) : Decidable (ns ∈ set) :=
  inferInstanceAs (Decidable (set.contains ns = true))

def insert (set : NamespaceSet) (ns : UInt8) : NamespaceSet :=
  ⟨set.bits ||| BitVec.twoPow 256 ns.toNat⟩

def ofList (ids : List UInt8) : NamespaceSet :=
  ids.foldl insert empty

def union (left right : NamespaceSet) : NamespaceSet :=
  ⟨left.bits ||| right.bits⟩

def allIds : List UInt8 :=
  (List.range 256).map UInt8.ofNat

def toList (set : NamespaceSet) : List UInt8 :=
  allIds.filter set.contains

def size (set : NamespaceSet) : Nat :=
  set.toList.length

theorem mem_def {set : NamespaceSet} {ns : UInt8} : ns ∈ set ↔ set.contains ns = true := Iff.rfl

@[simp] theorem not_mem_empty (ns : UInt8) : ns ∉ empty := by
  simp [mem_def, contains, empty]

@[simp] theorem mem_insert {set : NamespaceSet} {ns added : UInt8} :
    ns ∈ set.insert added ↔ ns = added ∨ ns ∈ set := by
  have bound := ns.toNat_lt
  have same : ns.toNat = added.toNat ↔ ns = added := UInt8.toNat_inj
  simp only [mem_def, contains, insert, BitVec.getLsbD_or, Bool.or_eq_true, BitVec.getLsbD_twoPow]
  grind

@[simp] theorem mem_union {left right : NamespaceSet} {ns : UInt8} :
    ns ∈ left.union right ↔ ns ∈ left ∨ ns ∈ right := by
  simp [mem_def, contains, union]

theorem mem_ofList {ids : List UInt8} {ns : UInt8} : ns ∈ ofList ids ↔ ns ∈ ids := by
  have go : ∀ (ids : List UInt8) (set : NamespaceSet),
      ns ∈ ids.foldl insert set ↔ ns ∈ set ∨ ns ∈ ids := by
    intro ids
    induction ids with
    | nil => simp
    | cons head rest ih => intro set; rw [List.foldl_cons, ih]; simp only [mem_insert, List.mem_cons]; grind
  rw [ofList, go]
  simp

theorem mem_allIds (ns : UInt8) : ns ∈ allIds := by
  have bound := ns.toNat_lt
  exact List.mem_map.2 ⟨ns.toNat, List.mem_range.2 bound, UInt8.ofNat_toNat⟩

@[simp] theorem mem_toList {set : NamespaceSet} {ns : UInt8} : ns ∈ set.toList ↔ ns ∈ set := by
  simp [toList, mem_allIds, mem_def]

theorem ascending_allIds : allIds.Pairwise (· < ·) := by
  unfold allIds
  rw [List.pairwise_map]
  apply List.pairwise_lt_range.imp_of_mem
  intro a b _ second before
  have bound := List.mem_range.1 second
  rw [UInt8.lt_iff_toNat_lt, UInt8.toNat_ofNat', UInt8.toNat_ofNat']
  omega

theorem nodup_allIds : allIds.Nodup :=
  ascending_allIds.imp UInt8.ne_of_lt

theorem ascending_toList (set : NamespaceSet) : set.toList.Pairwise (· < ·) :=
  ascending_allIds.sublist List.filter_sublist

theorem nodup_toList (set : NamespaceSet) : set.toList.Nodup :=
  nodup_allIds.sublist List.filter_sublist

theorem size_le (set : NamespaceSet) : set.size ≤ 256 := by
  have listed : allIds.length = 256 := by rw [allIds, List.length_map, List.length_range]
  exact listed ▸ List.length_filter_le _ _

theorem ext {left right : NamespaceSet} (same : ∀ ns, ns ∈ left ↔ ns ∈ right) : left = right := by
  cases left with
  | mk left =>
    cases right with
    | mk right =>
      congr 1
      apply BitVec.eq_of_getLsbD_eq
      intro i bound
      have member := same (UInt8.ofNat i)
      simp only [mem_def, contains, UInt8.toNat_ofNat', Nat.mod_eq_of_lt (show i < 2 ^ 8 by omega)] at member
      exact Bool.eq_iff_iff.2 member

end NamespaceSet

end HashedFeatures
