import HashedFeatures.Group.Basic
import HashedFeatures.Namespace.Set

/-! The groups of one example: a table with a place for every namespace id. -/

set_option autoImplicit false

namespace HashedFeatures

structure Space where
  slots : Vector (Option Group) 256

namespace Space

def empty : Space := ⟨Vector.replicate 256 none⟩

def get? (space : Space) (ns : UInt8) : Option Group :=
  have := ns.toNat_lt
  space.slots[ns.toNat]

def put (space : Space) (ns : UInt8) (group : Option Group) : Space :=
  ⟨space.slots.set ns.toNat group ns.toNat_lt⟩

def insert (space : Space) (ns : UInt8) (group : Group) : Space :=
  space.put ns (some group)

def erase (space : Space) (ns : UInt8) : Space :=
  space.put ns none

def mapGroups (space : Space) (f : Group → Group) : Space :=
  ⟨space.slots.map (Option.map f)⟩

def namespaces (space : Space) : List UInt8 :=
  NamespaceSet.allIds.filter fun ns => (space.get? ns).isSome

def toList (space : Space) : List (UInt8 × Group) :=
  NamespaceSet.allIds.filterMap fun ns => (space.get? ns).map (ns, ·)

def featureCount (space : Space) : Nat :=
  space.toList.foldl (fun count (_, group) => count + group.length) 0

def isEmptyAt (space : Space) (ns : UInt8) : Bool :=
  (space.get? ns).all Group.isEmpty

def find? (space : Space) (hash : UInt64) : Option UInt8 :=
  (space.toList.find? fun (_, group) => group.hash == hash).map Prod.fst

theorem mem_namespaces {space : Space} {ns : UInt8} :
    ns ∈ space.namespaces ↔ (space.get? ns).isSome = true := by
  rw [namespaces, List.mem_filter, and_iff_right (NamespaceSet.mem_allIds ns)]

theorem nodup_namespaces (space : Space) : space.namespaces.Nodup :=
  NamespaceSet.nodup_allIds.sublist List.filter_sublist

theorem mem_toList {space : Space} {ns : UInt8} {group : Group} :
    (ns, group) ∈ space.toList ↔ space.get? ns = some group := by
  simp [toList, List.mem_filterMap, NamespaceSet.mem_allIds]

theorem map_fst_toList (space : Space) : space.toList.map Prod.fst = space.namespaces := by
  rw [toList, namespaces, List.map_filterMap, ← List.filterMap_eq_filter]
  congr 1
  funext ns
  cases found : space.get? ns <;> simp [Option.guard, found]

@[simp] theorem get?_empty (ns : UInt8) : empty.get? ns = none := by
  simp [get?, empty]

@[simp] theorem get?_put_self (space : Space) (ns : UInt8) (group : Option Group) :
    (space.put ns group).get? ns = group := by
  simp [get?, put]

theorem get?_put_of_ne (space : Space) {ns other : UInt8} (group : Option Group) (ne : ns ≠ other) :
    (space.put ns group).get? other = space.get? other := by
  have : ns.toNat ≠ other.toNat := fun same => ne (UInt8.toNat_inj.1 same)
  simp [get?, put, Vector.getElem_set_ne, this]

theorem get?_put (space : Space) (ns other : UInt8) (group : Option Group) :
    (space.put ns group).get? other = if ns = other then group else space.get? other := by
  split
  case isTrue same => rw [← same, get?_put_self]
  case isFalse apart => exact get?_put_of_ne space _ apart

theorem get?_insert (space : Space) (ns other : UInt8) (group : Group) :
    (space.insert ns group).get? other = if ns = other then some group else space.get? other :=
  space.get?_put ns other (some group)

@[simp] theorem get?_mapGroups (space : Space) (f : Group → Group) (ns : UInt8) :
    (space.mapGroups f).get? ns = (space.get? ns).map f := by
  simp [get?, mapGroups]

theorem ext {left right : Space} (same : ∀ ns, left.get? ns = right.get? ns) : left = right := by
  cases left with
  | mk left =>
    cases right with
    | mk right =>
      congr 1
      apply Vector.ext
      intro i bound
      have place := same (UInt8.ofNat i)
      simpa [get?, Nat.mod_eq_of_lt bound] using place

end Space

end HashedFeatures
