import HashedFeatures.Arrangement.Exchange
import HashedFeatures.Arrangement.Order
import Mathlib.Data.List.Sort

/-! What a stable sort does, in terms of the places that its items had.

Tied items keep their order. So the sorted list, each item with its place, ascends strictly: by the
relation, and among ties by the place. Strictly ascending lists of the same items are equal.
-/

set_option autoImplicit false

namespace HashedFeatures.Arrangement

variable {α : Type}

structure Orders (le : α → α → Bool) : Prop where
  trans : ∀ a b c, le a b = true → le b c = true → le a c = true
  total : ∀ a b, (le a b || le b a) = true

/-- In front of another item after a stable sort: tied items keep their places. -/
def Ahead (le : α → α → Bool) (left right : α × Nat) : Prop :=
  le left.1 right.1 = true ∧ (le right.1 left.1 = true → left.2 < right.2)

variable {le : α → α → Bool}

theorem Ahead.asymm {left right : α × Nat} (forth : Ahead le left right) (back : Ahead le right left) : False := by
  have first := forth.2 back.1
  have second := back.2 forth.1
  omega

theorem placed_zipIdx (items : List α) (first : Nat) :
    (items.zipIdx first).Pairwise fun left right => left.2 < right.2 := by
  rw [← List.pairwise_map (R := (· < ·)), List.zipIdx_map_snd]
  exact List.pairwise_lt_range'

-- Tied items are left in their order.
theorem Orders.filter_tied (orders : Orders le) (items : List α) (x : α) :
    (items.mergeSort le).filter (fun y => le x y && le y x) = items.filter fun y => le x y && le y x := by
  have tied : (items.filter fun y => le x y && le y x).Pairwise fun a b => le a b = true := by
    apply List.pairwise_of_forall_mem_list
    intro a first b second
    rw [List.mem_filter, Bool.and_eq_true] at first second
    exact orders.trans a x b first.2.2 second.2.1
  have kept : (items.filter fun y => le x y && le y x).Sublist (items.mergeSort le) :=
    List.sublist_mergeSort orders.trans orders.total tied List.filter_sublist
  have inside := kept.filter fun y => le x y && le y x
  rw [List.filter_filter] at inside
  simp only [Bool.and_self] at inside
  exact (inside.eq_of_length ((List.mergeSort_perm items le).filter _).length_eq.symm).symm

theorem Orders.ahead_mergeSort (orders : Orders le) {items : List (α × Nat)}
    (placed : items.Pairwise fun left right => left.2 < right.2) :
    (items.mergeSort fun left right => le left.1 right.1).Pairwise (Ahead le) := by
  have lifted : Orders fun left right : α × Nat => le left.1 right.1 :=
    ⟨fun a b c => orders.trans a.1 b.1 c.1, fun a b => orders.total a.1 b.1⟩
  rw [List.pairwise_iff_forall_sublist]
  intro a b pair
  have forth := List.pairwise_pair.1 ((List.pairwise_mergeSort lifted.trans lifted.total items).sublist pair)
  refine ⟨forth, fun back => ?_⟩
  -- Both belong to the ties of the first, which the sort has left in their order.
  have self : le a.1 a.1 = true := orders.trans a.1 b.1 a.1 forth back
  have tied := pair.filter fun y : α × Nat => le a.1 y.1 && le y.1 a.1
  rw [lifted.filter_tied items a] at tied
  simp only [List.filter_cons, self, forth, back, Bool.and_self, if_true, List.filter_nil] at tied
  have inOrder := placed.sublist (tied.trans List.filter_sublist)
  simpa using inOrder

-- Sorted places determine the list.
theorem eq_of_ahead {left right : List (α × Nat)} (first : left.Pairwise (Ahead le))
    (second : right.Pairwise (Ahead le)) (same : left.Perm right) : left = right :=
  List.Perm.eq_of_pairwise (fun _ _ _ _ forth back => (forth.asymm back).elim) first second same

def sortedPlaces (le : α → α → Bool) (items : List α) : List (α × Nat) :=
  items.zipIdx.mergeSort fun left right => le left.1 right.1

theorem map_fst_sortedPlaces (items : List α) : (sortedPlaces le items).map Prod.fst = items.mergeSort le := by
  unfold sortedPlaces
  rw [List.map_mergeSort (s := le) fun _ _ _ _ => rfl, List.zipIdx_map_fst]

theorem sortedPlaces_perm (items : List α) : (sortedPlaces le items).Perm items.zipIdx :=
  List.mergeSort_perm _ _

theorem Orders.ahead_sortedPlaces (orders : Orders le) (items : List α) :
    (sortedPlaces le items).Pairwise (Ahead le) :=
  orders.ahead_mergeSort (placed_zipIdx items 0)

theorem Orders.ahead_trans (orders : Orders le) {a b c : α × Nat} (first : Ahead le a b) (second : Ahead le b c) :
    Ahead le a c := by
  refine ⟨orders.trans _ _ _ first.1 second.1, fun back => ?_⟩
  have before := first.2 (orders.trans _ _ _ second.1 back)
  have after := second.2 (orders.trans _ _ _ back first.1)
  omega

/-- What stands in order in the sorted list: items whose places put them in order. -/
theorem Orders.sublist_mergeSort_iff (orders : Orders le) {items list : List α} :
    list.Sublist (items.mergeSort le) ↔
      ∃ placed : List (α × Nat), placed.map Prod.fst = list ∧ placed.Pairwise (Ahead le) ∧
        ∀ entry ∈ placed, entry ∈ items.zipIdx := by
  rw [← map_fst_sortedPlaces, List.sublist_map_iff]
  constructor
  · rintro ⟨placed, inside, rfl⟩
    refine ⟨placed, rfl, (orders.ahead_sortedPlaces items).sublist inside, fun entry member => ?_⟩
    exact (sortedPlaces_perm items).mem_iff.1 (inside.subset member)
  · rintro ⟨placed, rfl, ahead, members⟩
    refine ⟨placed, ?_, rfl⟩
    have distinct : placed.Nodup := by
      refine ahead.imp ?_
      rintro a b forth rfl
      exact forth.asymm forth
    have among : placed.Subperm (sortedPlaces le items) := by
      apply List.subperm_of_subset distinct
      intro entry member
      exact (sortedPlaces_perm items).mem_iff.2 (members entry member)
    have : Std.Antisymm (Ahead le) := ⟨fun _ _ forth back => (forth.asymm back).elim⟩
    exact List.sublist_of_subperm_of_pairwise among ahead (orders.ahead_sortedPlaces items)

-- It does not matter whether some items are dropped before the sort or after it.
theorem Orders.filter_mergeSort (orders : Orders le) (keep : α → Bool) (items : List α) :
    (items.mergeSort le).filter keep = (items.filter keep).mergeSort le := by
  have same : (sortedPlaces le items).filter (fun entry => keep entry.1) =
      (items.zipIdx.filter fun entry => keep entry.1).mergeSort fun left right => le left.1 right.1 := by
    apply eq_of_ahead ((orders.ahead_sortedPlaces items).filter _)
      (orders.ahead_mergeSort ((placed_zipIdx items 0).filter _))
    exact ((sortedPlaces_perm items).filter _).trans (List.mergeSort_perm _ _).symm
  have entries := congrArg (List.map Prod.fst) same
  rw [List.map_mergeSort (s := le) fun _ _ _ _ => rfl] at entries
  have dropped : ∀ list : List (α × Nat), (list.filter fun entry => keep entry.1).map Prod.fst =
      (list.map Prod.fst).filter keep := fun list => List.filter_map.symm
  rw [dropped, dropped, map_fst_sortedPlaces, List.zipIdx_map_fst] at entries
  exact entries

theorem pick_stableOrder (precedes : α → α → Bool) (items : List α) :
    pick (stableOrder precedes items) items = items.mergeSort fun left right => !precedes right left := by
  have picked : pick (stableOrder precedes items) items =
      ((sortedPlaces (fun left right => !precedes right left) items).map Prod.snd).filterMap
        fun place => items.toArray[place]? := rfl
  rw [picked, ← map_fst_sortedPlaces, List.filterMap_map, ← List.filterMap_eq_map]
  apply List.filterMap_congr
  intro entry member
  have place := List.mem_zipIdx_iff_getElem?.1 ((sortedPlaces_perm items).mem_iff.1 member)
  simpa using place

section

variable {β : Type}

theorem stableOrder_map (precedes : β → β → Bool) (f : α → β) (items : List α) :
    stableOrder precedes (items.map f) = stableOrder (fun left right => precedes (f left) (f right)) items := by
  unfold stableOrder
  rw [List.zipIdx_map, ← List.map_mergeSort (f := Prod.map f id)
    (r := fun left right : α × Nat => !precedes (f right.1) (f left.1)) fun _ _ _ _ => rfl, List.map_map]
  rfl

theorem pick_map (order : List Nat) (f : α → β) (items : List α) :
    pick order (items.map f) = (pick order items).map f := by
  unfold pick
  rw [List.map_filterMap]
  apply List.filterMap_congr
  intro place _
  simp

end

end HashedFeatures.Arrangement
