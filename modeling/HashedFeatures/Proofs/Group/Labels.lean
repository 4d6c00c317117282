import HashedFeatures.Group.Basic
import HashedFeatures.Arrangement.Exchange

/-! Groups all of whose features have labels, or none has.

Such a group is the list of its features, each with its label or without one.
-/

set_option autoImplicit false

namespace HashedFeatures.Group

/-- There are no labels, or there is one for every feature. -/
def Complete (group : Group) : Prop := group.labels = [] ∨ group.labels.length = group.length

variable {group : Group} {audit : Bool} {entries : List (Feature × Option Label)} {place : Nat}

theorem isAudited_eq_false_iff : group.isAudited = false ↔ group.labels = [] := by
  simp [isAudited]

theorem Complete.length_labels (complete : group.Complete) (audited : group.isAudited = true) :
    group.labels.length = group.length := by
  refine complete.resolve_left fun unlabelled => ?_
  rw [isAudited, unlabelled] at audited
  cases audited

theorem Complete.lt_length_labels (complete : group.Complete) (audited : group.isAudited = true)
    (inside : place < group.length) : place < group.labels.length := by
  rwa [complete.length_labels audited]

theorem getElem?_labelled (group : Group) (place : Nat) :
    group.labelled[place]? = group.features[place]?.map (·, group.labels[place]?) := by
  simp [labelled, List.getElem?_zipIdx, Option.map_map, Function.comp_def]

@[simp] theorem map_fst_labelled (group : Group) : group.labelled.map Prod.fst = group.features := by
  apply List.ext_getElem?
  intro place
  rw [List.getElem?_map, getElem?_labelled, Option.map_map]
  exact Option.map_id'

theorem map_index_labelled (group : Group) :
    group.labelled.map (fun item => item.1.index) = group.features.map Feature.index := by
  rw [← map_fst_labelled, List.map_map]
  rfl

def labelIn (entry : Feature × Option Label) : Label := entry.2.getD .empty

structure Lists (audit : Bool) (group : Group) (entries : List (Feature × Option Label)) : Prop where
  features : group.features = entries.map Prod.fst
  labels : group.labels = if audit then entries.map labelIn else []
  each : ∀ entry ∈ entries, entry.2.isSome = audit

theorem Complete.lists (complete : group.Complete) : ∃ audit, group.Lists audit group.labelled := by
  have labelOf : ∀ entry ∈ group.labelled, ∃ place < group.length, entry.2 = group.labels[place]? := by
    intro entry member
    obtain ⟨place, found⟩ := List.mem_iff_getElem?.1 member
    rw [getElem?_labelled, Option.map_eq_some_iff] at found
    obtain ⟨feature, present, rfl⟩ := found
    exact ⟨place, (List.getElem?_eq_some_iff.1 present).1, rfl⟩
  rcases complete with none | full
  · refine ⟨false, (map_fst_labelled group).symm, none, fun entry member => ?_⟩
    obtain ⟨place, -, same⟩ := labelOf entry member
    rw [same, none]
    rfl
  · refine ⟨true, (map_fst_labelled group).symm, ?_, fun entry member => ?_⟩
    · apply List.ext_getElem?
      intro place
      rw [if_pos rfl, List.getElem?_map, getElem?_labelled, Option.map_map]
      by_cases inside : place < group.features.length
      · have present : place < group.labels.length := full ▸ inside
        rw [List.getElem?_eq_getElem inside, List.getElem?_eq_getElem present]
        rfl
      · have beyond : group.labels.length ≤ place := full ▸ Nat.le_of_not_lt inside
        rw [List.getElem?_eq_none (Nat.le_of_not_lt inside), List.getElem?_eq_none beyond]
        rfl
    · obtain ⟨place, inside, same⟩ := labelOf entry member
      rw [same, List.getElem?_eq_getElem (full ▸ inside)]
      rfl

namespace Lists

theorem complete (lists : group.Lists audit entries) : group.Complete := by
  cases audit with
  | false => exact .inl lists.labels
  | true =>
    right
    rw [lists.labels, length, lists.features, if_pos rfl, List.length_map, List.length_map]

theorem labelled_eq (lists : group.Lists audit entries) : group.labelled = entries := by
  apply List.ext_getElem?
  intro place
  rw [getElem?_labelled, lists.features, lists.labels, List.getElem?_map, Option.map_map]
  cases found : entries[place]? with
  | none => rfl
  | some entry =>
    have own := lists.each entry (List.mem_of_getElem? found)
    obtain ⟨feature, label⟩ := entry
    cases audit with
    | false =>
      obtain rfl : label = none := by simpa using own
      simp
    | true =>
      obtain ⟨label, rfl⟩ := Option.isSome_iff_exists.1 own
      simp [found, labelIn]

theorem length_labels (lists : group.Lists audit entries) :
    group.labels.length = if audit then group.length else 0 := by
  rw [lists.labels, length, lists.features]
  cases audit <;> simp

end Lists

end HashedFeatures.Group
