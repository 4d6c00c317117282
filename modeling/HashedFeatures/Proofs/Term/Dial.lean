import HashedFeatures.Proofs.Term.Counter

/-! The dial of the permutations walks from row to row.

Its digits are those of the row, counted from one. It leaves the digits that stand at the end of the items alone until
the one in front of them is raised.
-/

set_option autoImplicit false

namespace HashedFeatures.Choice

variable {α : Type} {item : Footprint} {items : List α} {k : Nat}

def dialAt (k : Nat) (row : List Nat) : Dial := ⟨row.map (· + 1), k - 1⟩

theorem mapM_dialled {row : List Nat} (within : ∀ d ∈ row, d < items.length) :
    (row.map (· + 1)).mapM (dialled items) = .ok (chosen items row) := by
  rw [List.mapM_map]
  exact mapM_itemAt within

/-- A digit that is not at the end is raised, and those behind it start anew. -/
theorem turnDial_of_ne (item : Footprint) (behind : List Nat) {front row : List Nat} {digit : Nat} (other : digit ≠ items.length)
    (row_eq : row.map (· + 1) = front ++ (digit + 1) :: List.replicate (k - (front.length + 1)) 1)
    (length : row.length = k) (within : ∀ d ∈ row, d < items.length) (word : items.length < wordSize) :
    turnDial item items k ⟨front ++ digit :: behind, front.length⟩ =
      (do item.allocate k; return .made (chosen items row) (dialAt k row)) := by
  have here : (front ++ digit :: behind)[front.length]? = some digit := by simp
  have inside : digit ∈ row := by
    have member : digit + 1 ∈ row.map (· + 1) := by simp [row_eq]
    simpa using member
  have fits : digit + 1 < wordSize := by
    have := within digit inside
    omega
  unfold turnDial
  rw [bind_of_ok (itemAt_of_getElem? here), if_neg other, bind_of_ok (raise_of_lt fits), List.take_left]
  dsimp only
  rw [← row_eq, bind_gather (mapM_dialled within), List.length_map, length]
  rfl

/-- The dial goes back over digits that are at the end. -/
theorem Yields.back {front : List Nat} {digit count back : Nat} {selections : List (List α)}
    (yields : Yields (turnDial item items k) ⟨front ++ digit :: List.replicate count items.length, front.length⟩ selections)
    (within : back ≤ count) :
    Yields (turnDial item items k) ⟨front ++ digit :: List.replicate count items.length, front.length + back⟩ selections := by
  induction back with
  | zero => exact yields
  | succ back ih =>
    have here : (front ++ digit :: List.replicate count items.length)[front.length + (back + 1)]? =
        some items.length := by
      rw [List.getElem?_append_right (by omega), Nat.add_sub_cancel_left, List.getElem?_cons_succ,
        List.getElem?_replicate_of_lt within]
    have step : turnDial item items k
        ⟨front ++ digit :: List.replicate count items.length, front.length + (back + 1)⟩ =
        .ok (.onward ⟨front ++ digit :: List.replicate count items.length, front.length + back⟩) := by
      unfold turnDial
      rw [bind_of_ok (itemAt_of_getElem? here), if_pos rfl]
      rfl
    exact .onward step (ih (Nat.le_of_succ_le within))

theorem turnDial_of_end (behind : List Nat) : turnDial item items k ⟨items.length :: behind, 0⟩ = .ok .ended := by
  unfold turnDial
  rw [bind_of_ok (itemAt_of_getElem? rfl), if_pos rfl]
  rfl

theorem turnDial_start (item : Footprint) (present : items ≠ []) (places : k ≠ 0) (word : items.length < wordSize) :
    turnDial item items k ⟨(List.replicate k 1).set (k - 1) 0, k - 1⟩ =
      (do item.allocate k; return .made (chosen items (List.replicate k 0)) (dialAt k (List.replicate k 0))) := by
  have positive : 0 < items.length := List.length_pos_iff.2 present
  obtain ⟨more, rfl⟩ := Nat.exists_eq_succ_of_ne_zero places
  have start : (List.replicate (more + 1) 1).set more 0 = List.replicate more 1 ++ 0 :: [] := by
    rw [List.replicate_succ', List.set_append_right _ _ (by simp)]
    simp
  have row_eq : (List.replicate (more + 1) 0).map (· + 1) =
      List.replicate more 1 ++ (0 + 1) :: List.replicate (more + 1 - ((List.replicate more 1).length + 1)) 1 := by
    simp [List.replicate_succ']
  have within : ∀ d ∈ List.replicate (more + 1) 0, d < items.length := by
    intro d member
    rwa [List.eq_of_mem_replicate member]
  have turned := turnDial_of_ne item [] positive.ne row_eq List.length_replicate within word
  rwa [List.length_replicate, ← start] at turned

/-- The dial lists the permutations and stops. -/
theorem yields_dial (present : items ≠ []) (places : k ≠ 0) (word : items.length < wordSize)
    (kept : item.allocate k = .ok ()) :
    Yields (turnDial item items k) ⟨(List.replicate k 1).set (k - 1) 0, k - 1⟩ (permutations k items) := by
  have positive : 0 < items.length := List.length_pos_iff.2 present
  have count : items.length - 1 + 1 = items.length := Nat.sub_one_add_one positive.ne'
  have first := turnDial_start item present places word
  obtain ⟨more, rfl⟩ := Nat.exists_eq_succ_of_ne_zero places
  have walks := walks_rows (fun _ => 0) (fun _ => Nat.zero_le _) (fun _ => rfl) (more + 1)
    (Nat.zero_le (items.length - 1))
  have yields := walks.yields (turnDial item items (more + 1))
    ⟨(List.replicate (more + 1) 1).set more 0, more⟩ (dialAt (more + 1)) (chosen items)
    (first.trans (bind_of_ok kept)) ?_ ?_
  · rwa [rows_zero, count, ← permutations_eq_chosen] at yields
  · intro row next step rest onward
    obtain ⟨front, digit, anew, length, bounded, below, rfl, rfl⟩ := step
    have digits : dialAt (more + 1) (front ++ digit :: List.replicate anew (items.length - 1)) =
        ⟨front.map (· + 1) ++ (digit + 1) :: List.replicate anew items.length, (front.map (· + 1)).length + anew⟩ := by
      simp [dialAt, count]
      omega
    rw [digits]
    refine Yields.back (.made ((turnDial_of_ne item _ (by omega) ?_ ?_ ?_ word).trans (bind_of_ok kept)) onward) le_rfl
    · have behind : more + 1 - (front.length + 1) = anew := by omega
      simp [behind]
    · simp
      omega
    · simp only [List.mem_append, List.mem_cons, List.mem_replicate]
      grind
  · have digits : dialAt (more + 1) (List.replicate (more + 1) (items.length - 1)) =
        ⟨[] ++ items.length :: List.replicate more items.length, ([] : List Nat).length + more⟩ := by
      simp [dialAt, count, List.replicate_succ]
    rw [digits]
    exact Yields.back (.ended (turnDial_of_end _)) le_rfl

end HashedFeatures.Choice
