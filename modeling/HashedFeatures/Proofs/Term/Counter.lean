import HashedFeatures.Proofs.Term.Digits
import HashedFeatures.Proofs.Term.Room
import HashedFeatures.Term.Counter

/-! The counter of the combinations walks from row to row.

A counter that adds the items of a row and goes on to the next one adds those of all rows. In the counter of the
combinations the digits stand in the reverse order of the row. Its carry runs through the digits that were the largest,
so that all digits up to the one that it raises are equal.
-/

set_option autoImplicit false

namespace HashedFeatures.Choice

variable {α β σ : Type}

theorem bind_of_ok {outcome : Except Fault α} {next : α → Except Fault β} {a : α} (done : outcome = .ok a) :
    outcome >>= next = next a := by
  rw [done]
  rfl

theorem itemAt_of_getElem? {items : List α} {place : Nat} {item : α} (found : items[place]? = some item) :
    itemAt items place = .ok item := by
  rw [itemAt, found]

theorem raise_of_lt {digit : Nat} (fits : digit + 1 < wordSize) : raise digit = .ok (digit + 1) := if_pos fits

theorem mapM_itemAt {items : List α} {row : List Nat} (within : ∀ d ∈ row, d < items.length) :
    row.mapM (itemAt items) = .ok (chosen items row) := by
  induction row with
  | nil => rfl
  | cons digit row ih =>
    obtain ⟨inside, others⟩ := List.forall_mem_cons.1 within
    rw [List.mapM_cons, bind_of_ok (itemAt_of_getElem? (List.getElem?_eq_getElem inside)), bind_of_ok (ih others),
      chosen_cons inside]
    rfl

theorem bind_gather {item : Footprint} {read : Nat → Except Fault α} {digits : List Nat} {selection : List α}
    (found : digits.mapM read = .ok selection) (next : List α → Except Fault β) :
    gather item read digits >>= next = (do item.allocate digits.length; next selection) := by
  rw [gather, found]
  cases item.allocate digits.length <;> rfl

/-! ## Turning to the end -/

/-- Turned to its end, a counter adds these selections. -/
inductive Yields (turn : σ → Except Fault (Turned α σ)) : σ → List (List α) → Prop
  | ended {state : σ} : turn state = .ok .ended → Yields turn state []
  | onward {state next : σ} {rest : List (List α)} : turn state = .ok (.onward next) →
      Yields turn next rest → Yields turn state rest
  | made {state next : σ} {selection : List α} {rest : List (List α)} : turn state = .ok (.made selection next) →
      Yields turn next rest → Yields turn state (selection :: rest)

/-- A counter ends, with its selections or where one finds no room. -/
theorem Yields.turnAll_eq {turn : σ → Except Fault (Turned α σ)} {state : σ} {selections : List (List α)}
    (yields : Yields turn state selections) (shelf : Shelf α) :
    (Progress.mk state shelf).turnAll turn = some ((selections.foldlM Shelf.push shelf).map Shelf.made) := by
  induction yields generalizing shelf with
  | ended last =>
    rw [Progress.turnAll, last]
    rfl
  | onward step _ ih =>
    rw [Progress.turnAll, step]
    exact ih shelf
  | made step _ ih =>
    rw [Progress.turnAll, step, List.foldlM_cons]
    dsimp only
    cases shelf.push _ with
    | error fault => rfl
    | ok larger => exact ih larger

/-- If every row is left for the next one, the items of all rows are added. -/
theorem Walks.yields {largest k : Nat} {restart : Nat → Nat} {first last : List Nat} {listed : List (List Nat)}
    (walks : Walks largest restart k first last listed) (turn : σ → Except Fault (Turned α σ)) (start : σ)
    (behind : List Nat → σ) (items : List Nat → List α)
    (begin : turn start = .ok (.made (items first) (behind first)))
    (step : ∀ {row next}, Next largest restart k row next → ∀ {rest}, Yields turn (behind next) rest →
      Yields turn (behind row) (items next :: rest))
    (stop : Yields turn (behind last) []) : Yields turn start (listed.map items) := by
  have onward : ∀ {row rest}, (row :: rest).IsChain (Next largest restart k) → (row :: rest).getLast? = some last →
      Yields turn (behind row) (rest.map items) := by
    intro row rest chain ends
    induction rest generalizing row with
    | nil =>
      obtain rfl : row = last := by simpa using ends
      exact stop
    | cons next rest ih =>
      obtain ⟨here, others⟩ := List.isChain_cons_cons.1 chain
      rw [List.getLast?_cons_cons] at ends
      exact step here (ih others ends)
  obtain ⟨rest, rfl⟩ := List.head?_eq_some_iff.1 walks.head
  exact .made begin (onward walks.chain walks.last)

/-! ## The carry -/

theorem carryAt_of_le {largest place digit : Nat} {digits : List Nat} (found : digits[place]? = some digit)
    (within : digit ≤ largest) : carryAt largest digits place = .ok digits := by
  unfold carryAt
  rw [bind_of_ok (itemAt_of_getElem? found), if_neg (by omega)]
  rfl

theorem carryAt_replicate (place : Nat) {largest carried digit : Nat} (above : largest < carried) (fits : digit + 1 < wordSize)
    (rest : List Nat) :
    carryAt largest (List.replicate (place + 1) carried ++ digit :: rest) place =
      .ok (List.replicate (place + 2) (digit + 1) ++ rest) := by
  have here : (List.replicate (place + 1) carried ++ digit :: rest)[place]? = some carried := by
    rw [List.getElem?_append_left (by simp)]
    simp
  have next : (List.replicate (place + 1) carried ++ digit :: rest)[place + 1]? = some digit := by
    rw [List.getElem?_append_right (by simp)]
    simp
  have left : (List.replicate (place + 1) carried ++ digit :: rest).drop (place + 2) = rest := by
    rw [List.append_cons, List.drop_left' (by simp)]
  unfold carryAt
  rw [bind_of_ok (itemAt_of_getElem? here), if_pos above, bind_of_ok (itemAt_of_getElem? next),
    bind_of_ok (raise_of_lt fits), left]
  rfl

/-- A carry goes through the digits that are the largest and raises the one behind them. -/
theorem carry_through {largest digit : Nat} (word : largest + 1 < wordSize) (within : digit ≤ largest) (place count : Nat)
    (rest : List Nat) :
    (List.range' place (count + 1)).foldlM (carryAt largest)
      (List.replicate (place + 1) (largest + 1) ++ (List.replicate count largest ++ digit :: rest)) =
      .ok (List.replicate (place + count + 2) (digit + 1) ++ rest) := by
  induction count generalizing place with
  | zero =>
    rw [List.range'_one, List.foldlM_cons, List.replicate_zero, List.nil_append,
      bind_of_ok (carryAt_replicate place (Nat.lt_succ_self largest) (by omega) rest)]
    rfl
  | succ count ih =>
    have carried := carryAt_replicate place (Nat.lt_succ_self largest) word
      (List.replicate count largest ++ digit :: rest)
    have places : place + (count + 1) + 2 = place + 1 + count + 2 := by omega
    rw [List.range'_succ, List.foldlM_cons, places, ← ih (place + 1)]
    exact bind_of_ok carried

theorem carry_settled {largest : Nat} {digits places : List Nat}
    (within : ∀ place ∈ places, ∃ digit, digits[place]? = some digit ∧ digit ≤ largest) :
    places.foldlM (carryAt largest) digits = .ok digits := by
  induction places with
  | nil => rfl
  | cons place places ih =>
    obtain ⟨⟨digit, found, small⟩, others⟩ := List.forall_mem_cons.1 within
    rw [List.foldlM_cons, bind_of_ok (carryAt_of_le found small)]
    exact ih others

/-! ## The counter -/

def raiseLowest : List Nat → List Nat
  | [] => []
  | digit :: digits => (digit + 1) :: digits

def counterAt (row : List Nat) : List Nat := row.reverse ++ [0]

theorem carry_raised {largest digit : Nat} (word : largest + 1 < wordSize) (within : digit ≤ largest) (count : Nat)
    (rest : List Nat) :
    (List.range count).foldlM (carryAt largest) (raiseLowest (List.replicate count largest ++ digit :: rest)) =
      .ok (List.replicate (count + 1) (digit + 1) ++ rest) := by
  rw [List.range_eq_range']
  cases count with
  | zero => rfl
  | succ count =>
    have carried := carry_through word within 0 count rest
    rw [Nat.zero_add count] at carried
    exact carried

theorem reverse_append_replicate (front : List Nat) (digit count : Nat) :
    counterAt (front ++ List.replicate count digit) = List.replicate count digit ++ counterAt front := by
  simp [counterAt]

theorem counterAt_concat (front : List Nat) (digit : Nat) : counterAt (front ++ [digit]) = digit :: counterAt front := by
  simp [counterAt]

theorem length_counterAt (row : List Nat) : (counterAt row).length = row.length + 1 := by
  simp [counterAt]

theorem carry_next {largest k : Nat} (word : largest + 1 < wordSize) {row next : List Nat}
    (step : Next largest id k row next) :
    (List.range k).foldlM (carryAt largest) (raiseLowest (counterAt row)) = .ok (counterAt next) := by
  obtain ⟨front, digit, count, rfl, bounded, below, rfl, rfl⟩ := step
  have left : counterAt (front ++ digit :: List.replicate count largest) =
      List.replicate count largest ++ digit :: counterAt front := by
    rw [List.append_cons, reverse_append_replicate, counterAt_concat]
  have reached : counterAt (front ++ (digit + 1) :: List.replicate count (id (digit + 1))) =
      List.replicate (count + 1) (digit + 1) ++ counterAt front := by
    rw [id_eq, ← List.replicate_succ, reverse_append_replicate]
  have small : ∀ d ∈ List.replicate (count + 1) (digit + 1) ++ counterAt front, d ≤ largest := by
    simp only [counterAt, List.mem_append, List.mem_replicate, List.mem_reverse, List.mem_singleton]
    grind
  have places : List.range (front.length + 1 + count) = List.range count ++ List.range' count (front.length + 1) := by
    rw [List.range_eq_range', List.range_eq_range', Nat.add_comm, ← List.range'_append_1, Nat.zero_add]
  rw [left, reached, places, List.foldlM_append, bind_of_ok (carry_raised word below.le count _)]
  apply carry_settled
  intro place member
  have inside : place < (List.replicate (count + 1) (digit + 1) ++ counterAt front).length := by
    have := (List.mem_range'_1.1 member).2
    simp only [List.length_append, List.length_replicate, length_counterAt]
    omega
  exact ⟨_, List.getElem?_eq_getElem inside, small _ (List.getElem_mem inside)⟩

theorem carry_last {largest : Nat} (word : largest + 1 < wordSize) (k : Nat) :
    (List.range k).foldlM (carryAt largest) (raiseLowest (counterAt (List.replicate k largest))) =
      .ok (List.replicate (k + 1) 1) := by
  have row : counterAt (List.replicate k largest) = List.replicate k largest ++ 0 :: [] := by simp [counterAt]
  rw [row, carry_raised word (Nat.zero_le _) k [], List.append_nil]

theorem carry_first (largest k : Nat) :
    (List.range k).foldlM (carryAt largest) (List.replicate (k + 1) 0) =
      .ok (counterAt (List.replicate k 0)) := by
  have row : counterAt (List.replicate k 0) = List.replicate (k + 1) 0 := by
    simp [counterAt, ← List.replicate_succ']
  rw [row]
  apply carry_settled
  intro place member
  have inside : place < k + 1 := Nat.lt_succ_of_lt (List.mem_range.1 member)
  exact ⟨0, by simp [inside], Nat.zero_le _⟩

variable {item : Footprint} {items : List α} {k : Nat} {digits row : List Nat}

theorem turnCounter_of_carry
    (carried : (List.range k).foldlM (carryAt (items.length - 1)) digits = .ok (counterAt row)) (length : row.length = k)
    (places : k ≠ 0) (within : ∀ d ∈ row, d < items.length) (word : items.length < wordSize) :
    turnCounter item items k digits =
      (do item.allocate k; return .made (chosen items row).reverse (raiseLowest (counterAt row))) := by
  have top : (counterAt row)[k]? = some 0 := by
    rw [counterAt, List.getElem?_append_right (by simp [length])]
    simp [length]
  have shown : (counterAt row).take k = row.reverse := List.take_left' (by simp [length])
  have bounded : ∀ d ∈ row.reverse, d < items.length := by simpa using within
  unfold turnCounter
  rw [bind_of_ok carried, bind_of_ok (itemAt_of_getElem? top), if_neg (Nat.lt_irrefl 0), shown,
    bind_gather (mapM_itemAt bounded), chosen_reverse, List.length_reverse, length]
  refine bind_congr fun _ => ?_
  cases reversed : row.reverse with
  | nil => exact absurd (by rw [← length, ← List.length_reverse, reversed]; rfl) places
  | cons lowest others =>
    rw [reversed] at bounded
    have fits : lowest + 1 < wordSize := by
      have := bounded lowest List.mem_cons_self
      omega
    have first : (counterAt row)[0]? = some lowest := by rw [counterAt, reversed]; rfl
    rw [bind_of_ok (itemAt_of_getElem? first), bind_of_ok (raise_of_lt fits), counterAt, reversed]
    rfl

theorem turnCounter_of_over
    (carried : (List.range k).foldlM (carryAt (items.length - 1)) digits = .ok (List.replicate (k + 1) 1)) :
    turnCounter item items k digits = .ok .ended := by
  have top : (List.replicate (k + 1) 1)[k]? = some 1 := by simp
  unfold turnCounter
  rw [bind_of_ok carried, bind_of_ok (itemAt_of_getElem? top), if_pos Nat.one_pos]
  rfl

theorem turnCounter_start (present : items ≠ []) (places : k ≠ 0) (word : items.length < wordSize) :
    turnCounter item items k (List.replicate (k + 1) 0) =
      (do
        item.allocate k
        return .made (chosen items (List.replicate k 0)).reverse (raiseLowest (counterAt (List.replicate k 0)))) := by
  refine turnCounter_of_carry (carry_first _ k) List.length_replicate places ?_ word
  intro d member
  rw [List.eq_of_mem_replicate member]
  exact List.length_pos_iff.2 present

/-- The counter lists the combinations and stops. -/
theorem yields_counter (present : items ≠ []) (places : k ≠ 0) (word : items.length < wordSize)
    (kept : item.allocate k = .ok ()) :
    Yields (turnCounter item items k) (List.replicate (k + 1) 0) (combinations k items) := by
  have count : items.length - 1 + 1 = items.length := Nat.sub_one_add_one (by simpa using present)
  have fits : items.length - 1 + 1 < wordSize := by rwa [count]
  have first : firstRow id k 0 = List.replicate k 0 := by cases k <;> rfl
  have walks := walks_rows id (fun _ => le_rfl) (fun _ => rfl) k (Nat.zero_le (items.length - 1))
  rw [first] at walks
  have yields := walks.yields (turnCounter item items k) (List.replicate (k + 1) 0)
    (fun row => raiseLowest (counterAt row)) (fun row => (chosen items row).reverse) ?_ ?_ ?_
  · rw [rows_id, Nat.sub_zero, count, ← List.range_eq_range'] at yields
    rwa [combinations, ascending_eq_chosen k items, List.map_map]
  · rw [turnCounter_start present places word, bind_of_ok kept]
    rfl
  · intro row next step rest onward
    refine .made ((turnCounter_of_carry (carry_next fits step) ?_ places ?_ word).trans (bind_of_ok kept)) onward
    · obtain ⟨front, digit, count, rfl, -, -, -, rfl⟩ := step
      simp
      omega
    · obtain ⟨front, digit, count, -, bounded, below, -, rfl⟩ := step
      simp only [List.mem_append, List.mem_cons, List.mem_replicate, id_eq]
      grind
  · exact .ended (turnCounter_of_over (carry_last fits k))

end HashedFeatures.Choice
