import HashedFeatures.Ngram.Generate
import Mathlib.Algebra.Ring.Nat
import Mathlib.Data.List.Basic

/-! The windows of all n-grams, from the gaps between their features.

All vectors of gaps within the skips are listed once, in lexicographic order. An n-gram that would end
behind the last feature has no window, so leaving its gaps out changes nothing.
-/

set_option autoImplicit false

namespace HashedFeatures.Ngrams

def gapVectors : (count skips : Nat) → List (List Nat)
  | 0, _ => [[]]
  | count + 1, skips => (List.range (skips + 1)).flatMap fun gap => (gapVectors count (skips - gap)).map (gap :: ·)

theorem mem_gapVectors {count skips : Nat} {gaps : List Nat} :
    gaps ∈ gapVectors count skips ↔ gaps.length = count ∧ gaps.sum ≤ skips := by
  induction count generalizing skips gaps with
  | zero => cases gaps <;> simp [gapVectors]
  | succ count ih =>
    cases gaps with
    | nil => simp [gapVectors]
    | cons gap gaps =>
      simp only [gapVectors, List.mem_flatMap, List.mem_range, List.mem_map, ih, List.cons.injEq, List.length_cons,
        List.sum_cons]
      constructor
      · rintro ⟨_, small, _, ⟨length, sum⟩, rfl, rfl⟩
        omega
      · rintro ⟨length, sum⟩
        exact ⟨gap, by omega, gaps, ⟨by omega, by omega⟩, rfl, rfl⟩

theorem gapVectors_ascending (count skips : Nat) : (gapVectors count skips).Pairwise (· < ·) := by
  induction count generalizing skips with
  | zero => exact List.pairwise_singleton _ _
  | succ count ih =>
    refine List.pairwise_flatMap.2 ⟨fun gap _ => ?_, ?_⟩
    · exact List.pairwise_map.2 ((ih (skips - gap)).imp fun less => List.cons_lt_cons_iff.2 (.inr ⟨rfl, less⟩))
    · refine List.pairwise_lt_range.imp fun less => ?_
      intro first inFirst second inSecond
      obtain ⟨_, -, rfl⟩ := List.mem_map.1 inFirst
      obtain ⟨_, -, rfl⟩ := List.mem_map.1 inSecond
      exact List.cons_lt_cons_iff.2 (.inl less)

/-- The offsets behind one at `last`, each by one and its gap further on than the offset in front of it. -/
def marks (last : Nat) : List Nat → List Nat
  | [] => []
  | gap :: gaps => (last + 1 + gap) :: marks (last + 1 + gap) gaps

theorem getLastD_marks (last : Nat) (gaps : List Nat) :
    (marks last gaps).getLastD last = last + gaps.length + gaps.sum := by
  induction gaps generalizing last with
  | nil => rfl
  | cons gap gaps ih =>
    have rest := ih (last + 1 + gap)
    rw [marks, List.getLastD_cons, rest, List.length_cons, List.sum_cons]
    omega

theorem le_getLastD_marks {last offset : Nat} {gaps : List Nat} (member : offset ∈ marks last gaps) :
    offset ≤ (marks last gaps).getLastD last := by
  induction gaps generalizing last with
  | nil => cases member
  | cons gap gaps ih =>
    rw [marks, List.getLastD_cons]
    rcases List.mem_cons.1 member with rfl | later
    · rw [getLastD_marks]
      omega
    · exact ih later

theorem flatMap_range_min {β : Type} {f : Nat → List β} {bound : Nat} (empty : ∀ i, bound ≤ i → f i = [])
    (count : Nat) :
    (List.range (min count bound)).flatMap f = (List.range count).flatMap f := by
  induction count with
  | zero => rw [Nat.zero_min]
  | succ count ih =>
    rw [List.range_succ, List.flatMap_append, ← ih]
    rcases Nat.lt_or_ge count bound with below | above
    · rw [Nat.min_eq_left below, List.range_succ, List.flatMap_append, Nat.min_eq_left (Nat.le_of_lt below)]
    · rw [Nat.min_eq_right (by omega), Nat.min_eq_right above]
      simp [empty count above]

-- Vectors that lead past the end are left out of the offsets; they count for nothing where nothing is done for them.
theorem flatMap_offsets {β : Type} {length : Nat} (count : Nat) {last skips : Nat} {f : List Nat → List β}
    (outside : ∀ offsets, length ≤ offsets.getLastD last → f offsets = []) :
    (offsets length last count skips).flatMap f = (gapVectors count skips).flatMap fun gaps => f (marks last gaps) := by
  induction count generalizing last skips f with
  | zero => rfl
  | succ count ih =>
    have behind (gap : Nat) : ((offsets length (last + 1 + gap) count (skips - gap)).map
          ((last + 1 + gap) :: ·)).flatMap f =
        ((gapVectors count (skips - gap)).map (gap :: ·)).flatMap fun gaps => f (marks last gaps) := by
      rw [List.flatMap_map, List.flatMap_map]
      exact ih fun offsets late => outside _ (by rwa [List.getLastD_cons])
    have past (gap : Nat) (late : length - (last + 1 + count) ≤ gap) :
        (((gapVectors count (skips - gap)).map (gap :: ·)).flatMap fun gaps => f (marks last gaps)) = [] := by
      refine List.flatMap_eq_nil_iff.2 fun gaps member => outside _ ?_
      obtain ⟨tail, inside, rfl⟩ := List.mem_map.1 member
      have size := (mem_gapVectors.1 inside).1
      rw [getLastD_marks, List.length_cons, List.sum_cons]
      omega
    rw [offsets, gapVectors, List.flatMap_assoc, List.flatMap_assoc, ← flatMap_range_min past]
    exact List.flatMap_congr fun gap _ => behind gap

/-- The places of an n-gram with these offsets behind its first feature, wherever it fits in. -/
def windowsAt (length : Nat) (offsets : List Nat) : List (List Nat) :=
  (List.range (length - offsets.getLastD 0)).map fun first => first :: offsets.map (first + ·)

theorem windowsAt_eq_nil {length : Nat} {offsets : List Nat} (late : length ≤ offsets.getLastD 0) :
    windowsAt length offsets = [] := by
  rw [windowsAt, Nat.sub_eq_zero_of_le late]
  rfl

/-- The places of all n-grams of two to `n` features: by their number, then their gaps, then their start. -/
def allWindows (length n skips : Nat) : List (List Nat) :=
  (List.range' 1 (n - 1)).flatMap fun more =>
    (gapVectors more skips).flatMap fun gaps => windowsAt length (marks 0 gaps)

theorem windows_eq (length n skips : Nat) : windows length n skips = allWindows length n skips := by
  have listed (more : Nat) : (offsets length 0 more skips).flatMap (windowsAt length) =
      (gapVectors more skips).flatMap fun gaps => windowsAt length (marks 0 gaps) :=
    flatMap_offsets more fun _ => windowsAt_eq_nil
  have long (i : Nat) (late : length - 1 ≤ i) :
      ((gapVectors (1 + i) skips).flatMap fun gaps => windowsAt length (marks 0 gaps)) = [] := by
    refine List.flatMap_eq_nil_iff.2 fun gaps member => windowsAt_eq_nil ?_
    have size := (mem_gapVectors.1 member).1
    rw [getLastD_marks]
    omega
  have counts : min n length - 1 = min (n - 1) (length - 1) := by omega
  rw [allWindows, List.range'_eq_map_range, List.flatMap_map, ← flatMap_range_min long, windows,
    List.range'_eq_map_range, List.flatMap_map, counts]
  exact List.flatMap_congr fun i _ => listed (1 + i)

theorem lt_of_mem_windowsAt {length : Nat} {gaps places : List Nat}
    (window : places ∈ windowsAt length (marks 0 gaps)) :
    ∀ place ∈ places, place < length := by
  obtain ⟨first, fits, rfl⟩ := List.mem_map.1 window
  have room := List.mem_range.1 fits
  intro place member
  rcases List.mem_cons.1 member with rfl | later
  · omega
  · obtain ⟨offset, inside, rfl⟩ := List.mem_map.1 later
    have before := le_getLastD_marks inside
    omega

theorem lt_of_mem_allWindows {length n skips : Nat} {places : List Nat} (window : places ∈ allWindows length n skips) :
    ∀ place ∈ places, place < length := by
  obtain ⟨_, -, window⟩ := List.mem_flatMap.1 window
  obtain ⟨_, -, window⟩ := List.mem_flatMap.1 window
  exact lt_of_mem_windowsAt window

end HashedFeatures.Ngrams
