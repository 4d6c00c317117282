import HashedFeatures.Json.Quoted
import HashedFeatures.Json.Token
import Mathlib.Data.List.Basic
import Mathlib.Data.List.Forall2
import Mathlib.Data.List.TakeWhile
import Mathlib.Tactic.SplitIfs

/-! What is written as a string, a number or a flag is scanned as one token.

Strings end with their quote. Words and numbers end where no further character of theirs follows.
-/

set_option autoImplicit false

namespace HashedFeatures.Json

inductive Piece.Denotes (c : Char) : Piece → Prop where
  | char : Denotes c (.char c)
  | escaped (control : c < ' ') : Denotes c (.escaped c.toNat)

theorem Piece.joinOnto_cons {c : Char} {piece : Piece} (denotes : piece.Denotes c) (joined : List Char)
    (rest : List Piece) : joinOnto joined (piece :: rest) = joinOnto (c :: joined) rest := by
  cases denotes with
  | char => rw [joinOnto]
  | escaped control =>
    -- Control characters lie far below the surrogates, whatever follows.
    have small : c.toNat < 32 := control
    have high : isHigh c.toNat = false := by simp [isHigh]; omega
    have low : isLow c.toNat = false := by simp [isLow]; omega
    cases rest with
    | nil => simp [joinOnto, high, low]
    | cons next rest => cases next <;> simp [joinOnto, high, low]

theorem Piece.join_of_denotes {pieces : List Piece} {text : List Char}
    (denote : List.Forall₂ (fun piece c => Piece.Denotes c piece) pieces text) : join pieces = some text := by
  suffices ∀ joined, joinOnto joined pieces = some (joined.reverse ++ text) from this []
  induction denote with
  | nil => simp [joinOnto]
  | cons first _ ih => intro joined; rw [joinOnto_cons first, ih]; simp

theorem hexUnit_hexDigit : ∀ n < 32, hexUnit '0' '0' (hexDigit (n / 16)) (hexDigit (n % 16)) = some n := by
  decide

theorem scanText_ordinary {c : Char} (quoted : c ≠ '"') (slash : c ≠ '\\') (printed : ¬c < ' ')
    (met : List Piece) (rest : List Char) : scanText met (c :: rest) = scanText (.char c :: met) rest := by
  rw [scanText]
  · rw [if_neg]
    rintro (control | same)
    · exact printed control
    · exact slash same
  · exact quoted
  · rintro _ _ _ _ _ same
    exact absurd same slash
  · rintro _ _ same
    exact absurd same slash

theorem scanText_quoteChar (c : Char) : ∃ piece, Piece.Denotes c piece ∧
    ∀ met rest, scanText met (quoteChar c ++ rest) = scanText (piece :: met) rest := by
  unfold quoteChar
  split_ifs with quoted slash backspace feed line back tab control
  -- The first seven have a letter of their own behind the backslash.
  iterate 7
    · subst c
      exact ⟨.char _, .char, fun _ _ => rfl⟩
  · refine ⟨.escaped c.toNat, .escaped control, fun met rest => ?_⟩
    have unit := hexUnit_hexDigit c.toNat control
    simp only [List.cons_append, List.nil_append, scanText, unit]
  · exact ⟨.char c, .char, scanText_ordinary quoted slash control⟩

/-- The scan of a written string ends with its closing quote, since no quote inside stands by itself. -/
theorem scanText_flatMap_quoteChar (text : List Char) : ∃ pieces, Piece.join pieces = some text ∧
    ∀ met rest, scanText met (text.flatMap quoteChar ++ '"' :: rest) = some (met.reverse ++ pieces, rest) := by
  suffices ∃ pieces, List.Forall₂ (fun piece c => Piece.Denotes c piece) pieces text ∧
      ∀ met rest, scanText met (text.flatMap quoteChar ++ '"' :: rest) = some (met.reverse ++ pieces, rest) by
    obtain ⟨pieces, denote, scanned⟩ := this
    exact ⟨pieces, Piece.join_of_denotes denote, scanned⟩
  induction text with
  | nil => exact ⟨[], .nil, fun met rest => by simp [scanText]⟩
  | cons c text ih =>
    obtain ⟨piece, first, head⟩ := scanText_quoteChar c
    obtain ⟨pieces, denote, tail⟩ := ih
    refine ⟨piece :: pieces, .cons first denote, fun met rest => ?_⟩
    rw [List.flatMap_cons, List.append_assoc, head, tail]
    simp

theorem not_isBlank {c : Char} (visible : isLowercase c = true ∨ isDigit c = true) : isBlank c = false := by
  cases blank : isBlank c with
  | false => rfl
  | true =>
    simp only [isBlank, Bool.or_eq_true, beq_iff_eq] at blank
    rcases blank with ((rfl | rfl) | rfl) | rfl <;> exact absurd visible (by decide)

theorem not_isLowercase_of_isDigit {c : Char} (digit : isDigit c = true) : isLowercase c = false := by
  simp only [isDigit, Bool.and_eq_true, decide_eq_true_eq] at digit
  have late : ¬ 'a' ≤ c := fun above => absurd (Char.le_trans above digit.2) (by decide)
  simp [isLowercase, late]

theorem isDigit_of_mem_toDigits {n : Nat} {c : Char} (member : c ∈ Nat.toDigits 10 n) : isDigit c = true := by
  have digit := Nat.isDigit_of_mem_toDigits (by decide) (by decide) member
  simp only [Char.isDigit, ge_iff_le, Bool.and_eq_true, decide_eq_true_eq] at digit
  simpa [isDigit, Char.le_def] using digit

theorem head?_toDigits_ne_zero {n : Nat} (positive : 0 < n) : (Nat.toDigits 10 n).head? ≠ some '0' := by
  induction n using Nat.strongRecOn with
  | ind n ih =>
    rcases Nat.lt_or_ge n 10 with small | large
    · rw [Nat.toDigits_of_lt_base small, List.head?_cons]
      intro same
      have value := Nat.toNat_digitChar_of_lt_ten small
      rw [Option.some.inj same] at value
      have zero : '0'.toNat = 48 := rfl
      omega
    · rw [Nat.toDigits_of_base_le (by decide) large, List.head?_append_of_ne_nil _ Nat.toDigits_ne_nil]
      exact ih (n / 10) (by omega) (by omega)

theorem digitsValue_toDigits (n : Nat) : digitsValue (Nat.toDigits 10 n) = n := by
  have value := @Nat.ofDigitChars_ten_toDigits n
  rw [Nat.ofDigitChars_eq_foldl] at value
  simpa only [digitsValue, Nat.mul_comm] using value

theorem Number.isValid_of_digits {c : Char} {rest : List Char} (digit : ∀ d ∈ c :: rest, isDigit d = true)
    (leading : c ≠ '0') : isValid (c :: rest) = true := by
  have head := digit c List.mem_cons_self
  have tail : rest.dropWhile isDigit = [] :=
    List.dropWhile_eq_nil_iff.2 fun d member => digit d (List.mem_cons_of_mem c member)
  rw [isValid]
  · rw [head, tail]
    rfl
  · exact leading
  · rintro _ same
    obtain ⟨rfl, -⟩ := List.cons.inj same
    cases head

theorem Number.isValid_toDigits (n : Nat) : isValid (Nat.toDigits 10 n) = true := by
  rcases Nat.eq_zero_or_pos n with rfl | positive
  · rfl
  · obtain ⟨c, rest, digits⟩ := List.exists_cons_of_ne_nil (@Nat.toDigits_ne_nil n 10)
    have leading := head?_toDigits_ne_zero positive
    rw [digits] at leading ⊢
    refine isValid_of_digits (fun d member => isDigit_of_mem_toDigits (n := n) (digits ▸ member)) ?_
    rintro rfl
    exact leading rfl

/-- Nothing at the front would go on with a word or a number. -/
def Bounded (text : List Char) : Prop :=
  ∀ c ∈ text.head?, isLowercase c = false ∧ isNumeric c = false

theorem Bounded.append {text rest : List Char} (head : Bounded text) (tail : Bounded rest) :
    Bounded (text ++ rest) := by
  cases text with
  | nil => exact tail
  | cons c text => exact head

theorem takeWhile_of_bounded {text rest : List Char} {p : Char → Bool} (all : ∀ c ∈ text, p c = true)
    (stops : ∀ c ∈ rest.head?, p c = false) :
    (text ++ rest).takeWhile p = text ∧ (text ++ rest).dropWhile p = rest := by
  rw [List.takeWhile_append_of_pos all, List.dropWhile_append_of_pos all]
  cases rest with
  | nil => simp
  | cons c rest => simp [stops c rfl]

namespace Token

theorem scanOnto_blank {c : Char} (blank : isBlank c = true) (met : List Token) (rest : List Char) :
    scanOnto met (c :: rest) = scanOnto met rest := by
  rw [scanOnto, if_pos blank]

theorem scanOnto_first {c : Char} {rest after : List Char} {token : Token} (solid : isBlank c = false)
    (read : first c rest = some (token, after)) (met : List Token) :
    scanOnto met (c :: rest) = scanOnto (token :: met) after := by
  rw [scanOnto, if_neg (by simp [solid])]
  split
  case h_1 found =>
    cases found.symm.trans read
    rfl
  case h_2 missing => cases missing.symm.trans read

theorem first_of_symbol {c : Char} {token : Token} (known : ofSymbol c = some token) (rest : List Char) :
    isBlank c = false ∧ first c rest = some (token, rest) := by
  unfold ofSymbol at known
  split at known
  case h_7 => cases known
  all_goals
    cases known
    exact ⟨rfl, rfl⟩

/-- A text is scanned as some tokens wherever no word or number goes on behind it. -/
def Scans (text : List Char) (tokens : List Token) : Prop :=
  ∀ met rest, Bounded rest → scanOnto met (text ++ rest) = scanOnto (tokens.reverse ++ met) rest

namespace Scans

theorem nil : Scans [] [] := fun _ _ _ => rfl

theorem append {text more : List Char} {tokens others : List Token} (first : Scans text tokens)
    (second : Scans more others) (bounded : Bounded more) : Scans (text ++ more) (tokens ++ others) := by
  intro met rest stops
  rw [List.append_assoc, first met _ (bounded.append stops), second _ rest stops, List.reverse_append,
    List.append_assoc]

theorem blank {c : Char} {text : List Char} {tokens : List Token} (blank : isBlank c = true)
    (scans : Scans text tokens) : Scans (c :: text) tokens := by
  intro met rest stops
  rw [List.cons_append, scanOnto_blank blank, scans met rest stops]

theorem symbol {c : Char} {text : List Char} {token : Token} {tokens : List Token}
    (known : ofSymbol c = some token) (scans : Scans text tokens) : Scans (c :: text) (token :: tokens) := by
  intro met rest stops
  obtain ⟨solid, read⟩ := first_of_symbol known (text ++ rest)
  rw [List.cons_append, scanOnto_first solid read, scans _ rest stops, List.reverse_cons, List.append_assoc]
  rfl

theorem quote (text : String) : Scans (quote text) [.text (some text)] := by
  intro met rest _
  obtain ⟨pieces, joined, scanned⟩ := scanText_flatMap_quoteChar text.toList
  have read : first '"' (text.toList.flatMap quoteChar ++ '"' :: rest) = some (.text (some text), rest) := by
    simp [first, scanned, ofPieces, joined]
  rw [Json.quote, List.cons_append, List.cons_append, List.append_assoc]
  exact scanOnto_first rfl read met

theorem word {c : Char} {letters : List Char} {token : Token} (lowercase : (c :: letters).all isLowercase = true)
    (known : ofWord (c :: letters) = some token) : Scans (c :: letters) [token] := by
  intro met rest stops
  obtain ⟨letter, others⟩ := List.forall_mem_cons.1 (List.all_eq_true.1 lowercase)
  obtain ⟨taken, left⟩ := takeWhile_of_bounded others fun d head => (stops d head).1
  have solid := not_isBlank (Or.inl letter)
  have read : first c (letters ++ rest) = some (token, rest) := by
    rw [first, if_neg (by rintro rfl; cases letter), if_pos letter, taken, left, known]
    rfl
  exact scanOnto_first solid read met

theorem number (n : Nat) : Scans (Nat.toDigits 10 n) [.number (Nat.toDigits 10 n)] := by
  intro met rest stops
  have digit := fun c => @isDigit_of_mem_toDigits n c
  have valid := Number.isValid_toDigits n
  obtain ⟨c, digits, written⟩ := List.exists_cons_of_ne_nil (@Nat.toDigits_ne_nil n 10)
  rw [written] at digit valid ⊢
  have numeric : ∀ d ∈ digits, isNumeric d = true := fun d member => by
    simp [isNumeric, digit d (List.mem_cons_of_mem c member)]
  obtain ⟨taken, left⟩ := takeWhile_of_bounded numeric fun d head => (stops d head).2
  have head := digit c List.mem_cons_self
  have solid := not_isBlank (Or.inr head)
  have read : first c (digits ++ rest) = some (.number (c :: digits), rest) := by
    rw [first, if_neg (by rintro rfl; cases head), if_neg (by simp [not_isLowercase_of_isDigit head]),
      if_pos (by simp [head]), taken, left, ofNumber, if_pos valid]
    rfl
  exact scanOnto_first solid read met

end Scans

end Token

end HashedFeatures.Json
