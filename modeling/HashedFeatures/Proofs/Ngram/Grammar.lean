import HashedFeatures.Ngram.Definition
import HashedFeatures.Proofs.Hash.Numeric

/-! Which texts define n-grams and skips, and which definition of a namespace holds.

The grammar is one of characters, and the texts are read by their bytes: a namespace is one byte, so a character of
several bytes is none, and what stands behind it is never read.
-/

set_option autoImplicit false

namespace HashedFeatures

/-! ## Bytes of characters -/

namespace Hash

theorem bytes_eq_flatMap (text : String) : bytes text = text.toList.flatMap String.utf8EncodeChar := by
  rw [← String.ofList_toList (s := text), bytes, String.toUTF8_eq_toByteArray, String.toByteArray_ofList,
    List.utf8Encode, String.toList_ofList]
  simp

/-- An ASCII character is one byte. Any other one starts with a byte of the upper half and goes on. -/
theorem utf8EncodeChar_cases (c : Char) :
    (c.toNat < 128 ∧ ∃ b : UInt8, b.toNat = c.toNat ∧ String.utf8EncodeChar c = [b]) ∨
      128 ≤ c.toNat ∧ ∃ (b : UInt8) (rest : List UInt8), 128 ≤ b.toNat ∧ rest ≠ [] ∧
        String.utf8EncodeChar c = b :: rest := by
  have same : c.val.toNat = c.toNat := rfl
  unfold String.utf8EncodeChar
  simp only [same]
  split
  · refine .inl ⟨by omega, _, ?_, rfl⟩
    rw [UInt8.toNat_ofNat', Nat.mod_eq_of_lt (by omega)]
  · refine .inr ⟨by omega, ?_⟩
    split
    · refine ⟨_, _, ?_, List.cons_ne_nil _ _, rfl⟩
      rw [UInt8.toNat_ofNat']
      omega
    · split
      · refine ⟨_, _, ?_, List.cons_ne_nil _ _, rfl⟩
        rw [UInt8.toNat_ofNat']
        omega
      · refine ⟨_, _, ?_, List.cons_ne_nil _ _, rfl⟩
        rw [UInt8.toNat_ofNat']
        omega

theorem isDigit_iff_toNat {b : UInt8} : isDigit b = true ↔ 48 ≤ b.toNat ∧ b.toNat ≤ 57 := by
  simp [isDigit, UInt8.le_iff_toNat_le]

theorem char_isDigit_iff_toNat {c : Char} : c.isDigit = true ↔ 48 ≤ c.toNat ∧ c.toNat ≤ 57 := by
  simp [Char.isDigit, UInt32.le_iff_toNat_le]

theorem forall_isDigit_utf8EncodeChar (c : Char) :
    (∀ b ∈ String.utf8EncodeChar c, isDigit b = true) ↔ c.isDigit = true := by
  rw [char_isDigit_iff_toNat]
  rcases utf8EncodeChar_cases c with ⟨-, b, same, encoded⟩ | ⟨wide, b, rest, upper, -, encoded⟩
  · rw [encoded, List.forall_mem_singleton, isDigit_iff_toNat, same]
  · rw [encoded, List.forall_mem_cons, isDigit_iff_toNat]
    omega

theorem forall_isDigit_flatMap (chars : List Char) :
    (∀ b ∈ chars.flatMap String.utf8EncodeChar, isDigit b = true) ↔ ∀ c ∈ chars, c.isDigit = true := by
  rw [List.forall_mem_flatMap]
  exact forall₂_congr fun c _ => forall_isDigit_utf8EncodeChar c

theorem number_flatMap {chars : List Char} (digits : ∀ c ∈ chars, c.isDigit = true) :
    number (chars.flatMap String.utf8EncodeChar) = Nat.ofDigitChars 10 chars 0 := by
  rw [number_eq_foldl, Nat.ofDigitChars_eq_foldl, List.foldl_flatMap]
  refine List.foldl_ext _ _ 0 fun sofar c member => ?_
  have bounds := char_isDigit_iff_toNat.1 (digits c member)
  rcases utf8EncodeChar_cases c with ⟨-, b, same, encoded⟩ | ⟨wide, -⟩
  · rw [encoded, List.foldl_cons, List.foldl_nil, same]
    rfl
  · omega

end Hash

/-! ## The grammar of a definition -/

namespace GramDefinition

open Hash

structure Numeral (digits : List Char) (count : Nat) : Prop where
  ne_nil : digits ≠ []
  isDigit : ∀ c ∈ digits, c.isDigit = true
  value : Nat.ofDigitChars 10 digits 0 = count
  count_lt : count < 2 ^ 32

/-- What characters define: a bare number, or a number behind an ASCII character that is no digit. -/
inductive Means : List Char → GramDefinition → Prop
  | bare {digits : List Char} {count : Nat} (numeral : Numeral digits count) : Means digits ⟨none, count⟩
  | named {ns : Char} {behind digits : List Char} {count : Nat} (ascii : ns.toNat < 128) (other : ns.isDigit = false)
      (signed : behind = digits ∨ behind = '+' :: digits) (numeral : Numeral digits count) :
      Means (ns :: behind) ⟨some (UInt8.ofNat ns.toNat), count⟩

def WellFormed (text : String) : Prop := ∃ definition, Means text.toList definition

/-- What is said of an ill-formed text: that it is empty, that one byte has no number, or that it cannot be read. -/
def complaint (kind : GramKind) (text : String) : Fault :=
  match bytes text with
  | [] => .emptyDefinition kind
  | [_] => .bareDefinition kind text
  | _ :: _ :: _ => .unreadableDefinition kind text

theorem complaint_kind (kind : GramKind) (text : String) : (complaint kind text).kind = .invalidConfig := by
  unfold complaint
  split <;> rfl

/-! ## Numbers -/

def unsigned : List UInt8 → List UInt8
  | 0x2B :: rest => rest
  | digits => digits

theorem readCount_eq_some {digits : List UInt8} {count : Nat} :
    readCount digits = some count ↔ unsigned digits ≠ [] ∧ (∀ b ∈ unsigned digits, Hash.isDigit b = true) ∧
      number (unsigned digits) = count ∧ count < 2 ^ 32 := by
  have folded : (unsigned digits).foldl (fun n b => n * 10 + (b.toNat - 0x30)) 0 = number (unsigned digits) := by
    rw [number_eq_foldl]
    simp only [Nat.mul_comm]
  have opened : readCount digits =
      if (unsigned digits).isEmpty || !(unsigned digits).all Hash.isDigit then none
      else if number (unsigned digits) < 2 ^ 32 then some (number (unsigned digits)) else none := by
    rw [← folded]
    rfl
  have ill : ((unsigned digits).isEmpty || !(unsigned digits).all Hash.isDigit) = true ↔
      ¬(unsigned digits ≠ [] ∧ ∀ b ∈ unsigned digits, Hash.isDigit b = true) := by
    rw [Bool.or_eq_true, List.isEmpty_iff, Bool.not_eq_true', ← Bool.not_eq_true, List.all_eq_true,
      Decidable.not_and_iff_not_or_not, Decidable.not_not]
  rw [opened, if_congr ill rfl rfl]
  by_cases well : unsigned digits ≠ [] ∧ ∀ b ∈ unsigned digits, Hash.isDigit b = true
  · rw [if_neg (not_not_intro well), Option.ite_none_right_eq_some, Option.some.injEq]
    constructor
    · rintro ⟨small, rfl⟩
      exact ⟨well.1, well.2, rfl, small⟩
    · rintro ⟨-, -, rfl, small⟩
      exact ⟨small, rfl⟩
  · rw [if_pos well]
    exact ⟨nofun, fun read => absurd ⟨read.1, read.2.1⟩ well⟩

theorem numeral_iff {digits : List Char} {count : Nat} :
    Numeral digits count ↔ digits.flatMap String.utf8EncodeChar ≠ [] ∧
      (∀ b ∈ digits.flatMap String.utf8EncodeChar, Hash.isDigit b = true) ∧
      number (digits.flatMap String.utf8EncodeChar) = count ∧ count < 2 ^ 32 := by
  have filled : digits.flatMap String.utf8EncodeChar ≠ [] ↔ digits ≠ [] := by
    cases digits <;> simp [String.utf8EncodeChar_ne_nil]
  rw [filled, forall_isDigit_flatMap]
  constructor
  · rintro ⟨ne_nil, all, rfl, small⟩
    exact ⟨ne_nil, all, number_flatMap all, small⟩
  · rintro ⟨ne_nil, all, rfl, small⟩
    exact ⟨ne_nil, all, (number_flatMap all).symm, small⟩

theorem unsigned_cons_of_ne {b : UInt8} (other : b ≠ 0x2B) (rest : List UInt8) : unsigned (b :: rest) = b :: rest := by
  unfold unsigned
  split
  · rename_i head
    exact absurd (List.cons.inj head).1 other
  · rfl

-- No other character starts with the byte of the plus sign.
theorem unsigned_flatMap {chars : List Char} (plain : ∀ rest, chars ≠ '+' :: rest) :
    unsigned (chars.flatMap String.utf8EncodeChar) = chars.flatMap String.utf8EncodeChar := by
  cases chars with
  | nil => rfl
  | cons c rest =>
    rw [List.flatMap_cons]
    rcases utf8EncodeChar_cases c with ⟨-, b, same, encoded⟩ | ⟨-, b, more, upper, -, encoded⟩
    · rw [encoded]
      refine unsigned_cons_of_ne (fun plus => plain rest (congrArg (· :: rest) ?_)) _
      rw [plus] at same
      exact Char.toNat_inj.1 same.symm
    · rw [encoded]
      refine unsigned_cons_of_ne (fun plus => ?_) _
      rw [plus] at upper
      exact absurd upper (by decide)

theorem readCount_flatMap {chars : List Char} {count : Nat} :
    readCount (chars.flatMap String.utf8EncodeChar) = some count ↔
      ∃ digits, (chars = digits ∨ chars = '+' :: digits) ∧ Numeral digits count := by
  have noPlus {rest : List Char} : ¬Numeral ('+' :: rest) count :=
    fun numeral => absurd (numeral.isDigit _ List.mem_cons_self) (by decide)
  rw [readCount_eq_some]
  by_cases plus : ∃ rest, chars = '+' :: rest
  · obtain ⟨rest, rfl⟩ := plus
    have stripped : unsigned (('+' :: rest).flatMap String.utf8EncodeChar) = rest.flatMap String.utf8EncodeChar := rfl
    rw [stripped, ← numeral_iff]
    constructor
    · exact fun numeral => ⟨rest, .inr rfl, numeral⟩
    · rintro ⟨digits, rfl | same, numeral⟩
      · exact absurd numeral noPlus
      · exact (List.cons.inj same).2 ▸ numeral
  · rw [unsigned_flatMap fun rest same => plus ⟨rest, same⟩, ← numeral_iff]
    constructor
    · exact fun numeral => ⟨chars, .inl rfl, numeral⟩
    · rintro ⟨digits, rfl | rfl, numeral⟩
      · exact numeral
      · exact absurd ⟨digits, rfl⟩ plus

/-! ## Reading one text -/

theorem not_means_nil {definition : GramDefinition} : ¬Means [] definition := by
  rintro ⟨numeral⟩
  exact numeral.ne_nil rfl

theorem means_cons_iff {c : Char} {rest : List Char} {definition : GramDefinition} :
    Means (c :: rest) definition ↔
      (c.isDigit = true ∧ ∃ count, readCount ((c :: rest).flatMap String.utf8EncodeChar) = some count ∧
        ⟨none, count⟩ = definition) ∨
      c.isDigit = false ∧ c.toNat < 128 ∧ ∃ count, readCount (rest.flatMap String.utf8EncodeChar) = some count ∧
        ⟨some (UInt8.ofNat c.toNat), count⟩ = definition := by
  simp only [readCount_flatMap]
  constructor
  · rintro (numeral | ⟨ascii, other, signed, numeral⟩)
    · exact .inl ⟨numeral.isDigit c List.mem_cons_self, _, ⟨_, .inl rfl, numeral⟩, rfl⟩
    · exact .inr ⟨other, ascii, _, ⟨_, signed, numeral⟩, rfl⟩
  · rintro (⟨digit, count, ⟨digits, same, numeral⟩, rfl⟩ | ⟨other, ascii, count, ⟨digits, signed, numeral⟩, rfl⟩)
    · rcases same with rfl | same
      · exact .bare numeral
      · rw [(List.cons.inj same).1] at digit
        exact absurd digit (by decide)
    · exact .named ascii other signed numeral

theorem readCount_nil : readCount [] = none := rfl

def defines (kind : GramKind) (text : String) (target : Option UInt8) (count? : Option Nat) :
    Except Fault GramDefinition :=
  count?.elim (.error (.unreadableDefinition kind text)) fun count => .ok ⟨target, count⟩

theorem defines_eq_ok_iff {kind : GramKind} {text : String} {target : Option UInt8} {count? : Option Nat}
    {definition : GramDefinition} :
    defines kind text target count? = .ok definition ↔ ∃ count, count? = some count ∧ ⟨target, count⟩ = definition := by
  cases count? <;> simp [defines]

theorem defines_eq_error {kind : GramKind} {text : String} {target : Option UInt8} {count? : Option Nat}
    {fault : Fault} (failed : defines kind text target count? = .error fault) :
    count? = none ∧ .unreadableDefinition kind text = fault := by
  cases count? with
  | none => exact ⟨rfl, Except.error.inj failed⟩
  | some count => cases failed

theorem read_cons {kind : GramKind} {text : String} {first : UInt8} {rest : List UInt8}
    (filled : bytes text = first :: rest) :
    read kind text =
      if Hash.isDigit first then defines kind text none (readCount (first :: rest))
      else if rest.isEmpty then .error (.bareDefinition kind text)
      else defines kind text (some first) (readCount (behindNamespace first rest)) := by
  rw [read, filled]
  simp only
  cases readCount (first :: rest) <;> cases readCount (behindNamespace first rest) <;> rfl

theorem read_cons_iff {kind : GramKind} {text : String} {first : UInt8} {rest : List UInt8}
    (filled : bytes text = first :: rest) {definition : GramDefinition} :
    read kind text = .ok definition ↔
      (Hash.isDigit first = true ∧ ∃ count, readCount (first :: rest) = some count ∧ ⟨none, count⟩ = definition) ∨
      Hash.isDigit first = false ∧ ∃ count, readCount (behindNamespace first rest) = some count ∧
        ⟨some first, count⟩ = definition := by
  rw [read_cons filled]
  by_cases digit : Hash.isDigit first = true
  · rw [if_pos digit, defines_eq_ok_iff]
    simp only [digit, true_and, Bool.true_eq_false, false_and, or_false]
  · rw [if_neg digit]
    simp only [Bool.eq_false_of_not_eq_true digit, Bool.false_eq_true, false_and, false_or, true_and]
    cases rest with
    | nil =>
      have nothing : behindNamespace first [] = [] := ite_self _
      rw [nothing, readCount_nil]
      exact ⟨nofun, nofun⟩
    | cons second rest => exact defines_eq_ok_iff

theorem read_eq_ok_iff {kind : GramKind} {text : String} {definition : GramDefinition} :
    read kind text = .ok definition ↔ Means text.toList definition := by
  have spelled := bytes_eq_flatMap text
  cases chars : text.toList with
  | nil =>
    rw [chars, List.flatMap_nil] at spelled
    rw [read, spelled]
    exact ⟨nofun, fun means => absurd means not_means_nil⟩
  | cons c rest =>
    rw [chars, List.flatMap_cons] at spelled
    rw [means_cons_iff, List.flatMap_cons]
    rcases utf8EncodeChar_cases c with ⟨ascii, b, same, encoded⟩ | ⟨wide, b, more, upper, -, encoded⟩
    · rw [encoded, List.singleton_append] at spelled
      have digit : Hash.isDigit b = c.isDigit := by
        rw [Bool.eq_iff_iff, isDigit_iff_toNat, char_isDigit_iff_toNat, same]
      have byte : UInt8.ofNat c.toNat = b := by rw [← same, UInt8.ofNat_toNat]
      have behind (rest : List UInt8) : behindNamespace b rest = rest :=
        if_pos (UInt8.lt_iff_toNat_lt.2 (same ▸ ascii))
      simp only [read_cons_iff spelled, encoded, List.singleton_append, digit, byte, behind, ascii, true_and]
    · rw [encoded, List.cons_append] at spelled
      have digit : Hash.isDigit b = false := by
        rw [← Bool.not_eq_true, isDigit_iff_toNat]
        omega
      have other : c.isDigit = false := by
        rw [← Bool.not_eq_true, char_isDigit_iff_toNat]
        omega
      have behind (rest : List UInt8) : behindNamespace b rest = [] :=
        if_neg fun lower => Nat.not_lt.2 upper (UInt8.lt_iff_toNat_lt.1 lower)
      simp only [read_cons_iff spelled, digit, other, behind, readCount_nil, Nat.not_lt.2 wide, Bool.false_eq_true,
        reduceCtorEq, false_and, and_false, exists_false, or_false]

theorem isSome_readCount_digit {b : UInt8} (digit : Hash.isDigit b = true) : (readCount [b]).isSome := by
  have bounds := isDigit_iff_toNat.1 digit
  have whole : unsigned [b] = [b] := unsigned_cons_of_ne (fun plus => by rw [plus] at bounds; revert bounds; decide) []
  have value : number [b] = b.toNat - 48 := by rw [number_eq_foldl, List.foldl_cons, List.foldl_nil, Nat.zero_add]
  refine Option.isSome_iff_exists.2 ⟨_, readCount_eq_some.2 ⟨?_, ?_, rfl, ?_⟩⟩
  · rw [whole]
    exact List.cons_ne_nil _ _
  · rw [whole]
    exact List.forall_mem_singleton.2 digit
  · rw [whole, value]
    omega

theorem read_of_not_wellFormed (kind : GramKind) {text : String} (ill : ¬WellFormed text) :
    read kind text = .error (complaint kind text) := by
  have spelled := bytes_eq_flatMap text
  cases outcome : read kind text with
  | ok definition => exact absurd ⟨definition, read_eq_ok_iff.1 outcome⟩ ill
  | error fault =>
    apply congrArg
    unfold complaint
    cases filled : bytes text with
    | nil =>
      rw [read, filled] at outcome
      exact (Except.error.inj outcome).symm
    | cons first rest =>
      rw [read_cons filled] at outcome
      by_cases digit : Hash.isDigit first = true
      · rw [if_pos digit] at outcome
        obtain ⟨unread, said⟩ := defines_eq_error outcome
        cases rest with
        | nil => exact absurd (isSome_readCount_digit digit) (by rw [unread]; decide)
        | cons => exact said.symm
      · rw [if_neg digit] at outcome
        cases rest with
        | nil => exact (Except.error.inj outcome).symm
        | cons => exact (defines_eq_error outcome).2.symm

theorem Means.unique {text : String} {definition other : GramDefinition} (means : Means text.toList definition)
    (means' : Means text.toList other) : definition = other := by
  have done : read .grams text = .ok definition := read_eq_ok_iff.2 means
  exact Except.ok.inj (done.symm.trans (read_eq_ok_iff.2 means'))

/-! ## Reading all texts -/

def AllMean (texts : List String) (definitions : List GramDefinition) : Prop :=
  List.Forall₂ (fun text definition => Means text.toList definition) texts definitions

theorem AllMean.wellFormed {texts : List String} {definitions : List GramDefinition}
    (all : AllMean texts definitions) : ∀ text ∈ texts, WellFormed text := by
  induction all with
  | nil => exact nofun
  | cons means _ ih => exact List.forall_mem_cons.2 ⟨⟨_, means⟩, ih⟩

/-- Either all texts are read, or those in front of the first ill-formed one. -/
theorem readAll_cases (kind : GramKind) (texts : List String) :
    (∃ definitions, AllMean texts definitions ∧ readAll kind texts = (definitions, none)) ∨
    ∃ before text behind definitions, texts = before ++ text :: behind ∧ (∀ item ∈ before, WellFormed item) ∧
      ¬WellFormed text ∧ readAll kind texts = (definitions, some (complaint kind text)) := by
  induction texts with
  | nil => exact .inl ⟨[], .nil, rfl⟩
  | cons text texts ih =>
    by_cases well : WellFormed text
    · obtain ⟨definition, means⟩ := well
      have done : read kind text = .ok definition := read_eq_ok_iff.2 means
      rcases ih with ⟨definitions, all, rest⟩ | ⟨before, bad, behind, definitions, rfl, fine, ill, rest⟩
      · exact .inl ⟨definition :: definitions, .cons means all, by simp only [readAll, done, rest]⟩
      · refine .inr ⟨text :: before, bad, behind, definition :: definitions, rfl, ?_, ill, ?_⟩
        · exact List.forall_mem_cons.2 ⟨⟨definition, means⟩, fine⟩
        · simp only [readAll, done, rest]
    · exact .inr ⟨[], text, texts, [], rfl, nofun, well, by rw [readAll, read_of_not_wellFormed kind well]⟩

end GramDefinition

/-! ## Overriding -/

namespace GramTable

/-- The number of the last definition that names a namespace, else of the last bare one, else zero. -/
def settled (definitions : List GramDefinition) (ns : UInt8) : Nat :=
  let named := (definitions.filter (·.target = some ns)).getLast?
  let bare := (definitions.filter (·.target = none)).getLast?
  (named.or bare).elim 0 (·.count)

theorem ofDefinitions_concat (definitions : List GramDefinition) (definition : GramDefinition) :
    ofDefinitions (definitions ++ [definition]) = (ofDefinitions definitions).define definition :=
  List.foldl_concat ..

theorem fallback_ofDefinitions (definitions : List GramDefinition) :
    (ofDefinitions definitions).fallback = (definitions.filter (·.target = none)).getLast?.elim 0 (·.count) := by
  induction definitions using List.reverseRecOn with
  | nil => rfl
  | append_singleton definitions definition ih =>
    rw [ofDefinitions_concat, List.filter_append]
    rcases definition with ⟨_ | other, count⟩
    · simp [define]
    · simp [define, ih]

theorem lookup_named_ofDefinitions (definitions : List GramDefinition) (ns : UInt8) :
    (ofDefinitions definitions).named.lookup ns =
      (definitions.filter (·.target = some ns)).getLast?.map (·.count) := by
  induction definitions using List.reverseRecOn with
  | nil => rfl
  | append_singleton definitions definition ih =>
    rw [ofDefinitions_concat, List.filter_append]
    rcases definition with ⟨_ | other, count⟩
    · simp [define, ih]
    · by_cases same : other = ns
      · simp [define, same]
      · simp [define, same, List.lookup_cons, beq_eq_false_iff_ne.2 (Ne.symm same), ih]

theorem countFor_ofDefinitions (definitions : List GramDefinition) (ns : UInt8) :
    (ofDefinitions definitions).countFor ns = settled definitions ns := by
  rw [countFor, lookup_named_ofDefinitions, fallback_ofDefinitions, settled]
  cases (definitions.filter (·.target = some ns)).getLast? <;> rfl

end GramTable

namespace Ngrams

open GramDefinition (WellFormed AllMean complaint)

def tagged (grams skips : List String) : List (GramKind × String) :=
  grams.map (GramKind.grams, ·) ++ skips.map (GramKind.skips, ·)

theorem ofTexts_cases (grams skips : List String) :
    (∃ gramList skipList, AllMean grams gramList ∧ AllMean skips skipList ∧
      (ofTexts grams skips).1 = .ok ⟨.ofDefinitions gramList, .ofDefinitions skipList⟩) ∨
    ∃ before kind text behind, tagged grams skips = before ++ (kind, text) :: behind ∧
      (∀ item ∈ before, WellFormed item.2) ∧ ¬WellFormed text ∧
      (ofTexts grams skips).1 = .error (complaint kind text) := by
  unfold ofTexts
  rcases GramDefinition.readAll_cases .grams grams with
    ⟨gramList, gramsMean, gramsRead⟩ | ⟨before, text, behind, gramList, rfl, fine, ill, gramsRead⟩
  · rcases GramDefinition.readAll_cases .skips skips with
      ⟨skipList, skipsMean, skipsRead⟩ | ⟨before, text, behind, skipList, rfl, fine, ill, skipsRead⟩
    · exact .inl ⟨gramList, skipList, gramsMean, skipsMean, by simp only [gramsRead, skipsRead]⟩
    · refine .inr ⟨grams.map (GramKind.grams, ·) ++ before.map (GramKind.skips, ·), .skips, text,
        behind.map (GramKind.skips, ·), ?_, ?_, ill, by simp only [gramsRead, skipsRead]⟩
      · rw [tagged, List.map_append, List.map_cons, List.append_assoc]
      · simpa only [List.forall_mem_append, List.forall_mem_map] using ⟨gramsMean.wellFormed, fine⟩
  · refine .inr ⟨before.map (GramKind.grams, ·), .grams, text,
      behind.map (GramKind.grams, ·) ++ skips.map (GramKind.skips, ·), ?_, ?_, ill, by simp only [gramsRead]⟩
    · rw [tagged, List.map_append, List.map_cons, List.append_assoc, List.cons_append]
    · simpa only [List.forall_mem_map] using fine

theorem forall_tagged {P : String → Prop} (grams skips : List String) :
    (∀ item ∈ tagged grams skips, P item.2) ↔ ∀ text ∈ grams ++ skips, P text := by
  simp only [tagged, List.forall_mem_append, List.forall_mem_map]

/-- Definitions are read exactly if all of them are digits of a 32-bit number, or such digits, with or without a plus
sign, behind an ASCII character that is no digit. Otherwise the first ill-formed one is an error in the configuration,
those of grams being read first. Of those read, the last that names a namespace holds for it, else the last bare one,
else zero. -/
theorem ofTexts_reads_grammar (grams skips : List String) :
    ((∃ ngrams, (ofTexts grams skips).1 = .ok ngrams) ↔ ∀ text ∈ grams ++ skips, WellFormed text) ∧
      ((¬∀ text ∈ grams ++ skips, WellFormed text) → ∃ before kind text behind,
        tagged grams skips = before ++ (kind, text) :: behind ∧ (∀ item ∈ before, WellFormed item.2) ∧
        ¬WellFormed text ∧ (ofTexts grams skips).1 = .error (complaint kind text) ∧
        (complaint kind text).kind = .invalidConfig) ∧
      ∀ ngrams, (ofTexts grams skips).1 = .ok ngrams → ∃ gramList skipList,
        AllMean grams gramList ∧ AllMean skips skipList ∧
        ∀ ns, ngrams.gramsFor ns = GramTable.settled gramList ns ∧
          ngrams.skipsFor ns = GramTable.settled skipList ns := by
  rcases ofTexts_cases grams skips with
    ⟨gramList, skipList, gramsMean, skipsMean, outcome⟩ | ⟨before, kind, text, behind, first, fine, ill, outcome⟩
  · have well : ∀ text ∈ grams ++ skips, WellFormed text :=
      List.forall_mem_append.2 ⟨gramsMean.wellFormed, skipsMean.wellFormed⟩
    refine ⟨⟨fun _ => well, fun _ => ⟨_, outcome⟩⟩, fun ill => absurd well ill, fun ngrams read => ?_⟩
    obtain rfl := Except.ok.inj (outcome.symm.trans read)
    exact ⟨gramList, skipList, gramsMean, skipsMean, fun ns =>
      ⟨GramTable.countFor_ofDefinitions gramList ns, GramTable.countFor_ofDefinitions skipList ns⟩⟩
  · have bad : ¬∀ text ∈ grams ++ skips, WellFormed text := by
      rw [← forall_tagged, first]
      exact fun well => ill (well (kind, text) List.mem_append_cons_self)
    refine ⟨⟨?_, fun well => absurd well bad⟩, fun _ => ?_, ?_⟩
    · rintro ⟨ngrams, read⟩
      cases outcome.symm.trans read
    · exact ⟨before, kind, text, behind, first, fine, ill, outcome, GramDefinition.complaint_kind kind text⟩
    · intro ngrams read
      cases outcome.symm.trans read

-- Later definitions override earlier ones, a sign may stand behind a namespace that is one, and `é` takes two bytes.
example :
    (ofTexts ["a3", "7", "a+4"] ["++5"]).1.map (fun ngrams =>
      (ngrams.gramsFor 0x61, ngrams.gramsFor 0x62, ngrams.skipsFor 0x2B, ngrams.skipsFor 0x61)) = .ok (4, 7, 5, 0) ∧
    (ofTexts ["3"] ["é2", "x"]).1 = .error (.unreadableDefinition .skips "é2") :=
  ⟨rfl, rfl⟩

end Ngrams

end HashedFeatures
