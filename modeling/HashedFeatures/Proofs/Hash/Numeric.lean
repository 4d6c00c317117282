import HashedFeatures.Hash.Scan
import Mathlib.Data.List.TakeWhile
import Mathlib.Data.Nat.Digits.Lemmas

/-! What a name hashes to.

A padded name is found between its blanks. Digits are read modulo the size of a word, so a printed number is read back,
whatever zeros stand in front of it.
-/

set_option autoImplicit false

namespace HashedFeatures.Hash

/-! ## Padding -/

def Blank (padding : List UInt8) : Prop := ∀ b ∈ padding, isBlank b = true

instance (padding : List UInt8) : Decidable (Blank padding) :=
  List.decidableBAll (isBlank · = true) padding

/-- What is left of some bytes without the blank ones at both ends. -/
structure Strips (data name : List UInt8) : Prop where
  padded : ∃ left right, Blank left ∧ Blank right ∧ data = left ++ (name ++ right)
  starts : ∀ b ∈ name.head?, isBlank b = false
  ends : ∀ b ∈ name.getLast?, isBlank b = false

theorem Blank.dropWhile_append {padding : List UInt8} (blank : Blank padding) {rest : List UInt8}
    (visible : ∀ b ∈ rest.head?, isBlank b = false) : (padding ++ rest).dropWhile isBlank = rest := by
  rw [List.dropWhile_append_of_pos blank]
  cases rest with
  | nil => rfl
  | cons b rest => exact List.dropWhile_cons_of_neg (by simp [visible b rfl])

theorem Blank.reverse {padding : List UInt8} (blank : Blank padding) : Blank padding.reverse :=
  fun b member => blank b (List.mem_reverse.1 member)

theorem Blank.append {left right : List UInt8} (blank : Blank left) (blank' : Blank right) : Blank (left ++ right) :=
  List.forall_mem_append.2 ⟨blank, blank'⟩

theorem Blank.findIdx?_eq_none {padding : List UInt8} (blank : Blank padding) :
    padding.findIdx? (fun b => !isBlank b) = none :=
  List.findIdx?_eq_none_iff.2 fun b member => by simp [blank b member]

theorem Blank.findIdx?_append {padding : List UInt8} (blank : Blank padding) {b : UInt8} (visible : isBlank b = false)
    (rest : List UInt8) : (padding ++ b :: rest).findIdx? (fun b => !isBlank b) = some padding.length := by
  rw [List.findIdx?_append, blank.findIdx?_eq_none, List.findIdx?_cons]
  simp [visible]

theorem blank_takeWhile (data : List UInt8) : Blank (data.takeWhile isBlank) :=
  fun _ => List.mem_takeWhile_imp

theorem visible_dropWhile (data : List UInt8) : ∀ b ∈ (data.dropWhile isBlank).head?, isBlank b = false := by
  have stops := List.head?_dropWhile_not isBlank data
  intro b head
  rw [Option.mem_def.1 head] at stops
  simpa using stops

theorem trim_strips (data : List UInt8) : Strips data (trim data) := by
  have front : data = data.takeWhile isBlank ++ data.dropWhile isBlank := List.takeWhile_append_dropWhile.symm
  have back : data.dropWhile isBlank = trim data ++ ((data.dropWhile isBlank).reverse.takeWhile isBlank).reverse := by
    rw [trim, ← List.reverse_append, List.takeWhile_append_dropWhile, List.reverse_reverse]
  refine ⟨⟨_, _, blank_takeWhile data, (blank_takeWhile (data.dropWhile isBlank).reverse).reverse, ?_⟩, ?_, ?_⟩
  · rw [← back]
    exact front
  · intro b head
    refine visible_dropWhile data b ?_
    rw [back, List.head?_append, Option.mem_def.1 head]
    rfl
  · rw [trim, List.getLast?_reverse]
    exact visible_dropWhile _

theorem Strips.eq_trim {data name : List UInt8} (strips : Strips data name) : name = trim data := by
  obtain ⟨left, right, blank, blank', rfl⟩ := strips.padded
  cases name with
  | nil =>
    rw [trim, List.nil_append, List.dropWhile_eq_nil_iff.2 (blank.append blank')]
    rfl
  | cons b rest =>
    have visible : ∀ c ∈ (b :: rest ++ right).head?, isBlank c = false := strips.starts
    have visible' : ∀ c ∈ (b :: rest).reverse.head?, isBlank c = false := by
      rw [List.head?_reverse]
      exact strips.ends
    rw [trim, blank.dropWhile_append visible, List.reverse_append, blank'.reverse.dropWhile_append visible',
      List.reverse_reverse]

/-! ## The places of a name -/

theorem slice_append (left name right : List UInt8) :
    slice (left ++ (name ++ right)) left.length (left.length + name.length) = .ok name := by
  have taken : (left ++ (name ++ right)).take (left.length + name.length) = left ++ name := by
    rw [← List.append_assoc, ← List.length_append, List.take_left]
  rw [slice, if_pos ⟨by omega, by simp only [List.length_append]; omega⟩, taken, List.drop_left]

theorem firstVisible_append {left : List UInt8} (blank : Blank left) {b : UInt8} (visible : isBlank b = false)
    (rest : List UInt8) : firstVisible (left ++ b :: rest) = some left.length :=
  blank.findIdx?_append visible rest

theorem lastVisible_append {right : List UInt8} (blank : Blank right) {b : UInt8} (visible : isBlank b = false)
    (front : List UInt8) : lastVisible (front ++ b :: right) = some front.length := by
  have reversed : (front ++ b :: right).reverse = right.reverse ++ b :: front.reverse := by simp
  rw [lastVisible, reversed, blank.reverse.findIdx?_append visible, Option.map_some, List.length_reverse]
  simp only [List.length_append, List.length_cons, Option.some.injEq]
  omega

theorem Strips.slice_eq {data name : List UInt8} (strips : Strips data name) :
    slice data ((firstVisible data).getD data.length)
      ((lastVisible data).elim ((firstVisible data).getD data.length) (· + 1)) = .ok name := by
  obtain ⟨left, right, blank, blank', rfl⟩ := strips.padded
  cases name with
  | nil =>
    have all := blank.append blank'
    rw [List.nil_append, firstVisible, lastVisible, all.findIdx?_eq_none, all.reverse.findIdx?_eq_none]
    simp [slice]
  | cons b rest =>
    obtain ⟨front, c, split⟩ : ∃ front c, b :: rest = front ++ [c] :=
      ⟨_, _, (List.dropLast_append_getLast (List.cons_ne_nil b rest)).symm⟩
    have first : firstVisible (left ++ (b :: rest ++ right)) = some left.length :=
      firstVisible_append blank (strips.starts b rfl) _
    have last : lastVisible (left ++ (b :: rest ++ right)) = some (left ++ front).length := by
      have ending : left ++ (b :: rest ++ right) = left ++ front ++ c :: right := by simp [split]
      rw [ending]
      exact lastVisible_append blank' (strips.ends c (by rw [split, List.getLast?_concat]; rfl)) _
    have stop : (left ++ front).length + 1 = left.length + (b :: rest).length := by
      rw [split, List.length_append, List.length_append, List.length_singleton, Nat.add_assoc]
    rw [first, last, Option.getD_some, Option.elim_some, stop]
    exact slice_append left (b :: rest) right

/-! ## Digits -/

def number (digits : List UInt8) : Nat :=
  Nat.ofDigits 10 (digits.reverse.map fun b => b.toNat - 48)

theorem number_eq_foldl (digits : List UInt8) :
    number digits = digits.foldl (fun n b => 10 * n + (b.toNat - 48)) 0 := by
  rw [number, Nat.ofDigits_eq_foldr, List.map_reverse, List.foldr_reverse, List.foldl_map]
  simp only [Nat.cast_id, Nat.add_comm]

theorem number_append_zeros (zeros : Nat) (digits : List UInt8) :
    number (List.replicate zeros 0x30 ++ digits) = number digits := by
  rw [number, List.reverse_append, List.reverse_replicate, List.map_append, List.map_replicate, Nat.ofDigits_append]
  simp [Nat.ofDigits_replicate_zero, number]

theorem toNat_of_isDigit {b : UInt8} (digit : isDigit b = true) : 48 ≤ b.toNat ∧ b.toNat ≤ 57 := by
  simpa [isDigit, UInt8.le_iff_toNat_le] using digit

theorem isBlank_of_isDigit {b : UInt8} (digit : isDigit b = true) : isBlank b = false := by
  have bound := (toNat_of_isDigit digit).1
  simp [isBlank, UInt8.lt_iff_toNat_lt]
  omega

theorem digit_toUInt64 {b : UInt8} (digit : isDigit b = true) :
    (b - 0x30).toUInt64 = UInt64.ofNat (b.toNat - 48) := by
  obtain ⟨lower, upper⟩ := toNat_of_isDigit digit
  have zero : (0x30 : UInt8) ≤ b := UInt8.le_iff_toNat_le.2 lower
  have small : b.toNat - 48 < UInt64.size := by
    have size : UInt64.size = 18446744073709551616 := rfl
    omega
  apply UInt64.toNat_inj.1
  rw [UInt8.toNat_toUInt64, UInt8.toNat_sub_of_le _ _ zero, UInt64.toNat_ofNat_of_lt' small]
  rfl

theorem decimal_eq_number {digits : List UInt8} (all : ∀ b ∈ digits, isDigit b = true) :
    decimal digits = UInt64.ofNat (number digits) := by
  have folded : ∀ n : Nat, digits.foldl (fun n b => n * 10 + (b - 0x30).toUInt64) (UInt64.ofNat n) =
      UInt64.ofNat (digits.foldl (fun n b => 10 * n + (b.toNat - 48)) n) := by
    induction digits with
    | nil => exact fun _ => rfl
    | cons b rest ih =>
      obtain ⟨digit, digits⟩ := List.forall_mem_cons.1 all
      intro n
      rw [List.foldl_cons, List.foldl_cons, ← ih digits, digit_toUInt64 digit, UInt64.ofNat_add, UInt64.ofNat_mul,
        UInt64.mul_comm]
      rfl
  rw [number_eq_foldl, decimal]
  exact folded 0

theorem readDigits_eq (digits : List UInt8) (n : UInt64) :
    readDigits n digits =
      if digits.all isDigit then some (digits.foldl (fun n b => n * 10 + (b - 0x30).toUInt64) n) else none := by
  induction digits generalizing n with
  | nil => rfl
  | cons b rest ih =>
    rw [readDigits, List.all_cons]
    by_cases digit : isDigit b = true
    · rw [if_pos digit, ih, digit, Bool.true_and, List.foldl_cons]
    · rw [if_neg digit, if_neg (by simp [digit])]

/-- The bytes are scanned without leaving their bounds, and hash as the name between its blanks does. -/
theorem numericByScan_eq (data : List UInt8) (seed : UInt64) : numericByScan data seed = .ok (numeric data seed) := by
  have read := readDigits_eq (trim data) 0
  rw [numericByScan, (trim_strips data).slice_eq, numeric]
  by_cases all : (trim data).all isDigit = true
  · rw [if_pos all] at read ⊢
    simp only [bind, Except.bind, read]
    rfl
  · rw [if_neg all] at read ⊢
    simp only [bind, Except.bind, read]
    rfl

/-! ## Printed numbers -/

theorem bytes_ofList {text : List Char} (ascii : ∀ c ∈ text, c.utf8Size = 1) :
    bytes (String.ofList text) = text.map fun c => c.val.toUInt8 := by
  have encoded : text.flatMap String.utf8EncodeChar = text.map fun c => c.val.toUInt8 := by
    rw [List.map_eq_flatMap]
    exact List.flatMap_congr fun c member => String.utf8EncodeChar_eq_singleton (ascii c member)
  rw [← encoded, bytes, String.toUTF8_eq_toByteArray, String.toByteArray_ofList, List.utf8Encode]
  simp

theorem toNat_of_mem_toDigits {n : Nat} {c : Char} (member : c ∈ Nat.toDigits 10 n) :
    48 ≤ c.toNat ∧ c.toNat ≤ 57 := by
  have digit := Nat.isDigit_of_mem_toDigits (by decide) (by decide) member
  simpa [Char.isDigit, UInt32.le_iff_toNat_le] using digit

theorem bytes_toString (n : UInt64) :
    bytes (toString n) = (Nat.toDigits 10 n.toNat).map fun c => c.val.toUInt8 := by
  refine bytes_ofList fun c member => ?_
  have ascii : c.val ≤ 127 := UInt32.le_iff_toNat_le.2 ((toNat_of_mem_toDigits member).2.trans (by decide))
  rw [Char.utf8Size]
  exact if_pos ascii

theorem toNat_digit_byte {n : Nat} {c : Char} (member : c ∈ Nat.toDigits 10 n) : c.val.toUInt8.toNat = c.toNat := by
  obtain ⟨-, upper⟩ := toNat_of_mem_toDigits member
  rw [UInt32.toNat_toUInt8]
  exact Nat.mod_eq_of_lt (upper.trans_lt (by decide))

theorem isDigit_of_mem_toString {n : UInt64} {b : UInt8} (member : b ∈ bytes (toString n)) : isDigit b = true := by
  rw [bytes_toString] at member
  obtain ⟨c, printed, rfl⟩ := List.mem_map.1 member
  have bounds := toNat_of_mem_toDigits printed
  rw [← toNat_digit_byte printed] at bounds
  simpa [isDigit, UInt8.le_iff_toNat_le] using bounds

theorem number_toString (n : UInt64) : number (bytes (toString n)) = n.toNat := by
  have value := @Nat.ofDigitChars_ten_toDigits n.toNat
  rw [Nat.ofDigitChars_eq_foldl] at value
  rw [number_eq_foldl, bytes_toString, List.foldl_map]
  refine (List.foldl_ext _ _ 0 fun sofar c member => ?_).trans value
  rw [toNat_digit_byte member]
  rfl

/-! ## Results -/

theorem strips_digits {left right digits : List UInt8} (blank : Blank left) (blank' : Blank right)
    (all : ∀ b ∈ digits, isDigit b = true) : Strips (left ++ (digits ++ right)) digits where
  padded := ⟨left, right, blank, blank', rfl⟩
  starts b head := isBlank_of_isDigit (all b (List.mem_of_mem_head? head))
  ends b last := isBlank_of_isDigit (all b (List.mem_of_getLast? last))

theorem numeric_digits {left right digits : List UInt8} (blank : Blank left) (blank' : Blank right)
    (all : ∀ b ∈ digits, isDigit b = true) (seed : UInt64) :
    numeric (left ++ (digits ++ right)) seed = UInt64.ofNat (number digits) + seed := by
  rw [numeric, ← (strips_digits blank blank' all).eq_trim, if_pos (List.all_eq_true.2 all), decimal_eq_number all]

theorem numeric_printed {left right : List UInt8} (blank : Blank left) (blank' : Blank right) (zeros : Nat)
    (n seed : UInt64) :
    numeric (left ++ (List.replicate zeros 0x30 ++ bytes (toString n) ++ right)) seed = numbered n seed := by
  have all : ∀ b ∈ List.replicate zeros 0x30 ++ bytes (toString n), isDigit b = true := by
    refine List.forall_mem_append.2 ⟨fun b zero => ?_, fun _ => isDigit_of_mem_toString⟩
    rw [List.eq_of_mem_replicate zero]
    rfl
  rw [numeric_digits blank blank' all, number_append_zeros, number_toString, UInt64.ofNat_toNat]
  rfl

/-- A number as a key and its printed name meet in one index. -/
theorem featureIn_printed (n ns : UInt64) : featureIn .strings (toString n) ns = numbered n ns := by
  have none : Blank [] := by decide
  have printed := numeric_printed none none 0 n ns
  rwa [List.nil_append, List.replicate_zero, List.nil_append, List.append_nil] at printed

theorem numeric_other {data name : List UInt8} (strips : Strips data name)
    (other : ∃ b ∈ name, isDigit b = false) (seed : UInt64) : numeric data seed = uniform name seed := by
  have mixed : ¬name.all isDigit = true := by
    obtain ⟨b, member, plain⟩ := other
    exact fun all => by simp [List.all_eq_true.1 all b member] at plain
  rw [numeric, ← strips.eq_trim, if_neg mixed]

theorem numeric_nothing {data : List UInt8} (strips : Strips data []) (seed : UInt64) : numeric data seed = seed := by
  rw [numeric, ← strips.eq_trim]
  exact UInt64.zero_add seed

/-- A name between blanks is found, and it is the only one. Digits stand for their number above the seed: printed
numbers, with zeros in front of them or not, become neighbouring indices, and longer numbers wrap around. A name with any
other byte hashes uniformly, its inner blanks included, and no name at all is the seed. -/
theorem numericByScan_reads :
    (∀ (left right : List UInt8) (zeros : Nat) (n seed : UInt64), Blank left → Blank right →
      numericByScan (left ++ (List.replicate zeros 0x30 ++ bytes (toString n) ++ right)) seed =
          .ok (numbered n seed) ∧
        (numbered n seed).toNat = (n.toNat + seed.toNat) % 2 ^ 64) ∧
    (∀ (left right digits : List UInt8) (seed : UInt64), Blank left → Blank right →
      (∀ b ∈ digits, isDigit b = true) →
      ∃ index, numericByScan (left ++ (digits ++ right)) seed = .ok index ∧
        index.toNat = (number digits + seed.toNat) % 2 ^ 64) ∧
    (∀ data : List UInt8, ∃! name, Strips data name) ∧
    (∀ (data name : List UInt8) (seed : UInt64), Strips data name → (∃ b ∈ name, isDigit b = false) →
      numericByScan data seed = .ok (uniform name seed)) ∧
    (∀ (data : List UInt8) (seed : UInt64), Strips data [] → numericByScan data seed = .ok seed) ∧
    ∀ (data : List UInt8) (seed : UInt64), numericByScan data seed = .ok (numeric data seed) := by
  refine ⟨fun left right zeros n seed blank blank' => ⟨?_, UInt64.toNat_add n seed⟩,
    fun left right digits seed blank blank' all => ⟨_, numericByScan_eq _ _, ?_⟩, fun data => ?_,
    fun data name seed strips other => ?_, fun data seed strips => ?_, numericByScan_eq⟩
  · rw [numericByScan_eq, numeric_printed blank blank']
  · rw [numeric_digits blank blank' all, UInt64.toNat_add, UInt64.toNat_ofNat', Nat.mod_add_mod]
  · exact ⟨trim data, trim_strips data, fun name strips => strips.eq_trim⟩
  · rw [numericByScan_eq, numeric_other strips other]
  · rw [numericByScan_eq, numeric_nothing strips]

/-- Two zeros in front of `42`, between blanks, above the seed 8. -/
theorem numericByScan_reads_forty_two :
    numericByScan ([0x20, 0x20] ++ ([0x30, 0x30] ++ bytes (toString (42 : UInt64)) ++ [0x09])) 8 = .ok 50 :=
  (numericByScan_reads.1 [0x20, 0x20] [0x09] 2 42 8 (by decide) (by decide)).1

end HashedFeatures.Hash
