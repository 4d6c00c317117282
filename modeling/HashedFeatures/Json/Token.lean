/-! Tokens of JSON text.

A string token keeps the text it denotes; escapes that leave half a surrogate pair alone denote none,
and such a string may only stand where its text is not asked for.
-/

set_option autoImplicit false

namespace HashedFeatures.Json

inductive Piece where
  | char (c : Char)
  | escaped (unit : Nat)
  deriving DecidableEq, Repr

namespace Piece

def isHigh (unit : Nat) : Bool := 0xD800 ≤ unit && unit < 0xDC00

def isLow (unit : Nat) : Bool := 0xDC00 ≤ unit && unit < 0xE000

def paired (high low : Nat) : Char :=
  Char.ofNat (0x10000 + (high - 0xD800) * 0x400 + (low - 0xDC00))

/-- Join pieces onto the characters in front of them, the last of those first; surrogate halves stand
for a character in pairs only. -/
def joinOnto (joined : List Char) : List Piece → Option (List Char)
  | [] => some joined.reverse
  | .char c :: rest => joinOnto (c :: joined) rest
  | .escaped high :: .escaped low :: rest =>
    if isHigh high then
      if isLow low then joinOnto (paired high low :: joined) rest else none
    else if isLow high then none
    else joinOnto (Char.ofNat high :: joined) (.escaped low :: rest)
  | .escaped unit :: rest =>
    if isHigh unit || isLow unit then none else joinOnto (Char.ofNat unit :: joined) rest

def join (pieces : List Piece) : Option (List Char) := joinOnto [] pieces

end Piece

def hexValue (c : Char) : Option Nat :=
  if '0' ≤ c ∧ c ≤ '9' then some (c.toNat - '0'.toNat)
  else if 'a' ≤ c ∧ c ≤ 'f' then some (c.toNat - 'a'.toNat + 10)
  else if 'A' ≤ c ∧ c ≤ 'F' then some (c.toNat - 'A'.toNat + 10)
  else none

def hexUnit (a b c d : Char) : Option Nat := do
  some ((((← hexValue a) * 16 + (← hexValue b)) * 16 + (← hexValue c)) * 16 + (← hexValue d))

def simpleEscape : Char → Option Char
  | '"' => some '"'
  | '\\' => some '\\'
  | '/' => some '/'
  | 'b' => some '\x08'
  | 'f' => some '\x0c'
  | 'n' => some '\n'
  | 'r' => some '\r'
  | 't' => some '\t'
  | _ => none

/-- Read a string behind its opening quote, and behind some of its pieces, the last one first: all its
pieces, and what follows the closing quote. -/
def scanText (met : List Piece) : List Char → Option (List Piece × List Char)
  | [] => none
  | '"' :: rest => some (met.reverse, rest)
  | '\\' :: 'u' :: a :: b :: c :: d :: rest =>
    match hexUnit a b c d with
    | some unit => scanText (.escaped unit :: met) rest
    | none => none
  | '\\' :: e :: rest =>
    match simpleEscape e with
    | some c => scanText (.char c :: met) rest
    | none => none
  | c :: rest => if c < ' ' ∨ c = '\\' then none else scanText (.char c :: met) rest

theorem length_of_scanText {met pieces : List Piece} {text after : List Char}
    (read : scanText met text = some (pieces, after)) : after.length < text.length := by
  fun_induction scanText met text with
  | case2 => simp_all
  | case3 | case5 | case8 => simp_all; omega
  | _ => simp_all

def isDigit (c : Char) : Bool := '0' ≤ c && c ≤ '9'

def isLowercase (c : Char) : Bool := 'a' ≤ c && c ≤ 'z'

def isBlank (c : Char) : Bool := c == ' ' || c == '\t' || c == '\n' || c == '\r'

def isNumeric (c : Char) : Bool :=
  isDigit c || c == '-' || c == '+' || c == '.' || c == 'e' || c == 'E'

namespace Number

def endsInDigits (text : List Char) : Bool :=
  !text.isEmpty && text.all isDigit

def endsInExponent : List Char → Bool
  | [] => true
  | mark :: rest =>
    (mark == 'e' || mark == 'E') &&
      match rest with
      | '+' :: digits => endsInDigits digits
      | '-' :: digits => endsInDigits digits
      | digits => endsInDigits digits

def endsInFraction : List Char → Bool
  | '.' :: digit :: rest => isDigit digit && endsInExponent (rest.dropWhile isDigit)
  | rest => endsInExponent rest

/-- Whether a text is a number; digits do not start with a zero that is not the only one. -/
def isValid (text : List Char) : Bool :=
  let unsigned := match text with | '-' :: rest => rest | rest => rest
  match unsigned with
  | [] => false
  | '0' :: rest => endsInFraction rest
  | digit :: rest => isDigit digit && endsInFraction (rest.dropWhile isDigit)

end Number

inductive Token where
  | beginArray
  | endArray
  | beginObject
  | endObject
  | comma
  | colon
  | null
  | flag (value : Bool)
  | number (written : List Char)
  | text (value : Option String)
  deriving DecidableEq, Repr

namespace Token

def ofSymbol : Char → Option Token
  | '[' => some .beginArray
  | ']' => some .endArray
  | '\x7b' => some .beginObject
  | '\x7d' => some .endObject
  | ',' => some .comma
  | ':' => some .colon
  | _ => none

def ofWord (word : List Char) : Option Token :=
  if word = "null".toList then some .null
  else if word = "true".toList then some (.flag true)
  else if word = "false".toList then some (.flag false)
  else none

def ofNumber (written : List Char) : Option Token :=
  if Number.isValid written then some (.number written) else none

def ofPieces (pieces : List Piece) : Token :=
  .text ((Piece.join pieces).map String.ofList)

theorem length_dropWhile_le {α : Type} (p : α → Bool) (items : List α) :
    (items.dropWhile p).length ≤ items.length :=
  (List.dropWhile_suffix p).length_le

def first (c : Char) (rest : List Char) : Option (Token × List Char) :=
  if c = '"' then (scanText [] rest).map fun (pieces, after) => (ofPieces pieces, after)
  else if isLowercase c then
    (ofWord (c :: rest.takeWhile isLowercase)).map (·, rest.dropWhile isLowercase)
  else if isDigit c || c == '-' then
    (ofNumber (c :: rest.takeWhile isNumeric)).map (·, rest.dropWhile isNumeric)
  else (ofSymbol c).map (·, rest)

theorem length_of_first {c : Char} {rest after : List Char} {token : Token}
    (read : first c rest = some (token, after)) : after.length ≤ rest.length := by
  have lowercase := length_dropWhile_le isLowercase rest
  have numeric := length_dropWhile_le isNumeric rest
  unfold first at read
  split at read
  · obtain ⟨⟨pieces, left⟩, scanned, same⟩ := Option.map_eq_some_iff.1 read
    cases same
    exact Nat.le_of_lt (length_of_scanText scanned)
  · repeat' split at read
    all_goals
      obtain ⟨word, known, same⟩ := Option.map_eq_some_iff.1 read
      cases same
      first | assumption | exact Nat.le_refl _

def scanOnto (met : List Token) : List Char → Option (List Token)
  | [] => some met.reverse
  | c :: rest =>
    if isBlank c then scanOnto met rest
    else
      match read : first c rest with
      | some (token, after) =>
        have := length_of_first read
        scanOnto (token :: met) after
      | none => none
termination_by text => text.length
decreasing_by all_goals (simp_wf; try omega)

def scan (text : List Char) : Option (List Token) := scanOnto [] text

end Token

end HashedFeatures.Json
