import HashedFeatures.Json.Token

/-! JSON values, read from tokens. Numbers keep their written form.

A reader takes one token after the other. It knows what may come next and the arrays and objects that
are still open, the innermost one first.
-/

set_option autoImplicit false

namespace HashedFeatures.Json

inductive Value where
  | null
  | flag (value : Bool)
  | number (written : List Char)
  | text (value : Option String)
  | array (items : List Value)
  | object (members : List (Option String × Value))

/-- An array or object whose next value is under way, its items so far with the last one first. -/
inductive Open where
  | array (items : List Value)
  | object (members : List (Option String × Value)) (key : Option String)

inductive Reader where
  | beforeValue (around : List Open)
  /-- The first item of an array, or its end. -/
  | atItems (around : List Open)
  /-- The first key of an object, or its end. -/
  | atMembers (around : List Open)
  | beforeKey (members : List (Option String × Value)) (around : List Open)
  | beforeColon (members : List (Option String × Value)) (key : Option String) (around : List Open)
  | behind (value : Value) (around : List Open)

namespace Reader

def begin (around : List Open) : Token → Option Reader
  | .null => some (.behind .null around)
  | .flag b => some (.behind (.flag b) around)
  | .number w => some (.behind (.number w) around)
  | .text s => some (.behind (.text s) around)
  | .beginArray => some (.atItems around)
  | .beginObject => some (.atMembers around)
  | _ => none

def step : Reader → Token → Option Reader
  | .beforeValue around, token => begin around token
  | .atItems around, .endArray => some (.behind (.array []) around)
  | .atItems around, token => begin (.array [] :: around) token
  | .atMembers around, .endObject => some (.behind (.object []) around)
  | .atMembers around, .text key => some (.beforeColon [] key around)
  | .beforeKey members around, .text key => some (.beforeColon members key around)
  | .beforeColon members key around, .colon => some (.beforeValue (.object members key :: around))
  | .behind value (.array items :: around), .comma =>
    some (.beforeValue (.array (value :: items) :: around))
  | .behind value (.array items :: around), .endArray =>
    some (.behind (.array (value :: items).reverse) around)
  | .behind value (.object members key :: around), .comma =>
    some (.beforeKey ((key, value) :: members) around)
  | .behind value (.object members key :: around), .endObject =>
    some (.behind (.object ((key, value) :: members).reverse) around)
  | _, _ => none

end Reader

namespace Value

def ofTokens (tokens : List Token) : Option Value :=
  match tokens.foldlM Reader.step (.beforeValue []) with
  | some (.behind value []) => some value
  | _ => none

def ofText (text : String) : Option Value := do
  ofTokens (← Token.scan text.toList)

end Value

end HashedFeatures.Json
