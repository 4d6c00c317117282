import HashedFeatures.Config.Basic
import HashedFeatures.Json.Quoted
import HashedFeatures.Json.Value

/-! Configurations as JSON text.

The text is an object with a member for every field, or an array of the fields in order. Fields that
are missing keep their defaults, members of other names are passed over.
-/

set_option autoImplicit false

namespace HashedFeatures

namespace Json.Value

def toNat? (bound : Nat) : Value → Option Nat
  | .number written =>
    if written.all isDigit then
      let n := digitsValue written
      if n < bound then some n else none
    else none
  | _ => none

def toUInt64? (value : Value) : Option UInt64 := (value.toNat? UInt64.size).map UInt64.ofNat

def toUInt32? (value : Value) : Option UInt32 := (value.toNat? UInt32.size).map UInt32.ofNat

def toBool? : Value → Option Bool
  | .flag b => some b
  | _ => none

def toText? : Value → Option String
  | .text value => value
  | _ => none

def toTexts? : Value → Option (List String)
  | .array items => items.mapM toText?
  | _ => none

end Json.Value

namespace Hash.Mode

/-- A mode is its name, or an object with its name as the only key and null as its value. -/
def ofJson? : Json.Value → Option Mode
  | .text (some name) => (ofName name).toOption
  | .object [(some name, .null)] => (ofName name).toOption
  | _ => none

end Hash.Mode

namespace Config

def fieldNames : List String :=
  ["hash_seed", "hash_mode", "bit_precision", "feature_width_bits", "stride_shift", "sparse_weights",
    "permutations", "leave_duplicate_interactions", "interactions", "ignore_linear", "ngrams", "skips",
    "audit"]

/-- The value of a member that stands at most once. -/
def member? (members : List (Option String × Json.Value)) (name : String) : Option (Option Json.Value) :=
  match members.filter fun (key, _) => key == some name with
  | [] => some none
  | [(_, value)] => some (some value)
  | _ => none

def slots? : Json.Value → Option (List (Option Json.Value))
  | .object members =>
    if members.all fun (key, _) => key.isSome then fieldNames.mapM (member? members) else none
  | .array items =>
    if items.length ≤ fieldNames.length then
      some (items.map some ++ List.replicate (fieldNames.length - items.length) none)
    else none
  | _ => none

def field {α : Type} (read : Json.Value → Option α) (missing : α) : Option Json.Value → Option α
  | none => some missing
  | some value => read value

def ofSlots? : List (Option Json.Value) → Option Config
  | [seed, mode, bits, width, stride, sparse, permutations, leave, interactions, ignore, ngrams, skips,
      audit] => do
    some {
      hashSeed := ← field Json.Value.toUInt64? default.hashSeed seed
      hashMode := ← field Hash.Mode.ofJson? default.hashMode mode
      bitPrecision := ← field Json.Value.toUInt32? default.bitPrecision bits
      featureWidthBits := ← field Json.Value.toUInt32? default.featureWidthBits width
      strideShift := ← field Json.Value.toUInt32? default.strideShift stride
      sparseWeights := ← field Json.Value.toBool? default.sparseWeights sparse
      permutations := ← field Json.Value.toBool? default.permutations permutations
      leaveDuplicateInteractions := ← field Json.Value.toBool? default.leaveDuplicateInteractions leave
      interactions := ← field Json.Value.toTexts? default.interactions interactions
      ignoreLinear := ← field Json.Value.toTexts? default.ignoreLinear ignore
      ngrams := ← field Json.Value.toTexts? default.ngrams ngrams
      skips := ← field Json.Value.toTexts? default.skips skips
      audit := ← field Json.Value.toBool? default.audit audit }
  | _ => none

def ofText (text : String) : Except Fault Config :=
  match Json.Value.ofText text >>= slots? >>= ofSlots? with
  | none => .error .malformedText
  | some config => config.validate.map fun _ => config

def block (first last : Char) (indent : Nat) (items : List (List Char)) : List Char :=
  let line := fun (item : List Char) => List.replicate (indent + 2) ' ' ++ item
  if items.isEmpty then [first, last]
  else
    first :: '\n' :: (",\n".toList.intercalate (items.map line)) ++
      '\n' :: List.replicate indent ' ' ++ [last]

def writeNumber (n : Nat) : List Char := Nat.toDigits 10 n

def writeFlag (b : Bool) : List Char := if b then "true".toList else "false".toList

def writeTexts (texts : List String) : List Char := block '[' ']' 2 (texts.map Json.quote)

def written (config : Config) : List (List Char) :=
  [writeNumber config.hashSeed.toNat, Json.quote config.hashMode.name,
    writeNumber config.bitPrecision.toNat, writeNumber config.featureWidthBits.toNat,
    writeNumber config.strideShift.toNat, writeFlag config.sparseWeights, writeFlag config.permutations,
    writeFlag config.leaveDuplicateInteractions, writeTexts config.interactions,
    writeTexts config.ignoreLinear, writeTexts config.ngrams, writeTexts config.skips,
    writeFlag config.audit]

def toText (config : Config) : String :=
  String.ofList <| block '\x7b' '\x7d' 0 <|
    List.zipWith (fun name value => Json.quote name ++ ':' :: ' ' :: value) fieldNames config.written

end Config

end HashedFeatures
