import HashedFeatures.Fault
import HashedFeatures.Hash.Murmur

/-! Hashes of namespace and feature names.

A name hashes either uniformly, or such that a decimal name stands for its number: integer-named
features then keep neighbouring indices.
-/

set_option autoImplicit false

namespace HashedFeatures.Hash

def bytes (text : String) : List UInt8 :=
  text.toUTF8.data.toList

def uniform (data : List UInt8) (seed : UInt64) : UInt64 :=
  (Murmur.hash data seed.toUInt32).toUInt64

def isBlank (b : UInt8) : Bool := b ≤ 0x20

def trim (data : List UInt8) : List UInt8 :=
  ((data.dropWhile isBlank).reverse.dropWhile isBlank).reverse

def isDigit (b : UInt8) : Bool := 0x30 ≤ b && b ≤ 0x39

def decimal (digits : List UInt8) : UInt64 :=
  digits.foldl (fun n b => n * 10 + (b - 0x30).toUInt64) 0

/-- A trimmed name of digits only is its number above the seed; any other name hashes uniformly. -/
def numeric (data : List UInt8) (seed : UInt64) : UInt64 :=
  let name := trim data
  if name.all isDigit then decimal name + seed else uniform name seed

inductive Mode where
  /-- Decimal names stand for their numbers. -/
  | strings
  /-- All names hash uniformly. -/
  | all
  deriving DecidableEq, Repr

namespace Mode

def name : Mode → String
  | .strings => "strings"
  | .all => "all"

def ofName (name : String) : Except Fault Mode :=
  if name = "strings" then .ok .strings
  else if name = "all" then .ok .all
  else .error (.unknownHashMode name)

def hash : Mode → List UInt8 → UInt64 → UInt64
  | .strings => numeric
  | .all => uniform

@[simp] theorem ofName_name (mode : Mode) : ofName mode.name = .ok mode := by
  cases mode <;> rfl

end Mode

def namespaceHash (name : String) (seed : UInt64) : UInt64 :=
  uniform (bytes name) seed

/-- The one-byte id of a namespace name; the default and the wildcard name have fixed ids. -/
def namespaceId (name : String) (seed : UInt64) : UInt8 :=
  if name = " " then 32
  else if name = ":" then 58
  else (namespaceHash name seed).toUInt8

def feature (name : String) (ns : UInt64) : UInt64 :=
  uniform (bytes name) ns

def numbered (index ns : UInt64) : UInt64 := index + ns

def featureIn (mode : Mode) (name : String) (ns : UInt64) : UInt64 :=
  mode.hash (bytes name) ns

def chain (name value : String) (ns : UInt64) : UInt64 :=
  uniform (bytes value) (feature name ns)

def chainNumbered (index : UInt64) (value : String) (ns : UInt64) : UInt64 :=
  uniform (bytes value) (numbered index ns)

def chainIn (mode : Mode) (name value : String) (ns : UInt64) : UInt64 :=
  mode.hash (bytes value) (mode.hash (bytes name) ns)

end HashedFeatures.Hash
