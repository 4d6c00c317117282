import HashedFeatures.Hash.Name

/-! Hashing a name byte by byte.

The ends of a padded name are looked for from both sides. Its digits are then read until a byte is none.
-/

set_option autoImplicit false

namespace HashedFeatures.Hash

def firstVisible (data : List UInt8) : Option Nat :=
  data.findIdx? fun b => !isBlank b

def lastVisible (data : List UInt8) : Option Nat :=
  (data.reverse.findIdx? fun b => !isBlank b).map fun behind => data.length - 1 - behind

def slice (data : List UInt8) (start stop : Nat) : Except Fault (List UInt8) :=
  if start ≤ stop ∧ stop ≤ data.length then .ok ((data.take stop).drop start) else .error .outOfBounds

/-- Go on with a number as long as there are digits; any other byte gives it up. -/
def readDigits (n : UInt64) : List UInt8 → Option UInt64
  | [] => some n
  | b :: rest => if isDigit b then readDigits (n * 10 + (b - 0x30).toUInt64) rest else none

def numericByScan (data : List UInt8) (seed : UInt64) : Except Fault UInt64 := do
  let start := (firstVisible data).getD data.length
  let stop := (lastVisible data).elim start (· + 1)
  let name ← slice data start stop
  match readDigits 0 name with
  | some n => return n + seed
  | none => return uniform name seed

end HashedFeatures.Hash
