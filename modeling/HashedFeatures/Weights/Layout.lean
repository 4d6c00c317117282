import HashedFeatures.Fault

/-! The layout of a weight index: the feature hash in the high bits, then the sub-model, then the
place inside a stride slot. -/

set_option autoImplicit false

namespace HashedFeatures

namespace Word

def shiftLeft (word : UInt64) (amount : Nat) : Except Fault UInt64 :=
  if amount < 64 then .ok (word <<< UInt64.ofNat amount) else .error .overflow

def shiftRight (word : UInt64) (amount : Nat) : Except Fault UInt64 :=
  if amount < 64 then .ok (word >>> UInt64.ofNat amount) else .error .overflow

def add (left right : UInt64) : Except Fault UInt64 :=
  if left.toNat + right.toNat < UInt64.size then .ok (left + right) else .error .overflow

def lowMask (bits : Nat) : UInt64 :=
  if 64 ≤ bits then UInt64.ofNat (UInt64.size - 1) else UInt64.ofNat (1 <<< bits - 1)

end Word

/-- The widths of the three parts; their sum is a 32-bit number. -/
structure Layout where
  hashBits : UInt32
  widthBits : UInt32
  strideShift : UInt32
  total_lt : hashBits.toNat + widthBits.toNat + strideShift.toNat < UInt32.size

namespace Layout

def make (hashBits widthBits strideShift : UInt32) : Except Fault Layout :=
  if h : hashBits.toNat + widthBits.toNat + strideShift.toNat < UInt32.size then
    .ok { hashBits, widthBits, strideShift, total_lt := h }
  else .error .overflow

variable (layout : Layout)

def total : Nat :=
  layout.hashBits.toNat + layout.widthBits.toNat + layout.strideShift.toNat

/-- How far the hash part is shifted; also the number of index bits inside a block. -/
def blockShift : Nat :=
  layout.widthBits.toNat + layout.strideShift.toNat

def weightMask : UInt64 := Word.lowMask layout.total

def hashMask : UInt64 := Word.lowMask layout.hashBits.toNat

/-- The number of addressable weights, modulo 2^64. -/
def rawLength : UInt64 := layout.weightMask + 1

def stride : Except Fault UInt64 := Word.shiftLeft 1 layout.strideShift.toNat

def indexOf (hash width place : UInt64) : Except Fault UInt64 := do
  let high ← Word.shiftLeft hash layout.blockShift
  let middle ← Word.shiftLeft width layout.strideShift.toNat
  Word.add (← Word.add high middle) place

def stridedIndexOf (hashWidth place : UInt64) : Except Fault UInt64 := do
  Word.add (← Word.shiftLeft hashWidth layout.strideShift.toNat) place

def split (index : UInt64) : Except Fault (UInt64 × Nat) := do
  let masked := index &&& layout.weightMask
  let block ← Word.shiftRight masked layout.blockShift
  return (block, (masked &&& Word.lowMask layout.blockShift).toNat)

end Layout

end HashedFeatures
