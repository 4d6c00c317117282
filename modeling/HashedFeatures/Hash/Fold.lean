/-! The running 32-bit hash that folds several feature indices into one.

Each word multiplies the state by the FNV prime and is then mixed in by exclusive or.
-/

set_option autoImplicit false

namespace HashedFeatures.Hash

structure Fold where
  state : UInt32
  deriving DecidableEq, Repr

namespace Fold

def start : Fold := ⟨2166136261⟩

def push (fold : Fold) (data : UInt32) : Fold :=
  ⟨(fold.state * 16777619) ^^^ data⟩

def ofWords (words : List UInt32) : Fold :=
  words.foldl push start

/-- The state cut to `bits` bits, the next higher bits folded in by exclusive or. -/
def truncated (fold : Fold) (bits : UInt32) : UInt32 :=
  if 32 ≤ bits then fold.state
  else (fold.state ^^^ (fold.state >>> bits)) &&& ((1 <<< bits) - 1)

end Fold

end HashedFeatures.Hash
