/-! The reasons for which an operation of the library stops, and their wording. -/

set_option autoImplicit false

namespace HashedFeatures

inductive GramKind where
  | grams
  | skips
  deriving DecidableEq, Repr

def GramKind.word : GramKind → String
  | .grams => "grams"
  | .skips => "skips"

def maxTotalBits : Nat := 48

inductive Fault where
  /-- Sparse weights were asked to move into shared memory. -/
  | shareSparse
  /-- Sparse weights were asked for one contiguous view. -/
  | sliceSparse
  /-- A weight array without cells was asked to move into shared memory. -/
  | shareEmpty
  | widths (hashBits widthBits strideShift : UInt32)
  | emptyTerm
  | emptyDefinition (kind : GramKind)
  | bareDefinition (kind : GramKind) (definition : String)
  | unreadableDefinition (kind : GramKind) (definition : String)
  | unknownHashMode (name : String)
  /-- A configuration text that is not JSON or has a field of the wrong type. -/
  | malformedText
  | overflow
  | outOfBounds
  /-- More memory was asked for than can be addressed. -/
  | unaddressable
  /-- A sort met items that contradict their order. -/
  | inconsistentOrder
  | truncatePastEnd
  | auditMismatch
  | leftUnsorted
  | rightUnsorted
  /-- A body gave up before its end. -/
  | aborted
  deriving DecidableEq, Repr

namespace Fault

inductive Class where
  | unsupported
  | sharedMemory
  | invalidConfig
  | unknownHashMode
  | malformedText
  | broken
  | aborted
  deriving DecidableEq, Repr

def kind : Fault → Class
  | .shareSparse | .sliceSparse => .unsupported
  | .shareEmpty => .sharedMemory
  | .widths .. | .emptyTerm | .emptyDefinition _ | .bareDefinition .. | .unreadableDefinition .. =>
    .invalidConfig
  | .unknownHashMode _ => .unknownHashMode
  | .malformedText => .malformedText
  | .overflow | .outOfBounds | .unaddressable | .inconsistentOrder | .truncatePastEnd
  | .auditMismatch | .leftUnsorted | .rightUnsorted => .broken
  | .aborted => .aborted

def detail : Fault → Option String
  | .shareSparse => some "sparse weights cannot be shared between processes"
  | .sliceSparse => some "sparse weights have no contiguous storage"
  | .shareEmpty => some "cannot share an empty weight array"
  | .widths hash width stride =>
    some ("bit_precision " ++ toString hash.toNat ++ " + feature_width_bits " ++ toString width.toNat ++
      " + stride_shift " ++ toString stride.toNat ++ " must be in 1..=" ++ toString maxTotalBits)
  | .emptyTerm => some "empty interaction term \"\""
  | .emptyDefinition kind => some ("empty " ++ kind.word ++ " definition")
  | .bareDefinition kind text =>
    some ("the " ++ kind.word ++ " definition '" ++ text ++ "' must be a namespace followed by a number")
  | .unreadableDefinition kind text => some ("cannot parse " ++ kind.word ++ " definition '" ++ text ++ "'")
  | .unknownHashMode name => some (name ++ " (expected \"strings\" or \"all\")")
  | .truncatePastEnd => some "truncate_to past the end"
  | .auditMismatch => some "concat of groups with mismatched audit state"
  | .leftUnsorted => some "left side unsorted"
  | .rightUnsorted => some "right side unsorted"
  | .malformedText | .overflow | .outOfBounds | .unaddressable | .inconsistentOrder | .aborted => none

def Class.heading : Class → String
  | .unsupported => "Unsupported operation: "
  | .sharedMemory => "Shared memory error: "
  | .invalidConfig => "Invalid configuration: "
  | .unknownHashMode => "Unknown hash mode: "
  | .malformedText | .broken | .aborted => ""

def message (fault : Fault) : Option String :=
  fault.detail.map (fault.kind.heading ++ ·)

end Fault

end HashedFeatures
