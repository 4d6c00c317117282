/-! Namespace ids with a fixed meaning.

An id is one byte. Most ids belong to the user; the reserved ones keep their meaning for ever, so
that stored weights stay addressed in the same way.
-/

set_option autoImplicit false

namespace HashedFeatures.Namespace

def default : UInt8 := 32

/-- The id that stands for every interacting namespace, a colon. -/
def wildcard : UInt8 := 58

def constant : UInt8 := 128

/-- The id of the slot namespace, reserved and yet interacting. -/
def slot : UInt8 := 139

def defaultName : String := " "

/-- The audit name of a reserved id, empty for those that are never shown. -/
def reservedName : UInt8 → Option String
  | 32 => some " "
  | 58 => some ":"
  | 131 => some "neighbor"
  | 132 => some "affix"
  | 133 => some "spelling"
  | 134 => some "search_condition"
  | 135 => some "dictionary"
  | 140 => some "_ccb_slot_index"
  | 126 | 127 | 128 | 129 | 130 | 136 | 137 | 139 | 141 => some ""
  | _ => none

def interacts (ns : UInt8) : Bool :=
  ns == default || ns == slot || (reservedName ns).isNone

end HashedFeatures.Namespace
