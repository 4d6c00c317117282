import HashedFeatures.Group.Basic
import HashedFeatures.Hash.Fold

/-! What an expansion reports: crossed features, and the labels they are nested in. -/

set_option autoImplicit false

namespace HashedFeatures

structure Weighted where
  value : Float32
  index : UInt64

inductive Event where
  | enter (label : Label)
  | feature (feature : Weighted)
  | leave

structure Addressing where
  hashBits : UInt32
  scale : UInt64
  offset : UInt64

namespace Addressing

def weightIndex (addressing : Addressing) (index : UInt64) : UInt64 :=
  index * addressing.scale + addressing.offset

def ofFold (addressing : Addressing) (fold : Hash.Fold) : UInt64 :=
  addressing.weightIndex (fold.truncated addressing.hashBits).toUInt64

end Addressing

namespace Hash.Fold

/-- Take the low half of a feature index into the hash. -/
def pushIndex (fold : Fold) (index : UInt64) : Fold :=
  fold.push index.toUInt32

end Hash.Fold

def nested (audit : Bool) (label : Label) (events : List Event) : List Event :=
  if audit then .enter label :: events ++ [.leave] else events

/-- Events together with the number of crossed features that the expansion counted. -/
structure Emission where
  events : List Event
  count : Nat

namespace Emission

def empty : Emission := ⟨[], 0⟩

def append (left right : Emission) : Emission :=
  ⟨left.events ++ right.events, left.count + right.count⟩

def concat (parts : List Emission) : Emission :=
  ⟨parts.flatMap events, (parts.map count).foldr (· + ·) 0⟩

def nested (audit : Bool) (label : Label) (emission : Emission) : Emission :=
  { emission with events := HashedFeatures.nested audit label emission.events }

end Emission

namespace Event

def features (events : List Event) : List Weighted :=
  events.filterMap fun
    | .feature w => some w
    | _ => none

structure Named where
  name : String
  feature : Weighted

def stack (names : List String) : Event → List String
  | .enter label => names ++ [label.render]
  | .feature _ => names
  | .leave => names.dropLast

structure Collection where
  names : List String
  met : List Named

def Collection.add (collection : Collection) (event : Event) : Collection where
  names := event.stack collection.names
  met :=
    match event with
    | .feature w => ⟨"*".intercalate collection.names, w⟩ :: collection.met
    | _ => collection.met

def named (names : List String) (events : List Event) : List Named :=
  (events.foldl Collection.add ⟨names, []⟩).met.reverse

end Event

end HashedFeatures
