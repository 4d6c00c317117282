import HashedFeatures.Example.Space
import HashedFeatures.Term.Basic

/-! An example: its feature space, the terms to cross, and how feature indices become weight indices.

The fingerprint of the feature space is remembered until the space may have changed.
-/

set_option autoImplicit false

namespace HashedFeatures

structure Example where
  scale : UInt64
  offset : UInt64
  interactions : List Term
  seed : UInt64
  space : Space
  /-- The fingerprint of the space, if it was asked for since the last change. -/
  remembered : Option UInt64

namespace Example

def new (seed : UInt64) : Example :=
  { scale := 1, offset := 0, interactions := [], seed, space := .empty, remembered := none }

/-- Change the feature space; the remembered fingerprint is dropped. -/
def withSpace (ec : Example) (f : Space → Space) : Example :=
  { ec with space := f ec.space, remembered := none }

def freshById (ns : UInt8) : Group :=
  .named ((Namespace.reservedName ns).getD "")
    (if ns = Namespace.default then Hash.namespaceHash Namespace.defaultName 0 else ns.toUInt64)

/-- The group that a namespace name starts with; a reserved id keeps its own name. -/
def freshByName (ns : UInt8) (name : String) (seed : UInt64) : Group :=
  .named (((Namespace.reservedName ns).filter fun reserved => !reserved.isEmpty).getD name)
    (Hash.namespaceHash name seed)

inductive Address where
  | id (ns : UInt8)
  | name (name : String)
  deriving DecidableEq, Repr

def namespaceId (ec : Example) (name : String) : UInt8 := Hash.namespaceId name ec.seed

def resolve (ec : Example) : Address → UInt8
  | .id ns => ns
  | .name name => ec.namespaceId name

def fresh (ec : Example) : Address → Group
  | .id ns => freshById ns
  | .name name => freshByName (ec.namespaceId name) name ec.seed

def touch (ec : Example) (address : Address) : Example :=
  ec.withSpace fun space =>
    let ns := ec.resolve address
    space.insert ns ((space.get? ns).getD (ec.fresh address))

def get? (ec : Example) (address : Address) : Option Group :=
  ec.space.get? (ec.resolve address)

def group (ec : Example) (address : Address) : Group :=
  (ec.get? address).getD (ec.fresh address)

def setGroup (ec : Example) (ns : UInt8) (group : Group) : Example :=
  ec.withSpace (·.insert ns group)

def delete (ec : Example) (ns : UInt8) : Example :=
  ec.withSpace (·.erase ns)

def deleteAll (ec : Example) : Example :=
  ec.withSpace fun _ => .empty

def onGroup {α : Type} (address : Address) (step : Attempt Group α) : Attempt Example α := do
  modify (·.touch address)
  step.focus (·.group address) fun group ec => ec.setGroup (ec.resolve address) group

def nameOf (ec : Example) (ns : UInt8) : String :=
  ((ec.space.get? ns).map Group.name).getD ""

end Example

end HashedFeatures
