import HashedFeatures.Attempt
import HashedFeatures.Hash.Name
import HashedFeatures.Namespace.Reserved
import HashedFeatures.Single

/-! The features of one namespace.

A group holds its features in order of insertion, a label for each of them when they are audited,
and the running sum of the squared values.
-/

set_option autoImplicit false

namespace HashedFeatures

structure Feature where
  index : UInt64
  amount : Single
  deriving BEq

def Feature.value (feature : Feature) : Float32 := feature.amount.number

structure Label where
  namespaceName : String
  namespaceHash : UInt64
  feature : String
  value : String
  deriving DecidableEq, Repr

namespace Label

def empty : Label := ⟨"", 0, "", ""⟩

def isEmpty (label : Label) : Bool :=
  label.namespaceName.isEmpty && label.feature.isEmpty && label.value.isEmpty

/-- The namespace, the feature and its text, joined by carets; the default namespace is left out. -/
def render (label : Label) : String :=
  (if label.namespaceName.isEmpty || label.namespaceName == Namespace.defaultName then ""
    else label.namespaceName ++ "^") ++
  label.feature ++
  (if label.value.isEmpty then "" else "^" ++ label.value)

end Label

def addSquares (start : Float32) (features : List Feature) : Float32 :=
  features.foldl (fun sum f => sum + f.value * f.value) start

/-- The sum of the squared values; a sum of nothing is minus zero, the neutral element. -/
def sumOfSquares (features : List Feature) : Float32 :=
  addSquares (-0.0) features

structure Group where
  name : String
  hash : UInt64
  /-- The factor of every value that is added by name. -/
  multiplier : Single
  features : List Feature
  /-- The labels of the features from the first on, or none at all. -/
  labels : List Label
  sumSquares : Float32
  deriving BEq

namespace Group

def named (name : String) (hash : UInt64) : Group :=
  { name, hash, multiplier := .one, features := [], labels := [], sumSquares := 0 }

def empty : Group := named "" 0

def length (group : Group) : Nat := group.features.length

def isEmpty (group : Group) : Bool := group.features.isEmpty

def isAudited (group : Group) : Bool := !group.labels.isEmpty

def labelAt (group : Group) (position : Nat) : Label :=
  group.labels[position]?.getD .empty

def recompute (group : Group) : Group :=
  { group with sumSquares := sumOfSquares group.features }

def clear (group : Group) : Group :=
  { group with features := [], labels := [], sumSquares := 0 }

def append (group : Group) (features : List Feature) : Group :=
  { group with
    features := group.features ++ features
    sumSquares := addSquares group.sumSquares features }

def push (group : Group) (index : UInt64) (amount : Single) : Group :=
  group.append [⟨index, amount⟩]

def labelFor (group : Group) (feature : String) (value : String) : Label :=
  ⟨group.name, group.hash, feature, value⟩

def appendLabels (group : Group) (features : List String) : Group :=
  { group with labels := group.labels ++ features.map fun feature => group.labelFor feature "" }

def pushLabel (group : Group) (feature : String) (value : String) : Group :=
  { group with labels := group.labels ++ [group.labelFor feature value] }

def pushLabelled (group : Group) (index : UInt64) (amount : Single) (audit : Bool)
    (feature text : String) : Group :=
  let pushed := group.push index amount
  if audit then pushed.pushLabel feature text else pushed

def addNamed (group : Group) (name : String) (value : Single) (audit : Bool) : Group :=
  group.pushLabelled (Hash.feature name group.hash) (value.mul group.multiplier) audit name ""

def addNumbered (group : Group) (number : UInt64) (value : Single) (audit : Bool) : Group :=
  group.pushLabelled (Hash.numbered number group.hash) (value.mul group.multiplier) audit
    (toString number.toNat) ""

/-- A feature whose value is a text enters with the group's factor as its value. -/
def addText (group : Group) (name text : String) (audit : Bool) : Group :=
  group.pushLabelled (Hash.chain name text group.hash) group.multiplier audit name text

def addNumberedText (group : Group) (number : UInt64) (text : String) (audit : Bool) : Group :=
  group.pushLabelled (Hash.chainNumbered number text group.hash) group.multiplier audit
    (toString number.toNat) text

/-- Overwrite values from the first feature on; the sum of squares stays as it was. -/
def setValues (group : Group) (values : List Single) : Group :=
  { group with
    features := List.zipWith (fun f amount => { f with amount }) group.features values ++
      group.features.drop values.length }

def setIndices (group : Group) (indices : List UInt64) : Group :=
  { group with
    features := List.zipWith (fun f index => { f with index }) group.features indices ++
      group.features.drop indices.length }

/-- Shrink to the first `length` features when the squares of the others sum up to `removed`. -/
def truncateKnowing (group : Group) (length : Nat) (removed : Float32) : Except Fault Group :=
  if group.length < length then .error .truncatePastEnd
  else .ok { group with
    features := group.features.take length
    labels := group.labels.take length
    sumSquares := group.sumSquares - removed }

def truncate (group : Group) (length : Nat) : Except Fault Group :=
  group.truncateKnowing length (sumOfSquares (group.features.drop length))

def concat (group other : Group) : Except Fault Group :=
  if !group.isEmpty && group.isAudited != other.isAudited then .error .auditMismatch
  else .ok { group with
    features := group.features ++ other.features
    labels := group.labels ++ other.labels
    sumSquares := group.sumSquares + other.sumSquares }

def labelled (group : Group) : List (Feature × Option Label) :=
  let labels := group.labels.toArray
  group.features.zipIdx.map fun (feature, position) => (feature, labels[position]?)

def stash : Guard Group where
  Saved := Group
  save := id
  opened := id
  closed := fun saved _ => saved

end Group

end HashedFeatures
