import HashedFeatures.Namespace.Set
import HashedFeatures.Ngram.Definition
import HashedFeatures.Term.Stream
import HashedFeatures.Weights.Handle

/-! The configuration of an engine, its bounds, and what is built from it. -/

set_option autoImplicit false

namespace HashedFeatures

structure Config where
  hashSeed : UInt64
  hashMode : Hash.Mode
  bitPrecision : UInt32
  featureWidthBits : UInt32
  strideShift : UInt32
  sparseWeights : Bool
  permutations : Bool
  leaveDuplicateInteractions : Bool
  /-- Terms with one namespace id for each byte. -/
  interactions : List String
  /-- Namespaces without linear features, one for each byte. -/
  ignoreLinear : List String
  ngrams : List String
  skips : List String
  audit : Bool
  deriving DecidableEq, Repr

namespace Config

def default : Config where
  hashSeed := 0
  hashMode := .strings
  bitPrecision := 18
  featureWidthBits := 0
  strideShift := 0
  sparseWeights := false
  permutations := false
  leaveDuplicateInteractions := false
  interactions := []
  ignoreLinear := []
  ngrams := []
  skips := []
  audit := false

/-- The widths must leave at least one hash bit and at most 48 bits in all; terms are not empty. -/
def validate (config : Config) : Except Fault Unit := do
  let layout ← Layout.make config.bitPrecision config.featureWidthBits config.strideShift
  if config.bitPrecision = 0 ∨ maxTotalBits < layout.total then
    throw (.widths config.bitPrecision config.featureWidthBits config.strideShift)
  if config.interactions.any String.isEmpty then throw .emptyTerm

def layout (config : Config) : Except Fault Layout :=
  Layout.make config.bitPrecision config.featureWidthBits config.strideShift

def terms (config : Config) : List Term :=
  config.interactions.map Hash.bytes

def ignored (config : Config) : NamespaceSet :=
  .ofList (config.ignoreLinear.flatMap Hash.bytes)

def parseMask (config : Config) : UInt64 :=
  Word.lowMask config.bitPrecision.toNat

def selection (config : Config) : Selection :=
  .ofPermutations config.permutations

def termStream (config : Config) : TermStream :=
  .start config.selection config.leaveDuplicateInteractions

def newWeights (config : Config) : Attempt Memory Weights := do
  Memory.log ⟨.debug, "Allocating " ++ (if config.sparseWeights then "sparse" else "dense") ++
    " weights: 2^(" ++ toString config.bitPrecision.toNat ++ " + " ++
    toString config.featureWidthBits.toNat ++ " + " ++ toString config.strideShift.toNat ++ ")"⟩
  Weights.new config.sparseWeights (← config.layout)

/-- The n-grams, if any are configured; skips alone have no effect. -/
def ngramDefinitions (config : Config) : Except Fault (Option Ngrams) × List Record :=
  if config.ngrams.isEmpty then
    (.ok none,
      if config.skips.isEmpty then [] else [⟨.warn, "skips have no effect without ngrams"⟩])
  else
    let (outcome, records) := Ngrams.ofTexts config.ngrams config.skips
    (outcome.map some, records)

end Config

end HashedFeatures
