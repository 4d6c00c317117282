import HashedFeatures.Fault
import HashedFeatures.Hash.Name
import HashedFeatures.Record

/-! Definitions of n-grams and skips.

A bare number holds for every namespace, a number behind a namespace character for that namespace.
A later definition overrides an earlier one.
-/

set_option autoImplicit false

namespace HashedFeatures

structure GramDefinition where
  /-- The namespace, or none for all of them. -/
  target : Option UInt8
  count : Nat
  deriving DecidableEq, Repr

namespace GramDefinition

def readCount (digits : List UInt8) : Option Nat :=
  let digits := match digits with | 0x2B :: rest => rest | digits => digits
  if digits.isEmpty || !digits.all Hash.isDigit then none
  else
    let count := digits.foldl (fun n b => n * 10 + (b.toNat - 0x30)) 0
    if count < UInt32.size then some count else none

/-- The number behind a namespace character; a character of several bytes leaves none. -/
def behindNamespace (first : UInt8) (rest : List UInt8) : List UInt8 :=
  if first < 0x80 then rest else []

def read (kind : GramKind) (text : String) : Except Fault GramDefinition :=
  match Hash.bytes text with
  | [] => .error (.emptyDefinition kind)
  | first :: rest =>
    if Hash.isDigit first then
      match readCount (first :: rest) with
      | some count => .ok ⟨none, count⟩
      | none => .error (.unreadableDefinition kind text)
    else if rest.isEmpty then .error (.bareDefinition kind text)
    else
      match readCount (behindNamespace first rest) with
      | some count => .ok ⟨some first, count⟩
      | none => .error (.unreadableDefinition kind text)

/-- The definitions in front of the first ill-formed one, and its fault. -/
def readAll (kind : GramKind) : List String → List GramDefinition × Option Fault
  | [] => ([], none)
  | text :: texts =>
    match read kind text with
    | .error fault => ([], some fault)
    | .ok definition =>
      let (more, fault) := readAll kind texts
      (definition :: more, fault)

def record (kind : GramKind) (definition : GramDefinition) : Record :=
  let what := "Generating " ++ toString definition.count ++ "-" ++ kind.word
  match definition.target with
  | none => ⟨.info, what ++ " for all namespaces."⟩
  | some ns => ⟨.info, what ++ " for " ++ String.singleton (Char.ofNat ns.toNat) ++ " namespaces."⟩

end GramDefinition

structure GramTable where
  fallback : Nat
  /-- The numbers of single namespaces, the latest first. -/
  named : List (UInt8 × Nat)

namespace GramTable

def empty : GramTable := ⟨0, []⟩

def define (table : GramTable) (definition : GramDefinition) : GramTable :=
  match definition.target with
  | none => { table with fallback := definition.count }
  | some ns => { table with named := (ns, definition.count) :: table.named }

def ofDefinitions (definitions : List GramDefinition) : GramTable :=
  definitions.foldl define empty

def countFor (table : GramTable) (ns : UInt8) : Nat :=
  (table.named.lookup ns).getD table.fallback

end GramTable

structure Ngrams where
  grams : GramTable
  skips : GramTable

namespace Ngrams

def ofTexts (grams skips : List String) : Except Fault Ngrams × List Record :=
  let (gramList, gramFault) := GramDefinition.readAll .grams grams
  let gramRecords := gramList.map (GramDefinition.record .grams)
  match gramFault with
  | some fault => (.error fault, gramRecords)
  | none =>
    let (skipList, skipFault) := GramDefinition.readAll .skips skips
    let records := gramRecords ++ skipList.map (GramDefinition.record .skips)
    match skipFault with
    | some fault => (.error fault, records)
    | none => (.ok ⟨.ofDefinitions gramList, .ofDefinitions skipList⟩, records)

def gramsFor (ngrams : Ngrams) (ns : UInt8) : Nat := ngrams.grams.countFor ns

def skipsFor (ngrams : Ngrams) (ns : UInt8) : Nat := ngrams.skips.countFor ns

end Ngrams

end HashedFeatures
