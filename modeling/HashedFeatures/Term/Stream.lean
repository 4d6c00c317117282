import HashedFeatures.Term.Compile

/-! Compilation along a stream of examples: the list is compiled again when a namespace is new. -/

set_option autoImplicit false

namespace HashedFeatures

structure TermStream where
  mode : Selection
  leaveDuplicates : Bool
  seen : NamespaceSet
  terms : List Term

namespace TermStream

def start (mode : Selection) (leaveDuplicates : Bool) : TermStream :=
  { mode, leaveDuplicates, seen := .empty, terms := [] }

structure Update where
  stream : TermStream
  changed : Bool
  records : List Record

def observe (stream : TermStream) (templates : List Term) (present : List UInt8) : Update :=
  let seen := stream.seen.union (.ofList (present.filter Namespace.interacts))
  if seen.size = stream.seen.size then { stream := { stream with seen }, changed := false, records := [] }
  else
    let compiled := Term.compile stream.mode stream.leaveDuplicates seen templates
    { stream := { stream with seen, terms := compiled.terms }
      changed := true
      records := compiled.records ++
        [⟨.debug, "Recompiled " ++ toString templates.length ++ " interaction specs over " ++
          toString seen.size ++ " namespaces into " ++ toString compiled.terms.length ++ " terms"⟩] }

end TermStream

end HashedFeatures
