import HashedFeatures.Example.Space
import HashedFeatures.Term.Stream
import Mathlib.Data.List.Basic
import Mathlib.Data.List.Induction

/-! Compiling along a stream is compiling once, against all the namespaces that were met.

The list is compiled again only when the set of namespaces has more members. Along a stream the set only grows, so
it has changed exactly if its size has.
-/

set_option autoImplicit false

namespace HashedFeatures

theorem Space.isSome_get?_insert {space : Space} {ns other : UInt8} {group : Group} :
    ((space.insert ns group).get? other).isSome = true ↔ other = ns ∨ (space.get? other).isSome = true := by
  rw [get?_insert]
  by_cases same : ns = other
  · simp [same]
  · simp [same, Ne.symm same]

theorem NamespaceSet.eq_of_size_eq {left right : NamespaceSet} (subset : ∀ ns ∈ left, ns ∈ right)
    (size : right.size = left.size) : left = right := by
  have inside : left.toList.Sublist right.toList := List.monotone_filter_right allIds subset
  have same : left.toList = right.toList := inside.eq_of_length size.symm
  exact ext fun ns => by rw [← mem_toList, same, mem_toList]

namespace TermStream

def Met (spaces : List Space) (ns : UInt8) : Prop :=
  ∃ space ∈ spaces, (space.get? ns).isSome = true ∧ Namespace.interacts ns = true

theorem met_append {spaces : List Space} {space : Space} {ns : UInt8} :
    Met (spaces ++ [space]) ns ↔
      Met spaces ns ∨ (space.get? ns).isSome = true ∧ Namespace.interacts ns = true := by
  simp [Met, or_and_right, exists_or]

def after (stream : TermStream) (templates : List Term) (spaces : List Space) : TermStream :=
  spaces.foldl (fun stream space => (stream.observe templates space.namespaces).stream) stream

theorem after_append (stream : TermStream) (templates : List Term) (spaces : List Space) (space : Space) :
    stream.after templates (spaces ++ [space]) =
      ((stream.after templates spaces).observe templates space.namespaces).stream := by
  rw [after, List.foldl_append]
  rfl

/-- The list of a stream is that of the namespaces which it has seen; at the start there is none. -/
structure Compiled (mode : Selection) (leaveDuplicates : Bool) (templates : List Term) (spaces : List Space)
    (stream : TermStream) : Prop where
  mode_eq : stream.mode = mode
  leaveDuplicates_eq : stream.leaveDuplicates = leaveDuplicates
  seen : ∀ ns, ns ∈ stream.seen ↔ Met spaces ns
  terms : stream.terms =
    if stream.seen = .empty then [] else (Term.compile mode leaveDuplicates stream.seen templates).terms

variable {mode : Selection} {leaveDuplicates : Bool} {templates : List Term} {spaces : List Space}
  {stream : TermStream}

theorem compiled_start (mode : Selection) (leaveDuplicates : Bool) (templates : List Term) :
    Compiled mode leaveDuplicates templates [] (start mode leaveDuplicates) where
  mode_eq := rfl
  leaveDuplicates_eq := rfl
  seen := by simp [start, Met]
  terms := rfl

def extended (stream : TermStream) (space : Space) : NamespaceSet :=
  stream.seen.union (.ofList (space.namespaces.filter Namespace.interacts))

theorem mem_extended {space : Space} {ns : UInt8} : ns ∈ stream.extended space ↔
    ns ∈ stream.seen ∨ (space.get? ns).isSome = true ∧ Namespace.interacts ns = true := by
  rw [extended, NamespaceSet.mem_union, NamespaceSet.mem_ofList, List.mem_filter, Space.mem_namespaces]

-- Nothing is compiled again while the set stays as it is.
theorem observe_of_seen {space : Space} (same : stream.extended space = stream.seen) :
    (stream.observe templates space.namespaces).stream = stream ∧
      (stream.observe templates space.namespaces).changed = false := by
  unfold observe
  rw [← extended, same, if_pos rfl]
  exact ⟨rfl, rfl⟩

theorem observe_of_new {space : Space} (new : stream.extended space ≠ stream.seen) :
    (stream.observe templates space.namespaces).stream = { stream with
        seen := stream.extended space
        terms := (Term.compile stream.mode stream.leaveDuplicates (stream.extended space) templates).terms } ∧
      (stream.observe templates space.namespaces).changed = true := by
  have larger : ¬ (stream.extended space).size = stream.seen.size := fun size =>
    new (NamespaceSet.eq_of_size_eq (fun ns member => mem_extended.2 (.inl member)) size).symm
  unfold observe
  rw [← extended, if_neg larger]
  exact ⟨rfl, rfl⟩

theorem Compiled.observe (compiled : Compiled mode leaveDuplicates templates spaces stream) (space : Space) :
    Compiled mode leaveDuplicates templates (spaces ++ [space])
      (stream.observe templates space.namespaces).stream := by
  have seen : ∀ ns, ns ∈ stream.extended space ↔ Met (spaces ++ [space]) ns := fun ns => by
    rw [mem_extended, met_append, compiled.seen]
  by_cases same : stream.extended space = stream.seen
  · rw [(observe_of_seen same).1]
    exact { compiled with seen := same ▸ seen }
  · rw [(observe_of_new same).1]
    -- A set that has grown is not empty.
    have occupied : stream.extended space ≠ .empty := by
      intro empty
      apply same
      refine NamespaceSet.ext fun ns => ⟨fun member => ?_, fun member => mem_extended.2 (.inl member)⟩
      exact absurd (empty ▸ member) (NamespaceSet.not_mem_empty ns)
    exact
      { mode_eq := compiled.mode_eq
        leaveDuplicates_eq := compiled.leaveDuplicates_eq
        seen
        terms := by rw [if_neg occupied, compiled.mode_eq, compiled.leaveDuplicates_eq] }

theorem compiled_after (mode : Selection) (leaveDuplicates : Bool) (templates : List Term) (spaces : List Space) :
    Compiled mode leaveDuplicates templates spaces ((start mode leaveDuplicates).after templates spaces) := by
  induction spaces using List.reverseRecOn with
  | nil => exact compiled_start mode leaveDuplicates templates
  | append_singleton spaces space ih =>
    rw [after_append]
    exact ih.observe space

theorem Compiled.changed_iff (compiled : Compiled mode leaveDuplicates templates spaces stream) (space : Space) :
    (stream.observe templates space.namespaces).changed = true ↔
      ∃ ns, Met (spaces ++ [space]) ns ∧ ¬ Met spaces ns := by
  simp only [← compiled.seen, met_append, ← mem_extended]
  by_cases same : stream.extended space = stream.seen
  · rw [(observe_of_seen same).2, same]
    simp
  · rw [(observe_of_new same).2, eq_self_iff_true, true_iff]
    by_contra none
    push Not at none
    exact same (NamespaceSet.ext fun ns => ⟨none ns, fun member => mem_extended.2 (.inl member)⟩)

/-- After every step of a stream the set that it has seen is that of all interacting namespaces met so far. The step
reports a change exactly if this set has grown, and the list is the one compiled from it at once. So the list does
not depend on the order in which the namespaces were met. -/
theorem observe_compiles (mode : Selection) (leaveDuplicates : Bool) (templates : List Term) :
    (∀ (past : List Space) (space : Space),
      let update := ((start mode leaveDuplicates).after templates past).observe templates space.namespaces
      (∀ ns, ns ∈ update.stream.seen ↔ Met (past ++ [space]) ns) ∧
        (update.changed = true ↔ ∃ ns, Met (past ++ [space]) ns ∧ ¬ Met past ns) ∧
        (update.stream.seen ≠ .empty →
          update.stream.terms = (Term.compile mode leaveDuplicates update.stream.seen templates).terms)) ∧
    ∀ left right : List Space, (∀ ns, Met left ns ↔ Met right ns) →
      ((start mode leaveDuplicates).after templates left).terms =
        ((start mode leaveDuplicates).after templates right).terms := by
  constructor
  · intro past space update
    have before := compiled_after mode leaveDuplicates templates past
    have now := before.observe space
    refine ⟨now.seen, before.changed_iff space, fun occupied => ?_⟩
    rw [now.terms, if_neg occupied]
  · intro left right same
    have first := compiled_after mode leaveDuplicates templates left
    have second := compiled_after mode leaveDuplicates templates right
    have seen : ((start mode leaveDuplicates).after templates left).seen =
        ((start mode leaveDuplicates).after templates right).seen :=
      NamespaceSet.ext fun ns => by rw [first.seen, second.seen, same]
    rw [first.terms, second.terms, seen]

/-- Two streams that meet a constant, which does not interact, and the same namespaces in another order. -/
theorem observe_compiles_reordered :
    let a := Space.empty.insert 97 .empty
    let b := (Space.empty.insert 98 .empty).insert Namespace.constant .empty
    let wild : List Term := [[Namespace.wildcard, Namespace.wildcard]]
    (∀ ns, Met [b, a] ns ↔ Met [a, b] ns) ∧
      ∃ update, ((start .combinations false).after wild [a]).observe wild b.namespaces = update ∧
        update.changed = true ∧ update.stream.seen = .ofList [97, 98] ∧ update.stream.seen ≠ .empty ∧
        update.stream.terms = (Term.compile .combinations false update.stream.seen wild).terms ∧
        ((start .combinations false).after wild [b, a]).terms = update.stream.terms := by
  intro a b wild
  obtain ⟨steps, orders⟩ := observe_compiles .combinations false wild
  have same : ∀ ns, Met [b, a] ns ↔ Met [a, b] ns := fun ns => by simp [Met, or_comm]
  have first : ∀ ns, Met [a] ns ↔ ns = 97 := fun ns => by
    have : Namespace.interacts 97 = true := by decide
    simp only [Met, List.mem_singleton, exists_eq_left, a, Space.isSome_get?_insert, Space.get?_empty]
    grind
  have both : ∀ ns, Met ([a] ++ [b]) ns ↔ ns = 97 ∨ ns = 98 := fun ns => by
    have : Namespace.interacts 98 = true := by decide
    have : Namespace.interacts Namespace.constant = false := by decide
    rw [met_append, first]
    simp only [b, Space.isSome_get?_insert, Space.get?_empty]
    grind
  obtain ⟨seen, changed, terms⟩ := steps [a] b
  have sorted := orders [b, a] [a, b] same
  rw [show [a, b] = [a] ++ [b] from rfl, after_append] at sorted
  generalize ((start .combinations false).after wild [a]).observe wild b.namespaces = update at seen changed terms sorted
  have known : update.stream.seen = .ofList [97, 98] :=
    NamespaceSet.ext fun ns => by
      rw [seen, both, NamespaceSet.mem_ofList]
      simp
  have occupied : update.stream.seen ≠ .empty := by
    rw [known]
    decide
  exact ⟨same, update, rfl, changed.2 ⟨98, (both 98).2 (.inr rfl), by rw [first]; decide⟩, known, occupied,
    terms occupied, sorted⟩

end TermStream

end HashedFeatures
