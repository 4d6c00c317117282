import HashedFeatures.Config.Text
import HashedFeatures.Proofs.Json.Scanning

/-! Written values as the moves of a reader.

A text that is written for a value takes the reader from the place before the value to the place behind
it, wherever the value stands. Arrays and objects share one layout: their items are taken one by one.
-/

set_option autoImplicit false

namespace HashedFeatures.Json

open Token (Scans)

namespace Reader

def Takes (text : List Char) (start reached : Reader) : Prop :=
  ∃ tokens, Scans text tokens ∧ tokens.foldlM step start = some reached

namespace Takes

variable {text more : List Char} {start middle reached : Reader} {c : Char} {token : Token}

theorem nil : Takes [] start start := ⟨[], .nil, rfl⟩

theorem append (first : Takes text start middle) (second : Takes more middle reached) (bounded : Bounded more) :
    Takes (text ++ more) start reached := by
  obtain ⟨tokens, scans, moved⟩ := first
  obtain ⟨others, follows, arrived⟩ := second
  refine ⟨tokens ++ others, scans.append follows bounded, ?_⟩
  rw [List.foldlM_append, moved]
  exact arrived

theorem one (scans : Scans text [token]) (moved : step start token = some reached) : Takes text start reached :=
  ⟨[token], scans, by rw [List.foldlM_cons, moved]; rfl⟩

theorem symbol (known : Token.ofSymbol c = some token) (moved : step start token = some middle)
    (takes : Takes text middle reached) : Takes (c :: text) start reached := by
  obtain ⟨tokens, scans, arrived⟩ := takes
  refine ⟨token :: tokens, scans.symbol known, ?_⟩
  rw [List.foldlM_cons, moved]
  exact arrived

theorem blank (blank : isBlank c = true) (takes : Takes text start reached) : Takes (c :: text) start reached := by
  obtain ⟨tokens, scans, arrived⟩ := takes
  exact ⟨tokens, scans.blank blank, arrived⟩

theorem blanks (count : Nat) (takes : Takes text start reached) :
    Takes (List.replicate count ' ' ++ text) start reached := by
  induction count with
  | zero => exact takes
  | succ count ih => exact ih.blank rfl

/-- The first token decides; what can only be taken from one state may be taken from one that allows more. -/
theorem weaken {wider : Reader} (wide : ∀ token next, step start token = some next → step wider token = some next)
    (moves : start ≠ reached) (takes : Takes text start reached) : Takes text wider reached := by
  obtain ⟨tokens, scans, arrived⟩ := takes
  refine ⟨tokens, scans, ?_⟩
  cases tokens with
  | nil => exact absurd (Option.some.inj arrived) moves
  | cons token tokens =>
    rw [List.foldlM_cons] at arrived ⊢
    obtain ⟨next, moved, rest⟩ := Option.bind_eq_some_iff.1 arrived
    rw [wide token next moved]
    exact rest

end Takes

end Reader

end HashedFeatures.Json

namespace HashedFeatures.Config

open Json Json.Reader

def lines (last : Char) (indent : Nat) : List (List Char) → List Char
  | [] => '\n' :: (List.replicate indent ' ' ++ [last])
  | item :: items => ',' :: '\n' :: (List.replicate (indent + 2) ' ' ++ (item ++ lines last indent items))

theorem bounded_lines (last : Char) (indent : Nat) (items : List (List Char)) : Bounded (lines last indent items) := by
  intro c head
  cases items with
  | nil => cases head; exact ⟨rfl, rfl⟩
  | cons item items => cases head; exact ⟨rfl, rfl⟩

theorem intercalate_eq_lines (last : Char) (indent : Nat) (item : List Char) (items : List (List Char)) :
    ",\n".toList.intercalate ((item :: items).map (List.replicate (indent + 2) ' ' ++ ·)) ++
        '\n' :: List.replicate indent ' ' ++ [last] =
      List.replicate (indent + 2) ' ' ++ (item ++ lines last indent items) := by
  induction items generalizing item with
  | nil => simp [lines]
  | cons next items ih =>
    have comma : ",\n".toList = [',', '\n'] := rfl
    rw [lines, ← ih next, List.map_cons, List.map_cons, List.intercalate_cons_cons, comma]
    simp [List.append_assoc]

theorem block_cons (first last : Char) (indent : Nat) (item : List Char) (items : List (List Char)) :
    block first last indent (item :: items) =
      first :: '\n' :: (List.replicate (indent + 2) ' ' ++ (item ++ lines last indent items)) := by
  rw [← intercalate_eq_lines]
  simp [block]

end HashedFeatures.Config

namespace HashedFeatures.Json

open Reader (Takes step)

structure Enclosure (α : Type) where
  first : Char
  last : Char
  outer : Reader
  start : Reader
  /-- Before an item that follows others, the last of those first. -/
  next : List α → Reader
  met : α → List α → Reader
  closed : List α → Reader
  opening : ∃ token, Token.ofSymbol first = some token ∧ step outer token = some start
  starts : ∀ token reached, step (next []) token = some reached → step start token = some reached
  moves : ∀ item, next [] ≠ met item []
  comma : ∀ item done, step (met item done) .comma = some (next (item :: done))
  closing : ∃ token, Token.ofSymbol last = some token ∧ step start token = some (closed []) ∧
    ∀ item done, step (met item done) token = some (closed (item :: done).reverse)

namespace Enclosure

variable {α : Type} (enclosure : Enclosure α) {texts : List (List Char)} {items : List α}

/-- A text that takes the reader through one item, whatever was read before. -/
def Item (text : List Char) (item : α) : Prop :=
  ∀ done, Takes text (enclosure.next done) (enclosure.met item done)

theorem takes_lines (each : List.Forall₂ enclosure.Item texts items) (indent : Nat) (item : α) (done : List α) :
    Takes (Config.lines enclosure.last indent texts) (enclosure.met item done)
      (enclosure.closed (done.reverse ++ item :: items)) := by
  induction each generalizing item done with
  | nil =>
    obtain ⟨token, known, -, close⟩ := enclosure.closing
    refine .blank rfl (.blanks indent (.symbol known (close item done) ?_))
    rw [List.reverse_cons]
    exact .nil
  | @cons text following texts items taken _ ih =>
    have rest := ih following (item :: done)
    rw [List.reverse_cons, List.append_assoc] at rest
    refine .symbol rfl (enclosure.comma item done) (.blank rfl (.blanks (indent + 2) ?_))
    exact (taken (item :: done)).append rest (Config.bounded_lines _ _ _)

theorem takes_block (each : List.Forall₂ enclosure.Item texts items) (indent : Nat) :
    Takes (Config.block enclosure.first enclosure.last indent texts) enclosure.outer (enclosure.closed items) := by
  obtain ⟨token, known, opened⟩ := enclosure.opening
  cases each with
  | nil =>
    obtain ⟨token, last, close, -⟩ := enclosure.closing
    exact .symbol known opened (.symbol last close .nil)
  | @cons text item texts items taken rest =>
    have head : Takes text enclosure.start (enclosure.met item []) :=
      (taken []).weaken enclosure.starts (enclosure.moves item)
    rw [Config.block_cons]
    refine .symbol known opened (.blank rfl (.blanks (indent + 2) ?_))
    exact head.append (enclosure.takes_lines rest indent item []) (Config.bounded_lines _ _ _)

def array (around : List Open) : Enclosure Value where
  first := '['
  last := ']'
  outer := .beforeValue around
  start := .atItems around
  next done := .beforeValue (.array done :: around)
  met item done := .behind item (.array done :: around)
  closed items := .behind (.array items) around
  opening := ⟨.beginArray, rfl, rfl⟩
  starts := by
    intro token reached moved
    cases token with
    | endArray => cases moved
    | _ => exact moved
  moves := by rintro item ⟨⟩
  comma _ _ := rfl
  closing := ⟨.endArray, rfl, rfl, fun _ _ => rfl⟩

def object (around : List Open) : Enclosure (Option String × Value) where
  first := '\x7b'
  last := '\x7d'
  outer := .beforeValue around
  start := .atMembers around
  next done := .beforeKey done around
  met item done := .behind item.2 (.object done item.1 :: around)
  closed items := .behind (.object items) around
  opening := ⟨.beginObject, rfl, rfl⟩
  starts := by
    intro token reached moved
    cases token with
    | text => exact moved
    | _ => cases moved
  moves := by rintro item ⟨⟩
  comma _ _ := rfl
  closing := ⟨.endObject, rfl, rfl, fun _ _ => rfl⟩

end Enclosure

/-- A text that is read as a value wherever a value may stand. -/
def Writes (text : List Char) (value : Value) : Prop :=
  ∀ around, Takes text (.beforeValue around) (.behind value around)

namespace Writes

theorem quote (text : String) : Writes (quote text) (.text (some text)) := fun _ => .one (.quote text) rfl

theorem number (n : Nat) : Writes (Config.writeNumber n) (.number (Config.writeNumber n)) := fun _ =>
  .one (.number n) rfl

theorem flag (b : Bool) : Writes (Config.writeFlag b) (.flag b) := by
  cases b with
  | false => exact fun _ => .one (.word rfl rfl) rfl
  | true => exact fun _ => .one (.word rfl rfl) rfl

theorem array {texts : List (List Char)} {values : List Value} (each : List.Forall₂ Writes texts values)
    (indent : Nat) : Writes (Config.block '[' ']' indent texts) (.array values) := fun around =>
  (Enclosure.array around).takes_block (each.imp fun _ _ writes done => writes (.array done :: around)) indent

theorem object {texts : List (List Char)} {values : List Value} (names : List String)
    (each : List.Forall₂ Writes texts values) (indent : Nat) :
    Writes (Config.block '\x7b' '\x7d' indent
        (List.zipWith (fun name text => Json.quote name ++ ':' :: ' ' :: text) names texts))
      (.object (List.zipWith (fun name value => (some name, value)) names values)) := by
  intro around
  refine (Enclosure.object around).takes_block ?_ indent
  induction each generalizing names with
  | nil => cases names <;> exact .nil
  | @cons text value texts values writes _ ih =>
    cases names with
    | nil => exact .nil
    | cons name names =>
      refine .cons (fun done => ?_) (ih names)
      have key : Takes (Json.quote name) (.beforeKey done around) (.beforeColon done (some name) around) :=
        .one (.quote name) rfl
      have rest := writes (.object done (some name) :: around)
      refine key.append (.symbol rfl rfl (.blank rfl rest)) ?_
      rintro _ ⟨⟩
      exact ⟨rfl, rfl⟩

theorem ofText {text : List Char} {value : Value} (writes : Writes text value) :
    Value.ofText (String.ofList text) = some value := by
  obtain ⟨tokens, scans, moved⟩ := writes []
  have scanned : Token.scan text = some tokens := by
    have all := scans [] [] (by rintro _ ⟨⟩)
    rw [List.append_nil, List.append_nil] at all
    rw [Token.scan, all, Token.scanOnto, List.reverse_reverse]
  rw [Value.ofText, String.toList_ofList, scanned]
  simp only [Option.bind_eq_bind, Option.bind_some, Value.ofTokens, moved]

end Writes

end HashedFeatures.Json
