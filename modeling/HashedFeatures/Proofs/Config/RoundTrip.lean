import HashedFeatures.Proofs.Json.Reading

/-! A configuration is read back from its own text.

The text is an object of all the fields, whose names differ. Every field reads what it has written, so the only
thing that can go wrong is that the configuration was not valid in the first place.
-/

set_option autoImplicit false

namespace HashedFeatures

namespace Json.Value

theorem toNat?_writeNumber {n bound : Nat} (small : n < bound) :
    (number (Config.writeNumber n)).toNat? bound = some n := by
  have digits : (Config.writeNumber n).all isDigit = true :=
    List.all_eq_true.2 fun _ member => isDigit_of_mem_toDigits member
  rw [toNat?, if_pos digits, Config.writeNumber, digitsValue_toDigits, if_pos small]

theorem toUInt64?_writeNumber (n : UInt64) : (number (Config.writeNumber n.toNat)).toUInt64? = some n := by
  rw [toUInt64?, toNat?_writeNumber n.toNat_lt_size, Option.map_some, UInt64.ofNat_toNat]

theorem toUInt32?_writeNumber (n : UInt32) : (number (Config.writeNumber n.toNat)).toUInt32? = some n := by
  rw [toUInt32?, toNat?_writeNumber n.toNat_lt_size, Option.map_some, UInt32.ofNat_toNat]

theorem toTexts?_texts (texts : List String) :
    (array (texts.map fun text => .text (some text))).toTexts? = some texts := by
  rw [toTexts?, List.mapM_map]
  induction texts with
  | nil => rfl
  | cons text texts ih =>
    rw [List.mapM_cons, ih]
    rfl

end Json.Value

theorem Hash.Mode.ofJson?_name (mode : Hash.Mode) : ofJson? (.text (some mode.name)) = some mode := by
  rw [ofJson?, ofName_name]
  rfl

namespace Config

open Json (Writes Value)

def values (config : Config) : List Value :=
  let texts := fun (items : List String) => Value.array (items.map fun text => .text (some text))
  [.number (writeNumber config.hashSeed.toNat), .text (some config.hashMode.name),
    .number (writeNumber config.bitPrecision.toNat), .number (writeNumber config.featureWidthBits.toNat),
    .number (writeNumber config.strideShift.toNat), .flag config.sparseWeights, .flag config.permutations,
    .flag config.leaveDuplicateInteractions, texts config.interactions, texts config.ignoreLinear,
    texts config.ngrams, texts config.skips, .flag config.audit]

def members (names : List String) (values : List Value) : List (Option String × Value) :=
  List.zipWith (fun name value => (some name, value)) names values

theorem writes_texts (texts : List String) :
    Writes (writeTexts texts) (.array (texts.map fun text => .text (some text))) := by
  refine .array ?_ 2
  induction texts with
  | nil => exact .nil
  | cons text texts ih => exact .cons (.quote text) ih

theorem writes_fields (config : Config) : List.Forall₂ Writes config.written config.values :=
  .cons (.number _) <| .cons (.quote _) <| .cons (.number _) <| .cons (.number _) <| .cons (.number _) <|
  .cons (.flag _) <| .cons (.flag _) <| .cons (.flag _) <| .cons (writes_texts _) <| .cons (writes_texts _) <|
  .cons (writes_texts _) <| .cons (writes_texts _) <| .cons (.flag _) .nil

theorem value_toText (config : Config) :
    Value.ofText config.toText = some (.object (members fieldNames config.values)) :=
  (Writes.object fieldNames config.writes_fields 0).ofText

theorem filter_members_of_notMem {name : String} {names : List String} (missing : name ∉ names)
    (values : List Value) :
    (members names values).filter (fun (key, _) => key == some name) = [] := by
  induction names generalizing values with
  | nil => rfl
  | cons other names ih =>
    cases values with
    | nil => rfl
    | cons value values =>
      obtain ⟨differs, missing⟩ := List.ne_and_not_mem_of_not_mem_cons missing
      simpa [members, Ne.symm differs] using ih missing values

-- Names that are all different find the values they were written with.
theorem forall₂_member? {names : List String} (distinct : names.Nodup) {values : List Value}
    (complete : names.length = values.length) :
    List.Forall₂ (fun name value => member? (members names values) name = some (some value)) names values := by
  induction names generalizing values with
  | nil =>
    rw [List.eq_nil_of_length_eq_zero complete.symm]
    exact .nil
  | cons name names ih =>
    obtain ⟨value, values, rfl⟩ := List.exists_cons_of_length_eq_add_one complete.symm
    obtain ⟨fresh, distinct⟩ := List.nodup_cons.1 distinct
    have rest := ih distinct (Nat.succ.inj complete)
    have others := (List.forall₂_and_left names values).2
      ⟨fun _ member => ne_of_mem_of_not_mem member fresh, rest⟩
    refine .cons ?_ (others.imp fun other found ⟨differs, same⟩ => ?_)
    · have none_left := filter_members_of_notMem fresh values
      simp only [members] at none_left
      simp [member?, members, none_left]
    · simpa [member?, members, Ne.symm differs] using same

theorem mapM_of_forall₂ {α β : Type} {f : α → Option β} {items : List α} {results : List β}
    (each : List.Forall₂ (fun item result => f item = some result) items results) :
    items.mapM f = some results := by
  induction each with
  | nil => rfl
  | cons first _ ih =>
    rw [List.mapM_cons, first, ih]
    rfl

theorem slots?_members (config : Config) :
    slots? (.object (members fieldNames config.values)) = some (config.values.map some) := by
  have named : (members fieldNames config.values).all (fun (key, _) => key.isSome) = true := rfl
  rw [slots?, if_pos named]
  refine mapM_of_forall₂ (List.forall₂_map_right_iff.2 ?_)
  exact forall₂_member? (by decide) rfl

theorem ofSlots?_values (config : Config) : ofSlots? (config.values.map some) = some config := by
  simp only [values, List.map_cons, List.map_nil, ofSlots?, field, Json.Value.toUInt64?_writeNumber,
    Json.Value.toUInt32?_writeNumber, Json.Value.toTexts?_texts, Hash.Mode.ofJson?_name, Json.Value.toBool?]
  rfl

/-- The text is an object with the fields in order. It is read back exactly if the configuration is valid, with
every field as it was. -/
theorem ofText_toText (config : Config) :
    Value.ofText config.toText = some (.object (members fieldNames config.values)) ∧
      ofText config.toText = config.validate.map fun _ => config := by
  refine ⟨value_toText config, ?_⟩
  have read : Value.ofText config.toText >>= slots? >>= ofSlots? = some config := by
    simp only [value_toText, slots?_members, ofSlots?_values, Option.bind_eq_bind, Option.bind_some]
  rw [ofText, read]

end Config

end HashedFeatures
