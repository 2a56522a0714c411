import Avro.Proofs.Pairing

/-!
Contract: what is written is read back.

Owns: `Exact`, that reading succeeds on whole encodings; and that, for every well-typed schema, a
value that the schema accepts and that is written comes back in its normal form, and reading stops
where writing stopped.

The proof goes by depth. At each depth every kind of type is paired with its reading, and what is
read of the parts makes up the normal form; the parts of a value are carried by the hypothesis for
the depth below.
-/

namespace Avro

open Datum (sizeLimit)
open Decode (Reader fieldKey fieldsOf insertEntry readKind readerPart)
open Encode (Writer writeFields writeKind)
open Schema (attributeOf integer? kindOf typeOf wellTyped)
open Validation (check checkArray checkFixed checkKind checkMap checkRecord fieldValue fieldView
  fitsBits sequenceItems?)

open BinaryInput BinaryOutput Labelled

variable {schema place field : Json} {kind : Kind} {given : Datum} {registry : Registry}
  {depth : Nat}

/-! ### Reading whole encodings -/

theorem Reads.orTruncated {α : Type} {step : ReadM BinaryInput α} {bytes : Bytes} {value : α}
    (type : Json) (reads : Reads step bytes value) :
    Reads (Decode.orTruncated type step) bytes value := by
  intro rest count
  obtain ⟨after, done⟩ := reads rest count
  refine ⟨after, ?_⟩
  unfold Decode.orTruncated
  rw [done]

/-- Reading succeeds on a whole encoding, and gives a good value. -/
def Exact : ReadLogic where
  total := True
  cut := False
  whole _ isCut := isCut
  holds step labels good := ∃ value, good value ∧ Reads step (bytesOf labels) value
  pure isGood := ⟨_, isGood, Reads.pure _⟩
  throw notTotal := absurd trivial notTotal
  bind := by
    rintro α β first next front back good better ⟨value, isGood, reads⟩ nextReads
    obtain ⟨result, isBetter, readsResult⟩ := nextReads value isGood
    rw [bytesOf_append]
    exact ⟨result, isBetter, reads.bind readsResult⟩
  orTruncated := by
    rintro α step labels good ⟨value, isGood, reads⟩ type
    exact ⟨value, isGood, reads.orTruncated type⟩
  varint number := by
    rw [bytesOf_all]
    exact ⟨_, rfl, fun rest count => ⟨count, readVarint_encode number rest count⟩⟩
  fixedWidth small := by
    rw [bytesOf_all]
    exact ⟨_, rfl, Reads.fixedWidth small⟩
  takeSized small := by
    rw [bytesOf_all]
    exact ⟨_, fun _ => rfl, Reads.takeSized small⟩
  emptyCollection step := by
    rw [bytesOf_all]
    exact ⟨[], rfl, Reads.emptyCollection step⟩
  oneBlock := by
    rintro α step count labels good positive small ⟨values, areGood, reads⟩
    rw [bytesOf_append, bytesOf_append, bytesOf_all, bytesOf_all]
    exact ⟨values, areGood, Reads.oneBlock positive small reads⟩

section Exact

variable {α : Type} {write : WriteM BinaryOutput Unit} {labelled : WriteM LabelledOutput Unit}
  {read : ReadM BinaryInput α} {good : α → Prop} {expected : Outcome α}

theorem Carries.of_pairs (paired : Exact.Pairs write labelled read good)
    (formed : ∀ value, good value → expected = .ok value) : Carries write read expected := by
  intro output after written
  obtain ⟨labels, appended, -, value, isGood, reads⟩ := paired output after written
  exact ⟨_, value, appended, formed value isGood, reads⟩

theorem Carries.pairs (carries : Carries write read expected)
    (labelled : WriteM LabelledOutput Unit) :
    Exact.Pairs write labelled read (expected = .ok ·) := by
  intro output after written
  obtain ⟨bytes, value, appended, valueIs, reads⟩ := carries output after written
  refine ⟨all false bytes, ?_, False.elim, value, valueIs, ?_⟩
  · rwa [bytesOf_all]
  · rwa [bytesOf_all]

end Exact

/-- Reading by a node of a built-in kind, without a reader's schema and without a logical type. -/
theorem reads_succ {bytes : Bytes} {value : Datum}
    (unchanged : ∀ type datum, Decode.finish schema .null type datum = .ok datum)
    (kindIs : kindOf schema = .ok kind) (builtIn : kind.isBuiltIn = true)
    (reads : Reads (readKind registry (Decode.read registry depth) (Decode.skip registry depth)
      schema .null false
      kind) bytes value) :
    Reads (Decode.read registry (depth + 1) schema .null false) bytes value := by
  rw [← bytesOf_all false bytes] at reads
  have finished (type : Json) (found : Datum) (isValue : value = found) :
      Exact.holds (ReadM.lift (Decode.finish schema .null type found)) [] (value = ·) := by
    rw [unchanged]
    exact Exact.pure isValue
  obtain ⟨_, rfl, whole⟩ := Exact.read_builtIn kindIs builtIn ⟨value, rfl, reads⟩ finished
  rwa [bytesOf_all] at whole

/-! ### Normal forms from the forms of parts -/

section Fields

variable {write : Writer BinaryOutput} {entries : List (Datum × Datum)} {node : Json}

/-- A name that is a text is the key under which the value of a field is read. -/
theorem fieldKey_of_isText {name : Json} (nameIs : attributeOf node "name" = .ok name)
    (isText : Schema.isText name = true) :
    fieldKey node = .ok name ∧ ∀ record value,
      Decode.insertField record name value = insertEntry record (Datum.ofJson name, value) := by
  cases name with
  | str text =>
    refine ⟨?_, fun record value => rfl⟩
    rw [fieldKey, nameIs]
    rfl
  | _ => exact absurd isText Bool.false_ne_true

end Fields

section Parts

variable {form : Former} {datum value : Datum} {items : List Datum} {entries : List (Datum × Datum)}

private theorem array_formed {values : List Datum} (itemsAre : sequenceItems? datum = some items)
    (formed : List.Forall₂ (fun item value => ∃ node, attributeOf schema "items" = .ok node ∧
      form node item = .ok value)
      items values) : Former.array form schema datum = .ok (.list values) := by
  rw [Former.array, itemsAre]
  refine outcome_bind_ok.mpr ⟨values, mapM_ok.mpr (formed.imp ?_), rfl⟩
  rintro item value ⟨node, nodeIs, itemFormed⟩
  exact outcome_bind_ok.mpr ⟨node, nodeIs, itemFormed⟩

private theorem map_formed {found : List (Datum × Datum)}
    (formed : List.Forall₂ (fun entry pair => (¬ Exact.cut → pair.1 = entry.1) ∧
      ∃ node, attributeOf schema "values" = .ok node ∧ form node entry.2 = .ok pair.2)
      entries found) :
    Former.map form schema (.dict entries) = .ok (.dict (found.foldl insertEntry [])) := by
  refine outcome_bind_ok.mpr ⟨found, mapM_ok.mpr (formed.imp ?_), rfl⟩
  rintro entry ⟨key, value⟩ ⟨isKey, node, nodeIs, valueFormed⟩
  obtain rfl := isKey id
  exact outcome_bind_ok.mpr ⟨node, nodeIs, outcome_bind_ok.mpr ⟨value, valueFormed, rfl⟩⟩

/-- The fields of a record whose names are texts take their places under these. -/
theorem record_formed {nodes : List Json} {found : List (Json × Datum)}
    (nodesAre : fieldsOf schema = .ok nodes)
    (named : ∀ node ∈ nodes, ∀ view, fieldView node = .ok view → Schema.isText view.name = true)
    (formed : List.Forall₂ (fun node pair => ∃ view, fieldView node = .ok view ∧
      view.name = pair.1 ∧
      form view.type (fieldValue entries view.name view.default) = .ok pair.2) nodes found) :
    Former.record form schema (.dict entries) =
      .ok (.dict (found.foldl (fun record pair => Decode.insertField record pair.1 pair.2)
        [])) := by
  have fieldsFormed (record : List (Datum × Datum)) :
      (nodes.mapM (Former.field form entries) >>= fun forms =>
      pure (forms.foldl insertEntry record)) =
        Except.ok (found.foldl (fun record pair => Decode.insertField record pair.1 pair.2)
          record) := by
    clear nodesAre
    induction formed generalizing record with
    | nil => rfl
    | @cons node pair _ _ fieldFormed _ ih =>
      rw [List.forall_mem_cons] at named
      obtain ⟨view, viewIs, nameIs, valueFormed⟩ := fieldFormed
      have insertIs := (fieldKey_of_isText (attributes_of_fieldView viewIs).2
        (named.1 view viewIs)).2
      have others := ih named.2 (Decode.insertField record pair.1 pair.2)
      rw [← nameIs, insertIs] at others
      simp only [List.mapM_cons, Former.field, viewIs, valueFormed, outcome_ok_bind, bind_assoc,
        pure_bind, List.foldl_cons]
      rw [← nameIs, insertIs]
      exact others
  simp only [Former.record, nodesAre, outcome_ok_bind]
  have whole := fieldsFormed []
  obtain ⟨forms, formsAre, whole⟩ := outcome_bind_ok.mp whole
  rw [formsAre, ← Except.ok.inj whole]
  rfl

end Parts

/-- A number of at most 64 bits is written and read as it is. -/
theorem unzigzag_of_fits {bits : Nat} {value : Int} (few : bits ≤ 64)
    (fits : fitsBits bits value = true) : Varint.unzigzag (Varint.zigzag value) = value := by
  have power : Nat.pow 2 (bits - 1) ≤ 2 ^ 63 := Nat.pow_le_pow_right (by decide) (by omega)
  simp only [fitsBits, Bool.and_eq_true, decide_eq_true_eq] at fits
  exact Varint.unzigzag_zigzag (by omega) (by omega)

private theorem kind_ne_request {checkItem : Validation.Checker} (typed : wellTyped schema = true)
    (kindIs : kindOf schema = .ok kind)
    (valid : checkKind registry false checkItem schema place given kind = .ok true) :
    kind ≠ .request := by
  rintro rfl
  cases schema with
  | obj members =>
    obtain ⟨word, typeIs, isWord, -⟩ := Schema.wellTyped_obj_iff.mp typed
    rw [Schema.kindOf_obj typeIs] at kindIs
    have wordIs : word = "request" := by
      rw [← Kind.word_ofName word, Except.ok.inj kindIs]
      rfl
    rw [wordIs] at isWord
    exact absurd isWord (by decide)
  | arr branches => simp [kindOf, typeOf, Kind.ofType, Kind.ofName] at kindIs
  | str text => simp [checkKind, checkRecord, Schema.qualifiedName, bind, Except.bind] at valid
  | _ => simp [wellTyped] at typed

private theorem carries_fixedSize {content : Bytes} (typed : wellTyped schema = true)
    (kindIs : kindOf schema = .ok .fixed) (valid : checkFixed schema (.bytes content) = .ok true) :
    Carries (writeKind registry depth (Encode.write registry depth) schema field
      (.bytes content) .fixed)
      (readKind registry (Decode.read registry depth) (Decode.skip registry depth) schema .null
        false .fixed)
      (.ok (.bytes content)) := by
  obtain ⟨size, sizeIs, valid⟩ := outcome_bind_ok.mp valid
  have isInteger := Schema.isInteger_size typed kindIs sizeIs
  have counts : integer? size = some (content.length : Int) := by
    cases size with
    | int count =>
      have same := Except.ok.inj valid
      simp only [Json.same, Json.integral?, beq_iff_eq, Option.some.injEq] at same
      rw [integer?, same]
    | _ => simp [Schema.isInteger] at isInteger
  have paired : Exact.Pairs (writeRaw (.bytes content))
    (LabelledOutput.label true (writeRaw (.bytes content)))
      (readFixedSize size) fun found => ¬ Exact.cut → found = .bytes content := by
    apply (Labels.raw (.bytes content)).imp
    rintro _ ⟨_, ⟨⟩, small, rfl⟩
    exact Exact.fixed small counts
  simp only [readKind, sizeIs, readLift_ok_bind]
  exact .of_pairs paired fun found isWhole => by rw [isWhole id]

/-- At a depth, every value that a well-typed schema accepts is carried as its normal form. -/
def CarriesAccepted (registry : Registry) (depth : Nat) : Prop :=
  ∀ ⦃given : Datum⦄ ⦃schema field place : Json⦄ ⦃level : Nat⦄, wellTyped schema = true →
    check registry false level given schema place = .ok true →
    Carries (Encode.write registry depth given schema field)
      (Decode.read registry depth schema .null false)
      (normalForm registry depth schema given)

abbrev IsNormalForm (registry : Registry) (depth : Nat) (node : Json) (value form : Datum) : Prop :=
  normalForm registry depth node value = .ok form

section Accepted

variable {registry : Registry} {depth below : Nat} {schema place field : Json} {given : Datum}
  {kind : Kind}

section

variable (carried : CarriesAccepted registry depth) (typed : wellTyped schema = true)
include carried typed

theorem CarriesAccepted.union
    (valid : Validation.checkUnion false (check registry false below) schema place
    given = .ok true) :
    Carries (Encode.writeUnion registry depth (Encode.write registry depth) schema field given)
      (Decode.readUnion registry (Decode.read registry depth) schema .null false)
      (Former.union registry depth (normalForm registry depth) schema given) := by
  refine .of_pairs (pairs_union (Encode.write registry depth) (IsNormalForm registry depth) ?_) ?_
  · intro index value branch chosen branchIs
    obtain ⟨level, spot, accepted⟩ := choose_accepts valid chosen branchIs
    exact (carried (wellTyped_documentItemAt typed branchIs) accepted).pairs _
  · rintro value ⟨index, chosenValue, branch, chosen, branchIs, formed⟩
    refine outcome_bind_ok.mpr ⟨(index, chosenValue), choose_ok_field chosen .null, ?_⟩
    exact outcome_bind_ok.mpr ⟨branch, branchIs, formed⟩

theorem CarriesAccepted.record (kindIs : kindOf schema = .ok kind)
    (fielded : Schema.hasFields kind.word = true)
    (valid : checkRecord (check registry false below) schema place given = .ok true) :
    Carries (Encode.writeRecord (Encode.write registry depth) schema given)
      (Decode.readRecord (Decode.read registry depth) (Decode.skip registry depth)
        schema .null false)
      (Former.record (normalForm registry depth) schema given) := by
  obtain ⟨names, -, valid⟩ := outcome_bind_ok.mp valid
  cases given with
  | dict entries =>
    obtain ⟨fields, fieldsAre, valid⟩ := outcome_bind_ok.mp valid
    obtain ⟨nodes, nodesAre, valid⟩ := outcome_bind_ok.mp valid
    have nodesFound : fieldsOf schema = .ok nodes :=
      outcome_bind_ok.mpr ⟨fields, fieldsAre, nodesAre⟩
    refine .of_pairs (pairs_record (Encode.write registry depth) (IsNormalForm registry depth)
      (Decode.skip registry depth) ?_) ?_
    · rintro found _ foundAre ⟨⟩ node isNode view viewIs
      rw [nodesFound] at foundAre
      cases foundAre
      have nodeValid := allPass_ok.mp valid node isNode
      rw [viewIs, outcome_ok_bind] at nodeValid
      exact (carried (wellTyped_fieldView typed kindIs fielded nodesFound isNode viewIs).2
        nodeValid).pairs _
    · intro value made
      obtain ⟨found, pairs, foundAre, formed, rfl⟩ := made entries rfl
      refine record_formed foundAre (fun node isNode view viewIs => ?_) formed
      exact (wellTyped_fieldView typed kindIs fielded foundAre isNode viewIs).1
  | _ => simp at valid

theorem CarriesAccepted.array (kindIs : kindOf schema = .ok .array)
    (valid : checkArray (check registry false below) schema place given = .ok true) :
    Carries (Encode.writeArray (Encode.write registry depth) schema field given)
      (Decode.readArray (Decode.read registry depth) schema .null false)
      (Former.array (normalForm registry depth) schema given) := by
  cases itemsAre : sequenceItems? given with
  | none => simp [checkArray, itemsAre] at valid
  | some items =>
    have iteratedAre : given.iterated? = some items := by
      cases given <;> simp_all [sequenceItems?]
    refine .of_pairs (pairs_array (Encode.write registry depth) (IsNormalForm registry depth) ?_) ?_
    · intro node others nodeIs othersAre item isItem
      rw [iteratedAre] at othersAre
      cases othersAre
      simp only [checkArray, itemsAre, nodeIs, outcome_ok_bind] at valid
      exact (carried (Schema.wellTyped_items typed kindIs nodeIs)
        (allPass_ok.mp valid item isItem)).pairs _
    · rintro _ ⟨others, values, othersAre, rfl, formed⟩
      rw [iteratedAre] at othersAre
      cases othersAre
      exact array_formed itemsAre formed

theorem CarriesAccepted.map (kindIs : kindOf schema = .ok .map)
    (valid : checkMap (check registry false below) schema place given = .ok true) :
    Carries (Encode.writeMap (Encode.write registry depth) schema field given)
      (Decode.readMap (Decode.read registry depth) schema .null false)
      (Former.map (normalForm registry depth) schema given) := by
  cases given with
  | dict entries =>
    simp only [checkMap] at valid
    split at valid
    · refine .of_pairs (pairs_map (Encode.write registry depth) (IsNormalForm registry depth) ?_) ?_
      · rintro node _ nodeIs ⟨⟩ entry isEntry
        simp only [nodeIs, outcome_ok_bind] at valid
        exact (carried (Schema.wellTyped_values typed kindIs nodeIs)
          (allPass_ok.mp valid entry isEntry)).pairs _
      · rintro _ ⟨found, rfl, formed⟩
        exact map_formed (formed entries rfl)
    · simp at valid
  | _ => simp [checkMap] at valid

end

/-- A symbol is read as it was written, since it is a text that stands among the symbols once. -/
theorem carries_symbol (typed : wellTyped schema = true) (kindIs : kindOf schema = .ok .enum) :
    Carries (writeKind registry depth (Encode.write registry depth) schema field given .enum)
      (readKind registry (Decode.read registry depth) (Decode.skip registry depth) schema .null
        false .enum) (.ok given) := by
  have known {symbols : Json} {index : Nat}
    (symbolsAre : attributeOf schema "symbols" = .ok symbols)
      (indexIs : Schema.symbolIndex symbols given = .ok index) :
      ∃ text, given = .str text ∧ Schema.documentItemAt symbols index = .ok (.str text) :=
    (symbolIndex_ok (Schema.isTextList_symbols typed kindIs symbolsAre) indexIs).2
  refine .of_pairs (pairs_symbol (Encode.write registry depth)
    (fun _ symbols index symbolsAre indexIs => ?_) registry depth _) ?_
  · obtain ⟨text, -, symbolIs⟩ := known symbolsAre indexIs
    exact ⟨.str text, .str text, symbolIs, rfl⟩
  · rintro value ⟨symbols, index, symbol, symbolsAre, indexIs, symbolIs, resolved⟩
    obtain ⟨text, rfl, textIs⟩ := known symbolsAre indexIs
    rw [textIs] at symbolIs
    cases symbolIs
    exact resolved

/-- What a node of a built-in kind accepts is carried, if its parts are carried one level below. -/
theorem CarriesAccepted.builtIn (carried : CarriesAccepted registry depth)
    (typed : wellTyped schema = true) (kindIs : kindOf schema = .ok kind)
    (valid : checkKind registry false (check registry false below) schema place given
      kind = .ok true)
    (builtIn : kind.isBuiltIn = true) (notRequest : kind ≠ .request) :
    Carries (writeKind registry depth (Encode.write registry depth) schema field given kind)
      (readKind registry (Decode.read registry depth) (Decode.skip registry depth) schema
        .null false kind)
      (Former.kind registry depth (normalForm registry depth) schema given kind) := by
  cases kind with
  | null =>
    cases given with
    | null => exact Carries.pure Datum.null
    | _ => simp [checkKind] at valid
  | boolean =>
    cases given with
    | bool value =>
      exact .of_pairs (pairs_boolean Exact (.bool value)) fun _ isValue => by rw [isValue]; rfl
    | _ => simp [checkKind] at valid
  | string =>
    cases given with
    | str text =>
      exact .of_pairs (pairs_text Exact (.str text)) fun _ isWhole => by rw [isWhole id]; rfl
    | _ => simp [checkKind, Validation.isText] at valid
  | int | long =>
    cases given with
    | int number =>
      refine .of_pairs (pairs_long Exact (.int number)) fun _ isNumber => ?_
      rw [isNumber number rfl, unzigzag_of_fits (by decide) (Except.ok.inj valid)]
      rfl
    | _ => simp [checkKind] at valid
  | float => exact .of_pairs (pairs_single Exact given) fun _ formed => formed
  | double => exact .of_pairs (pairs_double Exact given) fun _ formed => formed
  | bytes =>
    refine .of_pairs (pairs_bytes Exact given) ?_
    rintro value ⟨content, contentIs, isWhole⟩
    rw [isWhole id, Former.kind, Former.bytes, contentIs]
  | fixed =>
    cases given with
    | bytes content => exact carries_fixedSize typed kindIs valid
    | _ => simp [checkKind, checkFixed] at valid
  | enum => exact carries_symbol typed kindIs
  | array => exact carried.array typed kindIs valid
  | map => exact carried.map typed kindIs valid
  | union | errorUnion => exact carried.union typed valid
  | record | error => exact carried.record typed kindIs rfl valid
  | request => exact absurd rfl notRequest
  | named name => exact absurd builtIn Bool.false_ne_true
  | foreign value => exact absurd builtIn Bool.false_ne_true

end Accepted

theorem CarriesAccepted.named {below : Nat} {name : String}
    (carried : CarriesAccepted registry depth)
    (registryTyped : Schema.RegistryTyped registry) (kindIs : kindOf schema = .ok (.named name))
    (valid : checkKind registry false (check registry false below) schema place given (.named name)
      = .ok true) :
    Carries (Encode.write registry (depth + 1) given schema field)
      (Decode.read registry (depth + 1) schema .null false)
      (normalForm registry (depth + 1) schema given) := by
  rw [normalForm, kindIs, outcome_ok_bind, Former.kind]
  refine .of_pairs (pairs_named kindIs fun definition resolved => ?_) fun value formed => formed
  have known := Schema.resolve_ok.mp resolved
  simp only [checkKind, known] at valid
  rw [resolved, outcome_ok_bind]
  exact (carried (registryTyped _ (Members.mem_of_get? known)) valid).pairs _

theorem carriesAccepted (registryTyped : Schema.RegistryTyped registry) (depth : Nat) :
    CarriesAccepted registry depth := by
  induction depth with
  | zero =>
    intro given schema field place level typed valid
    exact Carries.throw _ _ _
  | succ depth ih =>
    intro given schema field place level typed valid
    obtain ⟨below, kind, kindIs, kindValid⟩ := check_ok typed valid
    have builtInCarries (builtIn : kind.isBuiltIn = true) :
        Carries (Encode.write registry (depth + 1) given schema field)
          (Decode.read registry (depth + 1) schema .null false)
            (normalForm registry (depth + 1) schema given) := by
      have notRequest := kind_ne_request typed kindIs kindValid
      rw [write_succ (prepareFor_of_wellTyped typed given) kindIs builtIn notRequest,
        normalForm, kindIs]
      intro output after written
      obtain ⟨bytes, value, appended, valueIs, reads⟩ :=
        ih.builtIn typed kindIs kindValid builtIn notRequest output after (onField_ok.mp written)
      exact ⟨bytes, value, appended, valueIs,
        reads_succ (finish_of_wellTyped typed) kindIs builtIn reads⟩
    cases kind with
    | named name => exact ih.named registryTyped kindIs kindValid
    | foreign value => simp [checkKind] at kindValid
    | _ => exact builtInCarries rfl

/-- Reading undoes writing. Let a schema with attributes of the prescribed types and without logical
types be parsed, and let a value that the parsed schema accepts be written after any output. Then
the bytes that were added, whatever follows them, are read as the normal form of the value, and what
follows them is left. The normal form depends on the schema and the value alone: it is the same at
every depth from that of the writer on. -/
theorem read_written {options : Schema.ParseOptions} {known registry : Registry}
    {schema parsed place field : Json} {datum : Datum} {level depth : Nat}
    {output after : BinaryOutput} (typed : Schema.wellTyped schema = true)
    (knownTyped : Schema.RegistryTyped known)
    (parses : Schema.parse options known schema = .ok (parsed, registry))
    (valid : Validation.check registry false level datum parsed place = .ok true)
    (written : Encode.write registry depth datum parsed field output = .ok () after) :
    ∃ bytes value, after.written = output.written ++ bytes ∧
      (∀ deeper, depth ≤ deeper → normalForm registry deeper parsed datum = .ok value) ∧
      Reads (Decode.read registry depth parsed .null false) bytes value := by
  obtain ⟨parsedTyped, registryTyped⟩ := Schema.wellTyped_parse parses typed knownTyped
  obtain ⟨bytes, value, appended, formIs, reads⟩ :=
    carriesAccepted registryTyped depth parsedTyped valid output after written
  refine ⟨bytes, value, ?_, ?_, reads⟩
  · rw [appended, BinaryOutput.written_append]
  · intro deeper notLess
    exact normalForm_of_le formIs notLess

def chainSchema : Json :=
  .obj [("type", .str "record"), ("name", .str "Chain"), ("namespace", .str "example"),
    ("fields", .arr [.obj [("name", .str "head"), ("type", .str "float"), ("default", .int 1)],
      .obj [("name", .str "tail"), ("type", .arr [.str "null", .str "Chain"])]])]

def chainDefinition : Json :=
  .obj [("type", .str "record"), ("name", .str "example.Chain"),
    ("fields", .arr [.obj [("default", .int 1), ("name", .str "head"), ("type", .str "float")],
      .obj [("name", .str "tail"), ("type", .arr [.str "null", .str "example.Chain"])]])]

/-- A chain of two links, the second of which takes its number from the default. -/
def chainOfTwo : Datum :=
  .dict [(.str "tail", .tuple
    [.str "example.Chain", .dict [(.str "tail", .null), (.str "other", .int 3)]]),
    (.str "head", .int 5)]

theorem read_written_chainOfTwo :
    ∃ bytes value, [0, 0, 160, 64, 2, 0, 0, 128, 63, 0] = BinaryOutput.empty.written ++ bytes ∧
      (∀ deeper, Schema.depthLimit ≤ deeper →
        normalForm [("example.Chain", chainDefinition)] deeper chainDefinition
          chainOfTwo = .ok value) ∧
      Reads (Decode.read [("example.Chain", chainDefinition)] Schema.depthLimit chainDefinition
        .null false) bytes value := by
  have typed : Schema.wellTyped chainSchema = true := by decide
  have parses : Schema.parse { mark := false } [] chainSchema =
      .ok (chainDefinition, [("example.Chain", chainDefinition)]) := rfl
  have valid : Validation.check [("example.Chain", chainDefinition)] false Schema.depthLimit
    chainOfTwo chainDefinition
      .null = .ok true := rfl
  have written : Encode.write [("example.Chain", chainDefinition)] Schema.depthLimit chainOfTwo
    chainDefinition .null
      BinaryOutput.empty = .ok ()
        (BinaryOutput.empty.append [0, 0, 160, 64, 2, 0, 0, 128, 63, 0]) := rfl
  exact read_written typed (List.forall_mem_nil _) parses valid written

end Avro
