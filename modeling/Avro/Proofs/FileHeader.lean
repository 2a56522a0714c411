import Avro.Container.Writer
import Avro.Proofs.AlikeReading
import Avro.Proofs.Projection
import Avro.Proofs.RoundTrip

/-!
Contract: the head of a container file is read back.

Owns: that a header with a marker of the right size, and no name twice among its metadata, is read
from the bytes that it is written as, and that a file opened on them has the schema, the codec and
the marker that the writer was given.
-/

namespace Avro.Container

variable {kind : Kind} {schema plain : Json} {registry : Registry} {name : String} {header : Header}
  {output : BinaryOutput} {metadata : List (String × String)} {options : WriterOptions}
variable {writer : Writer} {stream : Stream} {libraries : Codec.Libraries}

/-! ### The record of a header -/

def Header.entries (header : Header) : List (Datum × Datum) :=
  header.metadata.map fun (key, text) => (.str key, .bytes (Text.encodeUtf8 text))

def metadataSchema : Json := .obj [("type", .str "map"), ("values", .str "bytes")]

theorem check_of_checkKind {level : Nat} {given : Datum} {place : Json}
    (typed : Schema.wellTyped schema = true)
    (kindIs : Schema.kindOf schema = .ok kind)
    (valid : Validation.checkKind registry false (Validation.check registry false level) schema
      place given kind =
      .ok true) :
    Validation.check registry false (level + 1) given schema place = .ok true := by
  obtain ⟨type, typeIs, ofTypeIs⟩ := kindOf_ok kindIs
  rw [Validation.check, typeIs, outcome_ok_bind, prepareFor_of_wellTyped typed, outcome_ok_bind,
    ofTypeIs, outcome_ok_bind, valid]
  rfl

private theorem check_entries (header : Header) (place : Json) :
    Validation.check [] false 2 (.dict header.entries) metadataSchema place = .ok true := by
  have texts : (header.entries.all fun entry => Validation.isText entry.1) = true := by
    rw [List.all_eq_true]
    intro entry isEntry
    obtain ⟨⟨key, text⟩, -, rfl⟩ := List.mem_map.mp isEntry
    rfl
  have kindIs : Schema.kindOf metadataSchema = .ok .map := rfl
  refine check_of_checkKind (by decide) kindIs ?_
  simp only [Validation.checkKind, Validation.checkMap, texts, if_true]
  rw [allPass_ok]
  intro entry isEntry
  obtain ⟨⟨key, text⟩, -, rfl⟩ := List.mem_map.mp isEntry
  rfl

private theorem check_fixed {size : Nat} {content : Bytes} (sized : content.length = size)
    (place : Json) :
    Validation.check [] false 2 (.bytes content)
      (.obj [("type", .str "fixed"), ("name", .str name), ("size", .int size)]) place =
        .ok true := by
  subst sized
  have kindIs : Schema.kindOf
    (.obj [("type", .str "fixed"), ("name", .str name), ("size", .int content.length)]) =
      .ok .fixed := rfl
  refine check_of_checkKind rfl kindIs ?_
  simp [Validation.checkKind, Validation.checkFixed, Schema.attributeOf, Schema.required,
    Members.get?, Json.same, Json.integral?]

def headerFields : List Json :=
  [fixedField "magic" magic.length, .obj [("name", .str "meta"), ("type", metadataSchema)],
    fixedField "sync" syncSize]

theorem attributeOf_fields : Schema.attributeOf headerSchema "fields" = .ok (.arr headerFields) :=
  rfl

private theorem check_toDatum (sized : header.sync.length = syncSize) :
    Validation.check [] false 3 header.toDatum headerSchema .null = .ok true := by
  have kindIs : Schema.kindOf headerSchema = .ok .record := rfl
  have named : Schema.qualifiedName headerSchema .null =
    .ok (.null, .str "org.apache.avro.file.Header") := rfl
  refine check_of_checkKind (by decide) kindIs ?_
  simp only [Validation.checkKind, Validation.checkRecord, named, attributeOf_fields,
    outcome_ok_bind, Header.toDatum, Schema.iterate]
  rw [allPass_ok]
  intro node isNode
  simp only [headerFields, List.mem_cons, List.not_mem_nil, or_false] at isNode
  rcases isNode with rfl | rfl | rfl
  · rfl
  · exact check_entries header _
  · have viewIs : Validation.fieldView (fixedField "sync" syncSize) = .ok ⟨.str "sync", .null,
        .obj [("type", .str "fixed"), ("name", .str "sync"), ("size", .int syncSize)]⟩ := rfl
    rw [viewIs, outcome_ok_bind]
    exact check_fixed sized _

/-! ### The way back -/

private theorem entriesDistinct_entries (distinct : (header.metadata.map Prod.fst).Nodup) :
    Datum.entriesDistinct header.entries = true := by
  obtain ⟨metadata, sync⟩ := header
  unfold Header.entries
  induction metadata with
  | nil => rfl
  | cons member rest ih =>
    obtain ⟨key, text⟩ := member
    rw [List.map_cons, List.nodup_cons] at distinct
    have absent : (Datum.lookup
      (rest.map fun (key, text) => (Datum.str key, Datum.bytes (Text.encodeUtf8 text)))
        key).isNone =
        true := by
      rw [Option.isNone_iff_eq_none, ← Option.not_isSome_iff_eq_none, Datum.isSome_lookup]
      simpa using distinct.1
    rw [List.map_cons, Datum.entriesDistinct, ih distinct.2, Bool.and_true, Bool.and_eq_true]
    exact ⟨absent, rfl⟩

theorem normalForm_of_kindOf {depth : Nat} (datum : Datum)
    (kindIs : Schema.kindOf schema = .ok kind) :
    normalForm registry (depth + 1) schema datum =
      Former.kind registry depth (normalForm registry depth) schema datum kind := by
  rw [normalForm, kindIs, outcome_ok_bind]

private theorem normalForm_entries (distinct : (header.metadata.map Prod.fst).Nodup) :
    normalForm [] 2 metadataSchema (.dict header.entries) = .ok (.dict header.entries) := by
  have forms : (header.entries.mapM fun entry => do
      return (entry.1, ← normalForm [] 1 (← Schema.attributeOf metadataSchema "values") entry.2) :
        Outcome _) =
      .ok header.entries := by
    rw [mapM_ok, List.forall₂_same, Header.entries, List.forall_mem_map]
    exact fun _ _ => rfl
  have merged : header.entries.foldl Decode.insertEntry [] = header.entries :=
    foldl_insertEntry (entriesDistinct_entries distinct) (by simp)
  have kindIs : Schema.kindOf metadataSchema = .ok .map := rfl
  rw [normalForm_of_kindOf _ kindIs, Former.kind, Former.map, forms, outcome_ok_bind, merged]
  rfl

private theorem normalForm_toDatum (distinct : (header.metadata.map Prod.fst).Nodup) :
    normalForm [] 3 headerSchema header.toDatum = .ok header.toDatum := by
  have kindIs : Schema.kindOf headerSchema = .ok .record := rfl
  have metaForm : Former.field (normalForm [] 2)
    [(.str "magic", .bytes magic), (.str "meta", .dict header.entries),
      (.str "sync", .bytes header.sync)] (.obj [("name", .str "meta"), ("type", metadataSchema)]) =
      .ok (.str "meta", .dict header.entries) := by
    change (normalForm [] 2 metadataSchema (.dict header.entries) >>= fun form =>
      pure (Datum.str "meta", form)) = _
    rw [normalForm_entries distinct]
    rfl
  rw [normalForm_of_kindOf _ kindIs]
  simp only [Former.kind, Former.record, Header.toDatum, Decode.fieldsOf, attributeOf_fields,
    outcome_ok_bind, Schema.iterate, headerFields, List.mapM_cons, List.mapM_nil]
  rw [← Header.entries, metaForm]
  rfl

private theorem decodeMetadata_entries (header : Header) :
    Header.decodeMetadata header.entries = .ok header.metadata := by
  obtain ⟨metadata, sync⟩ := header
  unfold Header.entries
  induction metadata with
  | nil => rfl
  | cons member rest ih =>
    obtain ⟨key, text⟩ := member
    dsimp only at ih ⊢
    rw [List.map_cons, Header.decodeMetadata, Text.decodeUtf8_encodeUtf8]
    dsimp only
    rw [ih]
    rfl

private theorem ofDatum_toDatum (header : Header) : Header.ofDatum header.toDatum = .ok header := by
  have decoded := decodeMetadata_entries header
  change (Header.decodeMetadata header.entries >>= fun metadata =>
    pure (Header.mk metadata header.sync)) = _
  rw [decoded]
  rfl

theorem reads_header (sized : header.sync.length = syncSize)
    (distinct : (header.metadata.map Prod.fst).Nodup)
    (written : header.write .empty = .ok () output) : Reads Header.read output.written header := by
  have typed : Schema.wellTyped headerSchema = true := by decide
  obtain ⟨bytes, value, appended, formIs, reads⟩ :=
    carriesAccepted (List.forall_mem_nil _) Schema.depthLimit typed (check_toDatum sized) .empty
      output written
  rw [normalForm_of_le (normalForm_toDatum distinct) (by decide)] at formIs
  cases formIs
  have bytesAre : output.written = bytes := by
    rw [appended, BinaryOutput.written_append, BinaryOutput.written_empty, List.nil_append]
  rw [bytesAre, ← List.append_nil bytes]
  have readsDatum : Reads (Header.orUnreadable
    (Decode.read [] Schema.depthLimit headerSchema .null false)) bytes
      header.toDatum := by
    intro rest count
    obtain ⟨after, done⟩ := reads rest count
    refine ⟨after, ?_⟩
    unfold Header.orUnreadable
    rw [done]
  refine readsDatum.bind ?_
  rw [ofDatum_toDatum]
  exact Reads.pure header

/-! ### Metadata and schema -/

private theorem lookup_cons_ite (name text other : String) (rest : List (String × String)) :
    ((name, text) :: rest).lookup other =
      if other = name then some text else rest.lookup other := by
  rw [List.lookup_cons]
  by_cases wanted : other = name
  · rw [if_pos wanted, beq_iff_eq.mpr wanted]
  · rw [if_neg wanted, beq_eq_false_iff_ne.mpr wanted]

theorem lookup_setText (metadata : List (String × String)) (key other text : String) :
    (setText metadata key text).lookup other =
      if other = key then some text else metadata.lookup other := by
  induction metadata with
  | nil => exact lookup_cons_ite key text other []
  | cons member rest ih =>
    obtain ⟨name, old⟩ := member
    rw [setText, lookup_cons_ite]
    by_cases isName : name = key
    · subst isName
      rw [if_pos rfl, lookup_cons_ite]
      by_cases wanted : other = name
      · simp [wanted]
      · simp [wanted]
    · rw [if_neg isName, lookup_cons_ite, ih]
      by_cases wanted : other = name
      · subst wanted
        simp [isName]
      · simp [wanted]

private theorem mem_keys_setText {key text : String}
    (isKey : name ∈ (setText metadata key text).map Prod.fst) :
    name = key ∨ name ∈ metadata.map Prod.fst := by
  induction metadata with
  | nil => exact .inl (by simpa [setText] using isKey)
  | cons member rest ih =>
    obtain ⟨first, old⟩ := member
    rw [setText] at isKey
    split at isKey
    · rename_i same
      rw [List.map_cons, List.mem_cons] at isKey ⊢
      rcases isKey with isFirst | isLater
      · exact .inl isFirst
      · exact .inr (.inr isLater)
    · rw [List.map_cons, List.mem_cons] at isKey ⊢
      rcases isKey with isFirst | isLater
      · exact .inr (.inl isFirst)
      · exact (ih isLater).imp_right .inr

theorem nodup_setText (distinct : (metadata.map Prod.fst).Nodup) (key text : String) :
    ((setText metadata key text).map Prod.fst).Nodup := by
  induction metadata with
  | nil => simp [setText]
  | cons member rest ih =>
    obtain ⟨first, old⟩ := member
    rw [List.map_cons, List.nodup_cons] at distinct
    rw [setText]
    split
    · rename_i same
      subst same
      exact List.nodup_cons.mpr distinct
    · rename_i different
      refine List.nodup_cons.mpr ⟨fun isLater => ?_, ih distinct.2⟩
      rcases mem_keys_setText isLater with same | isOld
      · exact different same
      · exact distinct.1 isOld

section Parts

variable {good : Json → Prop} (hereditary : Json.Hereditary good)
variable {schema : Json}

include hereditary

private theorem good_erase {members : Members} (isGood : good (.obj members)) (key : String) :
    good (.obj (Members.erase members key)) := by
  rw [hereditary.obj] at isGood ⊢
  have sublist := Members.erase_sublist members key
  exact ⟨isGood.1.sublist (sublist.map Prod.fst), fun member isMember =>
    isGood.2 member (sublist.subset isMember)⟩

private theorem good_withoutMarks (isGood : good schema) : good (withoutMarks schema) := by
  cases schema with
  | obj members => exact good_erase hereditary (good_erase hereditary isGood _) _
  | _ => exact isGood

/-- What goes by the parts of a schema holds of it in the header. -/
theorem good_headerForm (isGood : good schema) : good (headerForm schema) := by
  cases schema with
  | arr branches =>
    rw [hereditary.arr] at isGood
    refine (hereditary.arr _).mpr (List.forall_mem_map.mpr fun branch isBranch => ?_)
    exact good_withoutMarks hereditary (isGood branch isBranch)
  | _ => exact good_withoutMarks hereditary isGood

end Parts

private theorem keysDistinct_headerForm (distinct : schema.keysDistinct = true) :
    (headerForm schema).keysDistinct = true :=
  good_headerForm Json.hereditary_keysDistinct distinct

open Schema (Alike AlikeItems AlikeRegistries)

private theorem alike_withoutMarks (schema : Json) : Alike schema (withoutMarks schema) := by
  cases schema with
  | obj members =>
    exact .obj (((Schema.AlikeMembers.refl members).erase (by decide)).erase (by decide))
  | _ => exact .refl _

private theorem alike_headerForm (schema : Json) : Alike schema (headerForm schema) := by
  cases schema with
  | arr branches =>
    refine .arr ?_
    induction branches with
    | nil => exact .nil
    | cons branch rest ih => exact .cons (alike_withoutMarks branch) ih
  | _ => exact alike_withoutMarks _

/-! ### Opening -/

/-- The header that a writer puts at the start of a file. -/
def firstHeader (options : WriterOptions) (schema : Json) : Header :=
  ⟨setText (setText options.metadata "avro.schema" ((headerForm schema).print Json.Layout.line))
    "avro.codec" options.codec,
    options.sync⟩

theorem firstHeader_codec (options : WriterOptions) (schema : Json) :
    (firstHeader options schema).codec = options.codec := by
  rw [Header.codec, Header.text?, firstHeader, lookup_setText, if_pos rfl]
  rfl

/-- The schema in the header is the writer's, without its marks, and up to floating-point
numbers. -/
theorem firstHeader_schema (distinct : schema.keysDistinct = true) :
    (firstHeader options schema).schema =
      .ok (Json.mapFloats Json.rereadFloat (headerForm schema)) := by
  have found : (firstHeader options schema).text? "avro.schema" =
      some ((headerForm schema).print Json.Layout.line) := by
    rw [Header.text?, firstHeader, lookup_setText, if_neg (by decide), lookup_setText, if_pos rfl]
  rw [Header.schema, found]
  simp only [Json.parse?_print Json.Layout.line (keysDistinct_headerForm distinct)]

private theorem startFile_eq {codec : Codec}
    (codecIs : Codec.find? libraries options.codec = some codec) (schema parsed : Json)
    (registry : Registry) (stream : Stream) :
    Writer.startFile libraries options schema parsed registry stream =
      match (firstHeader options schema).write .empty with
      | .ok _ output =>
        .ok (Writer.start options parsed registry codec options.sync) (stream.put output.written)
      | .error error output => .error error (stream.put output.written) := by
  have headerIs : (firstHeader options schema) = ⟨setText (setText options.metadata "avro.schema"
      ((headerForm schema).print Json.Layout.line)) "avro.codec" options.codec, options.sync⟩ := rfl
  unfold Writer.startFile
  simp only [codecIs]
  rw [← headerIs]
  cases (firstHeader options schema).write .empty with
  | ok value output => rfl
  | error error output => rfl

theorem openOn_ok
    (opened : Writer.openOn libraries options schema Stream.empty = .ok writer stream) :
    ∃ parsed registry codec output, Schema.parse {} [] schema = .ok (parsed, registry) ∧
      Codec.find? libraries options.codec = some codec ∧
      (firstHeader options schema).write .empty = .ok () output ∧
      writer = Writer.start options parsed registry codec options.sync ∧
      stream = Stream.atEnd output.written := by
  unfold Writer.openOn at opened
  cases isParsed : Schema.parse {} [] schema with
  | error error =>
    rw [isParsed] at opened
    cases opened
  | ok result =>
    obtain ⟨parsed, registry⟩ := result
    rw [isParsed] at opened
    change Writer.startFile libraries options schema parsed registry Stream.empty = _ at opened
    cases codecIs : Codec.find? libraries options.codec with
    | none =>
      unfold Writer.startFile at opened
      rw [codecIs] at opened
      cases opened
    | some codec =>
      rw [startFile_eq codecIs] at opened
      split at opened
      · rename_i output written
        cases opened
        refine ⟨parsed, registry, codec, output, rfl, rfl, written, rfl, ?_⟩
        simp [Stream.put, Stream.empty, Stream.atEnd]
      · cases opened

/-- A file that starts with the header of a writer is opened with what the schema in the header is
parsed to. -/
theorem reads_openFile_of_parse (sized : options.sync.length = syncSize)
    (distinct : (options.metadata.map Prod.fst).Nodup) (schemaDistinct : schema.keysDistinct = true)
    (parses : Schema.parse .forced [] (Json.mapFloats Json.rereadFloat (headerForm schema)) =
      .ok (plain, registry))
    (written : (firstHeader options schema).write .empty = .ok () output) :
    Reads (openFile .null false) output.written
      ⟨firstHeader options schema, Json.mapFloats Json.rereadFloat (headerForm schema), plain,
        .null, registry, false⟩ := by
  have readsHeader : Reads Header.read output.written (firstHeader options schema) :=
    reads_header sized (nodup_setText (nodup_setText distinct _ _) _ _) written
  rw [← List.append_nil output.written]
  refine Reads.lift rfl (readsHeader.bind ?_)
  exact Reads.lift (firstHeader_schema schemaDistinct) (Reads.lift parses (Reads.pure _))

theorem ofBytes_of_reads {reader : Json} {named : Bool} {bytes : Bytes}
    (reads : Reads (openFile reader named) bytes file) (rest : Bytes) :
    ∃ after, ofBytes (bytes ++ rest) reader named = .ok (file, ⟨rest, after⟩) := by
  obtain ⟨after, done⟩ := reads rest none
  refine ⟨after, ?_⟩
  rw [ofBytes, BinaryInput.ofBytes]
  simp only [done]

section

variable (sized : options.sync.length = syncSize) (distinct : (options.metadata.map Prod.fst).Nodup)
    (schemaDistinct : schema.keysDistinct = true)
include sized distinct schemaDistinct

/-- The header of a writer on an empty stream opens whatever is put behind it. -/
theorem ofBytes_of_openOn {document : Json}
    (opens : Writer.openOn libraries options schema Stream.empty = .ok writer stream)
    (parses : Schema.parse .forced [] document = .ok (plain, registry))
    (same : Json.mapFloats Json.rereadFloat (headerForm schema) = document) (rest : Bytes) :
    ∃ output after, (firstHeader options schema).write .empty = .ok () output ∧
      stream = Stream.atEnd output.written ∧
      ofBytes (output.written ++ rest) .null false =
        .ok (⟨firstHeader options schema, document, plain, .null, registry, false⟩,
          ⟨rest, after⟩) := by
  subst same
  obtain ⟨_, _, _, output, -, -, headerWritten, -, streamIs⟩ := openOn_ok opens
  have ⟨after, isOpened⟩ :=
    ofBytes_of_reads (reads_openFile_of_parse sized distinct schemaDistinct parses headerWritten)
      rest
  exact ⟨output, after, headerWritten, streamIs, isOpened⟩

/-- If attributes have the prescribed types, that is alike to what the writer's schema is parsed to
by force. -/
theorem reads_openFile (typed : Schema.wellTyped schema = true)
    (parses : Schema.parse .forced [] schema = .ok (plain, registry))
    (written : (firstHeader options schema).write .empty = .ok () output) :
    ∃ document otherPlain otherRegistry, Alike plain otherPlain ∧
      AlikeRegistries registry otherRegistry ∧
      Reads (openFile .null false) output.written
        ⟨firstHeader options schema, document, otherPlain, .null, otherRegistry, false⟩ := by
  obtain ⟨otherPlain, otherRegistry, otherParses, plainAlike, registryAlike⟩ :=
    Schema.parse_forced_alike parses typed ((alike_headerForm schema).mapFloats Json.rereadFloat)
  exact ⟨_, otherPlain, otherRegistry, plainAlike, registryAlike,
    reads_openFile_of_parse sized distinct schemaDistinct otherParses written⟩

end

end Avro.Container
