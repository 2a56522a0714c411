import Avro.Proofs.Remarking
import Avro.Proofs.Streaming

/-!
Contract: which of the files that a writer completes can be opened.

Owns: that a file which starts with the header of a writer is opened just if the schema in the
header is parsed by force; and that this is so just if the schema without its marks is one that a
writer accepts, and no name is defined twice in it.

The writer parses the branches of a union one by one, each with names of its own, where the reader
has one set of names for all. A union with two branches of one name is the only schema without marks
that is written and not read.
-/

namespace Avro.Container

open Schema (bare unmark reread Remarked RemarkedBranches)

variable {stream : Stream} {records : Datum} {schema : Json} {options : WriterOptions}
variable {libraries : Codec.Libraries}

/-! ### Completed files -/

/-- The header leaves out the marks at the top and at the branches of a union, and keeps those of
unions within unions. -/
theorem remarked_headerForm (schema : Json) : Remarked (headerForm schema) (unmark schema) := by
  cases schema with
  | arr branches =>
    refine .arr ?_
    induction branches with
    | nil => exact .nil
    | cons branch rest ih =>
      refine .cons ?_ ih
      cases branch with
      | arr inner => exact Schema.remarked_unmark (.arr inner)
      | _ => exact .refl _
  | _ => exact .refl _

/-- A file that has been written to an empty stream starts with the header of its writer. -/
theorem writeFile_empty
    (completes : writeFile libraries options schema records Stream.empty = .ok stream) :
    ∃ output rest, (firstHeader options schema).write .empty = .ok () output ∧
      stream.content = output.written ++ rest := by
  obtain ⟨-, writer, opened, session, opens, done, rfl⟩ := writeFile_ok.mp completes
  obtain ⟨parsed, registry, codec, output, -, -, written, -, rfl⟩ := openOn_ok opens
  have starts := (streams_writeContent records).keeps_content writer output.written
  rw [done] at starts
  have ⟨rest, contentIs⟩ := starts
  exact ⟨output, rest, written, contentIs.symm⟩

/-- A file with the header of a writer is opened just if the schema in the header is parsed by
force. -/
theorem ofBytes_header_iff {output : BinaryOutput} (rest : Bytes)
    (sized : options.sync.length = syncSize)
    (metadataDistinct : (options.metadata.map Prod.fst).Nodup)
    (distinct : schema.keysDistinct = true)
    (written : (firstHeader options schema).write .empty = .ok () output) :
    (∃ file input, ofBytes (output.written ++ rest) .null false = .ok (file, input)) ↔
      ∃ plain registry, Schema.parse .forced []
        (Json.mapFloats Json.rereadFloat (headerForm schema)) = .ok (plain, registry) := by
  constructor
  · rintro ⟨file, input, opened⟩
    obtain ⟨after, readHeader⟩ :=
      reads_header sized (nodup_setText (nodup_setText metadataDistinct _ _) _ _) written rest none
    unfold ofBytes at opened
    split at opened
    · rename_i isOpen
      obtain ⟨_, _, isReader, isOpen⟩ := step_bind_ok.mp isOpen
      cases isReader
      obtain ⟨header, _, isHeader, isOpen⟩ := step_bind_ok.mp isOpen
      rw [BinaryInput.ofBytes, readHeader] at isHeader
      cases isHeader
      obtain ⟨document, _, documentIs, isOpen⟩ := step_bind_ok.mp isOpen
      rw [firstHeader_schema distinct] at documentIs
      cases documentIs
      obtain ⟨⟨plain, registry⟩, _, parses, -⟩ := step_bind_ok.mp isOpen
      exact ⟨plain, registry, (readLift_ok.mp parses).1⟩
    · cases opened
  · rintro ⟨plain, registry, parses⟩
    obtain ⟨after, isOpened⟩ :=
      ofBytes_of_reads (reads_openFile_of_parse sized metadataDistinct distinct parses written) rest
    exact ⟨_, _, isOpened⟩

/-- A file that a writer completes is opened just if the schema without its marks is one that a
writer accepts, and no name is defined twice in it. -/
theorem opens_iff_reread (distinct : schema.keysDistinct = true)
    (sized : options.sync.length = syncSize)
    (metadataDistinct : (options.metadata.map Prod.fst).Nodup)
    (completes : writeFile libraries options schema records Stream.empty = .ok stream) :
    (∃ file input, ofBytes stream.content .null false = .ok (file, input)) ↔
      ∃ parsed registry, Schema.parse {} [] (reread schema) = .ok (parsed, registry) ∧
        (Schema.names parsed).Nodup := by
  have ⟨output, rest, written, contentIs⟩ := writeFile_empty completes
  have remarked := (remarked_headerForm schema).mapFloats Json.rereadFloat
  have plainly : bare (reread schema) = true := by
    rw [reread, Schema.bare_mapFloats, Schema.bare_unmark schema distinct]
  rw [contentIs, ofBytes_header_iff rest sized metadataDistinct distinct written,
    ← Schema.forced_iff_nodup (Schema.unmarked_of_bare _ plainly)]
  exact ⟨remarked.forced, remarked.symm.forced⟩

/-- Which completed files can be opened. A file is opened just if its schema, freed from its marks,
is one that a writer accepts and defines no name twice. For a schema that is given without marks, or
for what such a schema is parsed to, only the names matter. -/
theorem opens_iff_nodup_names {options : WriterOptions} {schema : Json} {records : Datum}
    {stream : Stream} (distinct : schema.keysDistinct = true)
    (sized : options.sync.length = syncSize)
    (metadataDistinct : (options.metadata.map Prod.fst).Nodup)
    (completes : writeFile libraries options schema records Stream.empty = .ok stream) :
    ((∃ file input, ofBytes stream.content .null false = .ok (file, input)) ↔
      ∃ parsed registry, Schema.parse {} [] (reread schema) = .ok (parsed, registry) ∧
        (Schema.names parsed).Nodup) ∧
    ∀ given parsed registry, bare given = true → Schema.parse {} [] given = .ok (parsed, registry) →
      schema = given ∨ schema = parsed →
      ((∃ file input, ofBytes stream.content .null false = .ok (file, input)) ↔
        (Schema.names parsed).Nodup) := by
  have opens := opens_iff_reread distinct sized metadataDistinct completes
  refine ⟨opens, fun given parsed registry plainly parses isForm => opens.trans ?_⟩
  obtain ⟨reparsed, known, again, sameNames⟩ := Schema.parse_reread plainly parses isForm
  rw [again, ← sameNames]
  simp

/-- A word, and a list of words that refers to it by name. -/
def wordSchema : Json :=
  .arr [.obj [("type", .str "enum"), ("name", .str "Word"),
    ("symbols", .arr [.str "yes", .str "no"])],
    .obj [("type", .str "record"), ("name", .str "Words"),
      ("fields", .arr [.obj [("name", .str "head"), ("type", .str "Word")],
        .obj [("name", .str "rest"), ("type", .arr [.str "null", .str "Words"])]])]]

def wordOptions : WriterOptions := { sync := List.replicate 16 7 }

set_option maxRecDepth 10000 in
theorem writeFile_wordSchema :
    ∃ stream, writeFile Codec.installed wordOptions wordSchema (.list [.str "no"]) Stream.empty =
      .ok stream := ⟨_, rfl⟩

/-- A union whose second branch refers to the first is written and opened. -/
theorem opens_wordSchema :
    ∃ stream file input, writeFile Codec.installed wordOptions wordSchema (.list [.str "no"])
      Stream.empty = .ok stream ∧
      ofBytes stream.content .null false = .ok (file, input) := by
  have ⟨stream, completes⟩ := writeFile_wordSchema
  have ⟨parsed, registry, parses, namesAre⟩ : ∃ parsed registry, Schema.parse {} [] wordSchema =
    .ok (parsed, registry) ∧
      Schema.names parsed = ["Word", "Words"] := ⟨_, _, rfl, rfl⟩
  have distinctNames : (Schema.names parsed).Nodup := by
    rw [namesAre]
    decide
  have ⟨file, input, opened⟩ :=
    ((opens_iff_nodup_names (by decide) (by decide) (by decide) completes).2
    wordSchema parsed registry (by decide) parses (.inl rfl)).mpr distinctNames
  exact ⟨stream, file, input, completes, opened⟩

/-- Two definitions of one name, in branches that a writer checks apart. -/
def twinSchema : Json :=
  .arr [.obj [("type", .str "enum"), ("name", .str "E"), ("symbols", .arr [.str "A"])],
    .obj [("type", .str "enum"), ("name", .str "E"), ("symbols", .arr [.str "A"])]]

set_option maxRecDepth 10000 in
private theorem writeFile_twinSchema :
    ∃ stream, writeFile Codec.installed wordOptions twinSchema (.list []) Stream.empty =
      .ok stream :=
  ⟨_, rfl⟩

/-- A file whose schema defines a name in two branches is completed, and cannot be opened. -/
theorem completed_not_opened :
    ∃ stream, writeFile Codec.installed wordOptions twinSchema (.list [])
      Stream.empty = .ok stream ∧
      ¬ ∃ file input, ofBytes stream.content .null false = .ok (file, input) := by
  have ⟨stream, completes⟩ := writeFile_twinSchema
  refine ⟨stream, completes, fun opened => ?_⟩
  have ⟨parsed, registry, parses, distinctNames⟩ :=
    (opens_iff_reread (by decide) (by decide) (by decide) completes).mp opened
  have ⟨twice, known, isTwice, namesAre⟩ : ∃ twice known, Schema.parse {} [] (reread twinSchema) =
    .ok (twice, known) ∧
      Schema.names twice = ["E", "E"] := ⟨_, _, rfl, rfl⟩
  rw [isTwice, Except.ok.injEq, Prod.mk.injEq] at parses
  rw [← parses.1, namesAre] at distinctNames
  revert distinctNames
  decide

end Avro.Container
