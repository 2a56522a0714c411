import Avro.Proofs.FileSession
import Avro.Proofs.Opening

/-!
Contract: a file is continued by a second writer.

Owns: `Restored`, what is made of the schema in the header of a file; that a writer further on in a
stream is opened just if its schema is parsed to the same as that of the file; and that it goes on
with the codec and the marker of the file, behind what stands there, so that the records of both
writers are read in their order.

The marks of a schema hold the registry, and they are compared like all else. They are the same for
both writers if the schema is given without marks, or as it has been parsed as a whole.
-/

namespace Avro.Container

open Schema (alike_marked bare branchesBare marked markedBranches names PartlyMarked
  BranchesPartlyMarked ParsesApart Alike AlikeItems
  AlikeRegistries depthLimit parse wellTyped)

variable {plain : Json} {libraries : Codec.Libraries}

/-! ### The schema in the header -/

/-- A record loses its marks in the header, and a union within a union keeps them. -/
theorem partlyMarked_withoutMarks (registry : Registry) (plainly : bare plain = true) :
    ∃ result, PartlyMarked registry plain (withoutMarks (marked registry plain)) result ∧
      Alike plain (withoutMarks (marked registry plain)) := by
  cases plain with
  | arr branches =>
    exact ⟨_, Schema.partlyMarked_marked registry (.arr branches),
      alike_marked registry (.arr branches)⟩
  | obj members =>
    have plain := Schema.unmark_marked registry (.obj members) plainly
    have same : withoutMarks (marked registry (.obj members)) = .obj members := by
      rcases Schema.marked_obj_cases members with isMarked | isPlain
      · rw [isMarked registry] at plain ⊢
        exact plain
      · rw [isPlain registry] at plain ⊢
        exact plain
    rw [same]
    exact ⟨_, .plain (fun _ isUnion => by cases isUnion), .refl _⟩
  | _ => exact ⟨_, .plain (fun _ isUnion => by cases isUnion), .refl _⟩

private theorem partlyMarked_headerForm (registry : Registry) (plainly : bare plain = true) :
    ∃ result, PartlyMarked registry plain (headerForm (marked registry plain)) result ∧
      Alike plain (headerForm (marked registry plain)) := by
  cases plain with
  | arr branches =>
    obtain ⟨results, partly, alike⟩ : ∃ results, BranchesPartlyMarked registry branches
        ((markedBranches registry branches).map withoutMarks) results ∧
        AlikeItems branches ((markedBranches registry branches).map withoutMarks) := by
      rw [bare] at plainly
      induction branches with
      | nil => exact ⟨[], .nil, .nil⟩
      | cons branch rest ih =>
        rw [branchesBare, Bool.and_eq_true] at plainly
        obtain ⟨result, partly, alike⟩ := partlyMarked_withoutMarks registry plainly.1
        obtain ⟨results, restPartly, restAlike⟩ := ih plainly.2
        exact ⟨result :: results, .cons partly restPartly, .cons alike restAlike⟩
    exact ⟨.arr results, .union partly, .arr alike⟩
  | obj members =>
    have isObject : ∃ others, marked registry (.obj members) = .obj others := by
      rcases Schema.marked_obj_cases members with isMarked | isPlain
      · exact ⟨_, isMarked registry⟩
      · exact ⟨_, isPlain registry⟩
    obtain ⟨others, objectIs⟩ := isObject
    have found := partlyMarked_withoutMarks registry plainly
    rwa [objectIs] at found ⊢
  | _ => exact ⟨_, .plain (fun _ isUnion => by cases isUnion), .refl _⟩

private theorem headerForm_of_bare {schema : Json} (plainly : bare schema = true) :
    headerForm schema = schema := by
  have branch (schema : Json) (plainly : bare schema = true) : withoutMarks schema = schema := by
    cases schema with
    | obj members => exact Schema.unmark_of_bare (.obj members) plainly
    | _ => rfl
  cases schema with
  | arr branches =>
    rw [bare] at plainly
    rw [headerForm, Json.arr.injEq]
    induction branches with
    | nil => rfl
    | cons first rest ih =>
      rw [branchesBare, Bool.and_eq_true] at plainly
      rw [List.map_cons, branch first plainly.1, ih plainly.2]
  | _ => exact branch _ plainly

/-- What is made of the schema in the header of a file: what it is parsed to by force is parsed to
the same as the schema that the writer was given, and reads as that does. -/
structure Restored (plain : Json) (registry : Registry) (document written : Json)
    (table : Registry) : Prop where
  forced : parse .forced [] document = .ok (written, table)
  parses : ∃ existing, parse {} [] written = .ok (existing, registry) ∧
    ∀ other : Json, other.same existing = other.same (marked registry plain)
  alike : wellTyped plain = true → Alike plain written ∧ AlikeRegistries registry table

section Schemas

variable {given plain : Json} {registry : Registry}

/-- What a schema without marks is parsed to by force, it is parsed to with its marks apart. -/
theorem apart_of_forced (forced : parse .forced [] given = .ok (plain, registry)) :
    ParsesApart given [] plain registry ∧ (names plain).Nodup := by
  have ⟨defined, derivation⟩ := Schema.parse_forced_ok.mp forced
  exact ⟨derivation.apart, derivation.apart.forced_iff.mpr forced⟩

theorem parse_form (plainly : bare given = true)
    (forced : parse .forced [] given = .ok (plain, registry)) {form : Json}
    (isForm : form = given ∨ form = marked registry plain) :
    parse {} [] form = .ok (marked registry plain, registry) := by
  have ⟨apart, namesDistinct⟩ := apart_of_forced forced
  rcases isForm with rfl | rfl
  · exact (Schema.parse_unmarked_iff (Schema.unmarked_of_bare _ plainly)).mpr ⟨plain, apart, rfl⟩
  · exact apart.parse_partlyMarked plainly namesDistinct (Schema.partlyMarked_marked registry plain)

theorem forced_again (forced : parse .forced [] given = .ok (plain, registry)) :
    parse .forced [] plain = .ok (plain, registry) :=
  (apart_of_forced forced).1.again.forced_iff.mp (apart_of_forced forced).2

theorem regular_marked (regular : given.Regular Json.isDefined)
    (forced : parse .forced [] given = .ok (plain, registry)) :
    (marked registry plain).Regular Json.isDefined := by
  have hereditary := Json.hereditary_regular Json.isDefined
  have ⟨plainRegular, registryRegular⟩ :=
    (apart_of_forced forced).1.good hereditary regular ⟨rfl, rfl⟩
  exact Schema.good_marked hereditary registryRegular plain plainRegular

private theorem mapFloats_of_regular {schema : Json} (regular : schema.Regular Json.isDefined) :
    Json.mapFloats Json.rereadFloat schema = schema :=
  Json.mapFloats_eq (fun _ isDefined =>
    Json.rereadFloat_eq (by simpa [Json.isDefined] using isDefined)) schema regular.2

/-- The schema in the header is restored, whether the writer was given it without marks or as it is
parsed. -/
theorem restored_headerForm (plainly : bare given = true) (regular : given.Regular Json.isDefined)
    (forced : parse .forced [] given = .ok (plain, registry)) {first : Json}
    (isFirst : first = given ∨ first = marked registry plain) :
    ∃ written table, Restored plain registry (Json.mapFloats Json.rereadFloat (headerForm first))
      written table := by
  have ⟨apart, namesDistinct⟩ := apart_of_forced forced
  have forcedAgain := forced_again forced
  rcases isFirst with rfl | rfl
  · rw [headerForm_of_bare plainly, mapFloats_of_regular regular]
    refine ⟨plain, registry, forced, ⟨_, ?_, fun _ => rfl⟩, fun typed => ?_⟩
    · exact apart.parse_partlyMarked plainly namesDistinct
        (Schema.partlyMarked_plain registry plain)
    · have ⟨_, _, again, plainAlike, registryAlike⟩ :=
        Schema.parse_forced_alike forcedAgain typed (.refl plain)
      rw [forcedAgain] at again
      cases again
      exact ⟨plainAlike, registryAlike⟩
  · have parsedRegular := regular_marked regular forced
    have hereditary := Json.hereditary_regular Json.isDefined
    have headerRegular := good_headerForm hereditary parsedRegular
    have ⟨_, partly, alike⟩ := partlyMarked_headerForm registry (apart.bare plainly)
    have ⟨defined, derivation⟩ := Schema.parse_forced_ok.mp forcedAgain
    have nothing : ∀ name ∈ names plain, name ∉ (Schema.ParseState.mk [] []).defined := by simp
    have ⟨written, after, existing, done, writtenPartly, _, _⟩ :=
      partly.parses derivation (fun _ => id) nothing
    have writtenRegular := (done.good hereditary headerRegular ⟨rfl, rfl⟩).1
    have writtenForced : parse .forced [] (headerForm (marked registry plain)) =
        .ok (written, after.registry) :=
      Schema.parse_forced_ok.mpr ⟨after.defined, done⟩
    rw [mapFloats_of_regular headerRegular]
    refine ⟨written, after.registry, writtenForced, ⟨existing, ?_, ?_⟩, fun typed => ?_⟩
    · exact apart.parse_partlyMarked plainly namesDistinct writtenPartly
    · exact writtenPartly.same_eq parsedRegular.1 writtenRegular.1
    · have ⟨_, _, again, plainAlike, registryAlike⟩ :=
        Schema.parse_forced_alike forcedAgain typed alike
      rw [writtenForced] at again
      cases again
      exact ⟨plainAlike, registryAlike⟩

end Schemas

/-! ### Opening a writer further on -/

section Behind

variable {options : WriterOptions} {schema parsed existing : Json} {known table : Registry}
  {front : Bytes} {file : File} {codec : Codec} {position : Nat}

private theorem run_openFile (reads : Reads (openFile .null false) front file) (rest : Bytes)
    (position : Nat) :
    ∃ after, (do modify fun stream => stream.seek 0; Stream.run (openFile .null false) :
      EStateM Error Stream File)
      ((Stream.atEnd (front ++ rest)).seek position) = .ok file after ∧
      after.seekEnd = Stream.atEnd (front ++ rest) := by
  have ⟨after, opened⟩ := reads rest none
  refine ⟨(Stream.atEnd (front ++ rest)).seek ((front ++ rest).length - rest.length),
    step_bind_ok.mpr ⟨_, _, rfl, ?_⟩, rfl⟩
  unfold Stream.run
  have inputIs : BinaryInput.ofBytes (List.drop 0 (front ++ rest)) = ⟨front ++ rest, none⟩ := rfl
  simp only [Stream.seek, Stream.atEnd, inputIs, opened]

theorem openOn_eq_continueFile (parses : parse {} [] schema = .ok (parsed, known))
    (behind : position ≠ 0) (content : Bytes) :
    Writer.openOn libraries options schema ((Stream.atEnd content).seek position) =
      Writer.continueFile libraries options parsed known
        ((Stream.atEnd content).seek position) := by
  have isBehind : continues ((Stream.atEnd content).seek position) = .ok true := by
    simp [continues, Stream.seek, Stream.atEnd, behind]
  unfold Writer.openOn
  simp only [parses]
  refine (step_bind_of_ok rfl).trans ?_
  simp only [isBehind]

/-- What opening a writer behind a file does. It is refused if its schema is not that of the file,
and the content of the stream stays. -/
theorem openOn_behind (parses : parse {} [] schema = .ok (parsed, known))
    (reads : Reads (openFile .null false) front file)
    (existingIs : parse {} [] file.writerSchema = .ok (existing, table))
    (codecIs : Codec.find? libraries file.header.codec = some codec) (behind : position ≠ 0)
    (rest : Bytes) :
    (parsed.sameApart existing = true →
      Writer.openOn libraries options schema ((Stream.atEnd (front ++ rest)).seek position) =
        .ok (Writer.start options parsed known codec file.header.sync)
          (Stream.atEnd (front ++ rest))) ∧
    (parsed.sameApart existing = false → ∃ after,
      Writer.openOn libraries options schema ((Stream.atEnd (front ++ rest)).seek position) =
        .error (.appendMismatch parsed existing) after ∧ after.content = front ++ rest) := by
  have ⟨found, opened, atEnd⟩ := run_openFile reads rest position
  have ⟨_, sought, isSought, opened⟩ := step_bind_ok.mp opened
  have contentIs : found.content = front ++ rest := congrArg Stream.content atEnd
  rw [openOn_eq_continueFile parses behind]
  unfold Writer.continueFile
  rw [step_bind_of_ok isSought, step_bind_of_ok opened]
  simp only [existingIs, codecIs]
  refine ⟨fun same => ?_, fun different => ?_⟩
  · rw [same, ← atEnd]
    rfl
  · rw [different]
    exact ⟨found, rfl, contentIs⟩

end Behind

/-! ### Writing records -/

private theorem performAll_write (items : List Datum) :
    Operation.performAll (items.map .write) = SessionM.writeRecords items := by
  induction items with
  | nil => rfl
  | cons item rest ih =>
    rw [List.map_cons, Operation.performAll, ih]
    rfl

private theorem submissions_write {writer : Writer} {items : List Datum} {added : Series Datum}
    (submitted : Operation.submissions writer (items.map .write) = .ok added) :
    ∃ values, items.mapM (normalForm writer.registry depthLimit writer.schema) = .ok values ∧
      added = ⟨values, none⟩ := by
  induction items generalizing added with
  | nil =>
    cases submitted
    exact ⟨[], rfl, rfl⟩
  | cons item rest ih =>
    rw [List.map_cons, Operation.submissions, Operation.submission] at submitted
    obtain ⟨first, isFirst, submitted⟩ := outcome_bind_ok.mp submitted
    obtain ⟨value, isNormal, firstIs⟩ := outcome_bind_ok.mp isFirst
    obtain ⟨later, isLater, submitted⟩ := outcome_bind_ok.mp submitted
    obtain ⟨values, formsAre, laterIs⟩ := ih isLater
    cases firstIs
    subst laterIs
    cases submitted
    refine ⟨value :: values, ?_, rfl⟩
    rw [List.mapM_cons, isNormal, outcome_ok_bind, formsAre]
    rfl

section Content

variable {schema : Json} {opened : Writer} {front : Bytes} {file : File} {image : Image}
  {session after : Session} {items : List Datum}

/-- Records that the schema accepts are added to what a session shows, and nothing stays pending. -/
theorem Session.Shows.writeContent (setting : Setting schema opened file)
    (shows : session.Shows schema opened front file image) (nothing : image.latest = [])
    (valid : ∀ item ∈ items, Validation.check opened.registry false depthLimit item opened.schema
      .null = .ok true)
    (few : image.records.length + items.length < 2 ^ 63)
    (done : Container.writeContent (.list items) session = .ok () after) :
    ∃ next values, items.mapM (normalForm opened.registry depthLimit opened.schema) = .ok values ∧
      after.Shows schema opened front file next ∧ next.latest = [] ∧
      next.series file = (image.series file).append fun _ => ⟨values, none⟩ := by
  obtain ⟨_, between, written, flushed⟩ := step_bind_ok.mp done
  have written : Operation.performAll (items.map .write) session = .ok () between := by
    rw [performAll_write]
    exact written
  have admissible : ∀ operation ∈ items.map Operation.write, operation.Admissible schema opened :=
    List.forall_mem_map.mpr fun item isItem => .write (valid item isItem)
  have few : image.records.length + (items.map Operation.write).length < 2 ^ 63 := by
    rwa [List.length_map]
  obtain ⟨middle, adds, middleShows, -⟩ :=
    shows.performAll setting (shows.small nothing) admissible few written
  obtain ⟨added, submitted, seriesIs⟩ := adds.seriesIs
  obtain ⟨values, formsAre, addedIs⟩ := submissions_write submitted
  obtain ⟨next, nextShows, nothingLeft, _, sameSeries⟩ :=
    middleShows.flush setting [] (adds.fewLatest few) flushed
  exact ⟨next, values, formsAre, nextShows, nothingLeft, by rw [sameSeries, seriesIs, addedIs]⟩

end Content

/-! ### Two writers -/

/-- A file that has been written to an empty stream: the bytes in front of its blocks, by which it
is opened, and what has been put behind them. Its schema is that of the writer, in what it is parsed
to and in what it reads. -/
structure Completed (libraries : Codec.Libraries) (options : WriterOptions) (first plain : Json)
    (registry : Registry) (records : Datum) (stream : Stream)
    (codec : Codec) (front rest : Bytes) (file : File) : Prop where
  codecIs : Codec.find? libraries options.codec = some codec
  headerIs : file.header = firstHeader options first
  reads : Reads (openFile .null false) front file
  parses : ∃ existing, parse {} [] file.writerSchema = .ok (existing, registry) ∧
    ∀ other : Json, other.same existing = other.same (marked registry plain)
  readsAs : wellTyped plain = true →
  file.readRecord = Decode.read registry depthLimit plain .null false
  content : ∃ session, writeContent records
    ⟨Writer.start options (marked registry plain) registry codec options.sync, Stream.atEnd front⟩ =
      .ok () session ∧
      session.stream = stream
  streamIs : stream = Stream.atEnd (front ++ rest)

section Files

variable {options again : WriterOptions} {given plain first : Json} {registry : Registry}
  {records : Datum} {items others : List Datum} {stream : Stream} {position : Nat} {codec : Codec}
  {front rest : Bytes} {file : File}

private theorem completed_of_writeFile (plainly : bare given = true)
    (regular : given.Regular Json.isDefined)
    (forced : parse .forced [] given = .ok (plain, registry))
    (isFirst : first = given ∨ first = marked registry plain)
    (sized : options.sync.length = syncSize)
    (metadataDistinct : (options.metadata.map Prod.fst).Nodup)
    (completes : writeFile libraries options first records Stream.empty = .ok stream) :
    ∃ codec front rest file, Completed libraries options first plain registry records stream codec
      front rest file := by
  obtain ⟨-, writer, opened, session, opens, done, rfl⟩ := writeFile_ok.mp completes
  obtain ⟨parsed, known, codec, output, parses, codecIs, headerWritten, rfl, rfl⟩ := openOn_ok opens
  rw [parse_form plainly forced isFirst] at parses
  cases parses
  have firstRegular : first.Regular Json.isDefined := by
    rcases isFirst with rfl | rfl
    · exact regular
    · exact regular_marked regular forced
  have ⟨written, table, restored⟩ := restored_headerForm plainly regular forced isFirst
  have ⟨alone, _, sessionIs⟩ := (streams_writeContent records).ok_behind.mp done
  have reads := reads_openFile_of_parse sized metadataDistinct firstRegular.1 restored.forced
    headerWritten
  refine ⟨codec, output.written, alone.stream.content, _, codecIs, rfl, reads, restored.parses,
    fun typed => ?_,
    ⟨session, done, rfl⟩, by rw [sessionIs]; rfl⟩
  have ⟨plainAlike, registryAlike⟩ := restored.alike typed
  exact readRecord_of_alike typed (forced_again forced) plainAlike registryAlike rfl rfl

/-- A second writer is opened behind a file just if its schema is parsed to the same as that of the
file. -/
theorem Completed.openOn
    (completed : Completed libraries options first plain registry records stream codec
      front rest file)
    {other otherParsed : Json} {otherKnown : Registry}
    (parses : parse {} [] other = .ok (otherParsed, otherKnown)) (behind : position ≠ 0) :
    (otherParsed.sameApart (marked registry plain) = true →
      Writer.openOn libraries again other (stream.seek position) =
        .ok (Writer.start again otherParsed otherKnown codec options.sync) stream) ∧
    (otherParsed.sameApart (marked registry plain) = false → ∃ existing after,
      Writer.openOn libraries again other (stream.seek position) =
        .error (.appendMismatch otherParsed existing) after ∧
        after.content = stream.content) := by
  have ⟨existing, existingIs, sameAs⟩ := completed.parses
  have codecIs : Codec.find? libraries file.header.codec = some codec := by
    rw [completed.headerIs, firstHeader_codec, completed.codecIs]
  have syncIs : file.header.sync = options.sync := by rw [completed.headerIs, firstHeader]
  rw [completed.streamIs, Json.sameApart, ← sameAs, ← syncIs]
  refine ⟨(openOn_behind parses completed.reads existingIs codecIs behind rest).1, fun different =>
    ⟨existing, ?_⟩⟩
  exact (openOn_behind parses completed.reads existingIs codecIs behind rest).2 different

theorem Completed.setting
    (completed : Completed libraries options first plain registry records stream codec
      front rest file)
    (typed : wellTyped given = true) (plainly : bare given = true)
    (forced : parse .forced [] given = .ok (plain, registry))
    (inverts : ∀ level, codec.Inverts level) (any : WriterOptions) :
    Setting given (Writer.start any (marked registry plain) registry codec options.sync) file :=
  setting_of_alike typed (Schema.truthful_of_unmarked (Schema.unmarked_of_bare _ plainly)) forced
    (parse_form plainly forced (.inl rfl)) (inverts any.level)
    (completed.readsAs (Schema.wellTyped_parse forced typed (List.forall_mem_nil _)).1)

theorem Completed.records_append
    (completed : Completed libraries options first plain registry (.list items) stream codec
    front rest file)
    (typed : wellTyped given = true) (plainly : bare given = true)
    (forced : parse .forced [] given = .ok (plain, registry))
    (sized : options.sync.length = syncSize)
    (inverts : ∀ level, codec.Inverts level)
    (valid : ∀ item ∈ items ++ others,
      Validation.check registry false depthLimit item (marked registry plain) .null = .ok true)
    (few : items.length < 2 ^ 63) (fewOthers : others.length < 2 ^ 63) {final : Session}
    (done : writeContent (.list others)
      ⟨Writer.start again (marked registry plain) registry codec options.sync, stream⟩ =
      .ok () final) :
    ∃ input values, ofBytes final.stream.content .null false = .ok (file, input) ∧
      (items ++ others).mapM (normalForm registry depthLimit (marked registry plain)) = .ok values ∧
      file.records libraries input = ⟨values, none⟩ := by
  obtain ⟨validFirst, validOthers⟩ := List.forall_mem_append.mp valid
  have setting := completed.setting typed plainly forced inverts
  have opened : Opened libraries given
      (Writer.start again (marked registry plain) registry codec options.sync) front file := by
    refine ⟨setting again, completed.reads, ?_, ?_, sized⟩
    · rw [completed.headerIs, firstHeader_codec, completed.codecIs]
      rfl
    · rw [completed.headerIs, firstHeader]
      rfl
  -- The first writer starts behind the header, the second one behind the blocks of the first.
  obtain ⟨session, written, sessionIs⟩ := completed.content
  have started : Session.Shows
    ⟨Writer.start options (marked registry plain) registry codec options.sync, Stream.atEnd front⟩
      given _ front file ⟨[], [], []⟩ :=
    .start (List.forall_mem_nil _) (by rw [List.flatMap_nil, List.append_nil])
  obtain ⟨image, firstValues, firstForms, shows, nothing, firstSeries⟩ :=
    started.writeContent (setting options) rfl validFirst
      (by simpa [Image.records] using few) written
  have continued : Session.Shows
    ⟨Writer.start again (marked registry plain) registry codec options.sync, stream⟩ given _ front
      file ⟨image.blocks, [], []⟩ :=
    .start shows.blocksSound (sessionIs ▸ shows.streamIs)
  obtain ⟨last, otherValues, otherForms, lastShows, nothingLeft, lastSeries⟩ :=
    continued.writeContent (setting again) rfl validOthers
      (by simpa [Image.records] using fewOthers) done
  obtain ⟨input, isOpened, recordsAre⟩ := opened.ofBytes_shows lastShows nothingLeft
  refine ⟨input, firstValues ++ otherValues, isOpened, ?_, ?_⟩
  · have formsAre : items.mapM (normalForm registry depthLimit (marked registry plain)) =
      .ok firstValues := firstForms
    have othersAre : others.mapM (normalForm registry depthLimit (marked registry plain)) =
      .ok otherValues := otherForms
    rw [List.mapM_append, formsAre, outcome_ok_bind, othersAre]
    rfl
  · rw [recordsAre, lastSeries, Image.series_of_latest rfl,
      ← Image.series_of_latest nothing, firstSeries]
    rfl

end Files

/-- Continuing a file extends it and never damages it. Let a schema be given without marks, without
undefined numbers, and be accepted by the reader. Let a file be written to an empty stream with the
schema, or with what it is parsed to, and let a second writer be opened further on with either of
them, whatever its options. It is accepted, and goes on with the codec and the marker of the file.
The stream keeps what it holds, also if writing fails. A second file is completed just if the writer
completes it on an empty stream, and the same bytes are put behind the first file. If attributes
have the prescribed types, and the codec expands what it has compressed, then the records of both
writers are read in their order, under the header of the first. A schema that is parsed to something
else is refused, and the stream keeps its content. -/
theorem file_continued {options again : WriterOptions} {given plain parsed first second : Json}
    {registry known : Registry} {items others : List Datum} {stream : Stream} {position : Nat}
    (distinct : given.keysDistinct = true) (defined : given.allFloats Json.isDefined = true)
    (plainly : bare given = true) (forced : Schema.parse .forced [] given = .ok (plain, registry))
    (parses : Schema.parse {} [] given = .ok (parsed, known))
    (isFirst : first = given ∨ first = parsed) (isSecond : second = given ∨ second = parsed)
    (sized : options.sync.length = syncSize)
    (metadataDistinct : (options.metadata.map Prod.fst).Nodup)
    (completes : writeFile libraries options first (.list items) Stream.empty = .ok stream)
    (behind : position ≠ 0) :
    ∃ codec writer, Codec.find? libraries options.codec = some codec ∧
      writer = Writer.start again parsed known codec options.sync ∧
      Writer.openOn libraries again second (stream.seek position) = .ok writer stream ∧
      (∀ records, stream.content <+:
        (finalSession (writeContent records ⟨writer, stream⟩)).stream.content) ∧
      (∀ final, writeFile libraries again second (.list others) (stream.seek position) = .ok final ↔
        ∃ alone, writeContent (.list others) ⟨writer, Stream.empty⟩ = .ok () alone ∧
          final = Stream.atEnd (stream.content ++ alone.stream.content)) ∧
      (Schema.wellTyped given = true →
        (∀ level, codec.Inverts level) →
        (∀ item ∈ items ++ others, Validation.check known false Schema.depthLimit item parsed
          .null = .ok true) →
        items.length < 2 ^ 63 → others.length < 2 ^ 63 →
        ∀ final, writeFile libraries again second (.list others)
          (stream.seek position) = .ok final →
          ∃ file input values, ofBytes final.content .null false = .ok (file, input) ∧
            file.header = firstHeader options first ∧
            (items ++ others).mapM (normalForm known Schema.depthLimit parsed) = .ok values ∧
            file.records libraries input = ⟨values, none⟩) ∧
      ∀ other otherParsed otherKnown, Schema.parse {} [] other = .ok (otherParsed, otherKnown) →
        otherParsed.same parsed = false →
        ∃ existing after, Writer.openOn libraries again other (stream.seek position) =
          .error (.appendMismatch otherParsed existing) after ∧
          after.content = stream.content := by
  rw [parse_form plainly forced (.inl rfl)] at parses
  cases parses
  have regular : given.Regular Json.isDefined := ⟨distinct, defined⟩
  have ⟨codec, front, rest, file, completed⟩ :=
    completed_of_writeFile plainly regular forced isFirst sized metadataDistinct completes
  have opens : Writer.openOn libraries again second (stream.seek position) =
      .ok (Writer.start again (marked registry plain) registry codec options.sync) stream :=
    (completed.openOn (parse_form plainly forced isSecond) behind).1
      (Json.sameApart_self (regular_marked regular forced))
  have atEnd : stream = Stream.atEnd stream.content := by rw [completed.streamIs]; rfl
  -- Both ways to write the second file go through the content that the writer puts to its stream.
  have writes (final : Stream) :
    writeFile libraries again second (.list others) (stream.seek position) = .ok final ↔
      ∃ session, writeContent (.list others)
        ⟨Writer.start again (marked registry plain) registry codec options.sync, stream⟩ =
          .ok () session ∧
          final = session.stream := by
    rw [writeFile_ok]
    constructor
    · rintro ⟨-, writer, found, session, isOpened, done, rfl⟩
      rw [opens] at isOpened
      cases isOpened
      exact ⟨session, done, rfl⟩
    · rintro ⟨session, done, rfl⟩
      exact ⟨nofun, _, _, session, opens, done, rfl⟩
  refine ⟨codec, _, completed.codecIs, rfl, opens, fun records => ?_, fun final => ?_, ?_, ?_⟩
  · have starts := (streams_writeContent records).keeps_content
      (Writer.start again (marked registry plain) registry codec options.sync) stream.content
    rwa [← atEnd] at starts
  · rw [writes]
    constructor
    · rintro ⟨session, done, rfl⟩
      rw [atEnd] at done
      have ⟨alone, doneAlone, sessionIs⟩ := (streams_writeContent _).ok_behind.mp done
      exact ⟨alone, doneAlone, by rw [sessionIs]; rfl⟩
    · rintro ⟨alone, doneAlone, rfl⟩
      refine ⟨alone.behind stream.content, ?_, rfl⟩
      rw [atEnd]
      exact (streams_writeContent _).ok_behind.mpr ⟨alone, doneAlone, rfl⟩
  · intro typed inverts valid few fewOthers final isWritten
    obtain ⟨session, done, rfl⟩ := (writes final).mp isWritten
    have ⟨input, values, isOpened, formsAre, recordsAre⟩ :=
      completed.records_append typed plainly forced sized inverts valid few fewOthers done
    exact ⟨file, input, values, isOpened, completed.headerIs, formsAre, recordsAre⟩
  · intro other otherParsed otherKnown parses different
    exact (completed.openOn parses behind).2 (by rw [Json.sameApart, different, Bool.and_false])

/-- Options that differ from those of the file in all that the file decides. -/
def otherOptions : WriterOptions :=
  { codec := "deflate", interval := 1, metadata := [("author", "second")],
    sync := List.replicate 16 9 }

def wordList : Datum := .dict [(.str "head", .str "yes"), (.str "rest", .null)]

/-- A word is written by a first writer, and a list of words by a second one, which has been given
the parsed schema. -/
theorem file_continued_words :
    ∃ parsed known stream final file input, Schema.parse {} [] wordSchema = .ok (parsed, known) ∧
      writeFile Codec.installed wordOptions wordSchema (.list [.str "no"])
        Stream.empty = .ok stream ∧
      writeFile Codec.installed otherOptions parsed (.list [wordList]) (stream.seek 1) = .ok final ∧
      ofBytes final.content .null false = .ok (file, input) ∧
      file.header = firstHeader wordOptions wordSchema ∧
      file.records Codec.installed input = ⟨[.str "no", wordList], none⟩ := by
  have ⟨stream, completes⟩ := writeFile_wordSchema
  have ⟨plain, registry, forced⟩ : ∃ plain registry, Schema.parse .forced [] wordSchema =
    .ok (plain, registry) := ⟨_, _, rfl⟩
  have ⟨parsed, known, parses, validWord, validList, ⟨alone, written⟩, formsAre⟩ :
      ∃ parsed known, Schema.parse {} [] wordSchema = .ok (parsed, known) ∧
        Validation.check known false Schema.depthLimit (.str "no") parsed .null = .ok true ∧
        Validation.check known false Schema.depthLimit wordList parsed .null = .ok true ∧
        (∃ alone, writeContent (.list [wordList])
          ⟨Writer.start otherOptions parsed known .null wordOptions.sync, Stream.empty⟩ =
          .ok () alone) ∧
        [.str "no", wordList].mapM (normalForm known Schema.depthLimit parsed) =
          .ok [.str "no", wordList] :=
    ⟨_, _, rfl, rfl, rfl, ⟨_, rfl⟩, rfl⟩
  obtain ⟨codec, writer, codecIs, rfl, -, -, writes, readBack, -⟩ :=
    @file_continued Codec.installed wordOptions otherOptions wordSchema plain parsed wordSchema
      parsed registry known [.str "no"] [wordList]
      stream 1 (by decide) (by decide) (by decide) forced parses (.inl rfl) (.inr rfl) (by decide)
        (by decide) completes
      (by decide)
  cases codecIs
  have isWritten := (writes _).mpr ⟨alone, written, rfl⟩
  have valid : ∀ item ∈ [.str "no"] ++ [wordList],
      Validation.check known false Schema.depthLimit item parsed .null = .ok true := by
    rw [List.forall_mem_append, List.forall_mem_singleton, List.forall_mem_singleton]
    exact ⟨validWord, validList⟩
  have ⟨file, input, values, opened, headerIs, valuesAre, recordsAre⟩ := readBack (by decide)
    (fun _ _ _ isCompressed => isCompressed.symm) valid (by decide) (by decide) _ isWritten
  have sameValues : values = [.str "no", wordList] := Except.ok.inj (valuesAre.symm.trans formsAre)
  exact ⟨parsed, known, stream, _, file, input, parses, completes, isWritten, opened, headerIs,
    sameValues ▸ recordsAre⟩

def pointMembers (name : String) : List (String × Json) :=
  [("type", .str "record"), ("name", .str name),
    ("fields", .arr [.obj [("name", .str "x"), ("type", .str "int")]])]

/-- A union of records that have been parsed one by one, each into a registry of its own. -/
def apartSchema : Json :=
  .arr [.obj (Schema.sealedMembers [("A", .obj (pointMembers "A"))] (pointMembers "A")),
    .obj (Schema.sealedMembers [("B", .obj (pointMembers "B"))] (pointMembers "B"))]

set_option maxRecDepth 10000 in
private theorem openOn_apartSchema :
    ∃ writer stream, Writer.openOn Codec.installed wordOptions apartSchema Stream.empty =
      .ok writer stream :=
  ⟨_, _, rfl⟩

/-- A schema whose branches have been parsed apart does not continue its own file: the schema in the
header is parsed with one registry for both branches, and the registries in the marks are
compared. -/
theorem own_file_not_continued :
    ∃ stream, Schema.wellTyped apartSchema = true ∧ apartSchema.allFloats Json.isDefined = true ∧
      (∃ plain registry, Schema.parse .forced [] apartSchema = .ok (plain, registry)) ∧
      writeFile Codec.installed wordOptions apartSchema (.list []) Stream.empty = .ok stream ∧
      ∀ position, position ≠ 0 → ∃ existing after,
        Writer.openOn Codec.installed wordOptions apartSchema (stream.seek position) =
          .error (.appendMismatch apartSchema existing) after := by
  have ⟨writer, stream, opens⟩ := openOn_apartSchema
  obtain ⟨_, _, codec, output, -, codecIs, headerWritten, rfl, rfl⟩ := openOn_ok opens
  have completes : writeFile Codec.installed wordOptions apartSchema (.list []) Stream.empty =
      .ok (Stream.atEnd output.written) :=
    writeFile_ok.mpr ⟨nofun, _, _, _, opens, rfl, rfl⟩
  have ⟨known, parses⟩ : ∃ known, Schema.parse {} [] apartSchema = .ok (apartSchema, known) :=
    ⟨_, rfl⟩
  have ⟨plain, registry, existing, table, parsesHeader, existingIs, different⟩ :
    ∃ plain registry existing table,
      Schema.parse .forced [] (Json.mapFloats Json.rereadFloat (headerForm apartSchema)) =
        .ok (plain, registry) ∧
      Schema.parse {} [] plain = .ok (existing, table) ∧ apartSchema.sameApart existing = false :=
      ⟨_, _, _, _, rfl, rfl, rfl⟩
  have reads := reads_openFile_of_parse (by decide) (by decide) (by decide) parsesHeader
    headerWritten
  have fileCodec : Codec.find? Codec.installed (firstHeader wordOptions apartSchema).codec =
      some codec := by
    rw [firstHeader_codec, codecIs]
  refine ⟨_, by decide, by decide, ⟨_, _, rfl⟩, completes, fun position behind => ?_⟩
  obtain ⟨after, refused, -⟩ :=
    (openOn_behind parses reads existingIs fileCodec behind []).2 different
  rw [List.append_nil] at refused
  exact ⟨existing, after, refused⟩

end Avro.Container
