import Avro.Proofs.FileSession

/-!
Contract: what a record leaves behind that fails to be written.

Owns: `Writer.failure?`, the failure of a record while it is validated or encoded, together with the
bytes that were written up to it; `Course`, a run of a session in which such failures are passed
over; and that the file of a course holds what its successful operations have submitted.

The bytes of a failed record stay in the pending block and are not counted. Behind the records of a
block nobody reads them, but a record that is written after them is not found at its place.
-/

namespace Avro.Container

variable {error : Error} {record : Datum} {session : Session} {left : Bytes}
variable {libraries : Codec.Libraries}

/-! ### A record that fails -/

/-- How a record fails before it is complete, if it does: the failure, and the bytes that have been
written up to it. -/
def Writer.failure? (writer : Writer) (record : Datum) : Option (Error × Bytes) :=
  match SessionM.validate writer record with
  | .error error => some (error, [])
  | .ok _ =>
    match Encode.write writer.registry Schema.depthLimit record writer.schema (.str "")
      BinaryOutput.empty with
    | .error error after => some (error, after.written)
    | .ok _ _ => none

namespace Session

private theorem soiled_soiled (session : Session) (first second : Bytes) :
    (session.soiled first).soiled second = session.soiled (first ++ second) := by
  simp only [soiled, BinaryOutput.append_append]

private theorem soiled_eq_self : session.soiled left = session ↔ left = [] := by
  constructor
  · intro same
    have samePending := session.pending_soiled left
    rw [same] at samePending
    exact List.self_eq_append_right.mp samePending
  · rintro rfl
    rfl

end Session

private theorem get_ok (session : Session) :
    (get : SessionM Session) session = .ok session session :=
  rfl

theorem Writer.failure?_refused {writer : Writer}
    (refused : SessionM.validate writer record = .error error) :
    writer.failure? record = some (error, []) := by
  rw [failure?, refused]

/-- A record that fails before it is complete leaves the stream and the count as they are, and its
bytes up to the failure behind what is pending. -/
theorem write_of_failure {bytes : Bytes}
    (fails : session.writer.failure? record = some (error, bytes)) :
    SessionM.write record session = .error error (session.soiled bytes) := by
  unfold Writer.failure? at fails
  cases validated : SessionM.validate session.writer record with
  | error refusal =>
    simp only [validated, Option.some.injEq, Prod.mk.injEq] at fails
    obtain ⟨rfl, rfl⟩ := fails
    rw [SessionM.write, step_bind_of_ok (get_ok session)]
    simp only [validated]
    rfl
  | ok _ =>
    simp only [validated] at fails
    cases encoded : Encode.write session.writer.registry Schema.depthLimit record
      session.writer.schema (.str "") BinaryOutput.empty with
    | ok _ after =>
      rw [encoded] at fails
      cases fails
    | error failure after =>
      simp only [encoded, Option.some.injEq, Prod.mk.injEq] at fails
      obtain ⟨rfl, rfl⟩ := fails
      have continued := write_appends session.writer.registry Schema.depthLimit record
        session.writer.schema (.str "")
        session.writer.pending
      rw [encoded, BinaryOutput.behind] at continued
      have failed : SessionM.encodeRecord record session =
          .error failure (session.soiled after.written) := by
        simp only [SessionM.encodeRecord, continued]
        rfl
      rw [SessionM.write, step_bind_of_ok (get_ok session)]
      simp only [validated]
      exact step_bind_of_error failed

/-! ### Courses -/

/-- A run of a session: operations that succeed one after the other, with failed records between
them. The bytes that failed records have left in the pending block are given beside the session.
Where there are any, no record is written until the pending block has gone to the stream. -/
inductive Course : Session → Bytes → List Operation → Session → Prop where
  | ended (session : Session) (left : Bytes) : Course session left [] session
  | performed {session next last : Session} {left : Bytes} {operation : Operation}
      {operations : List Operation}
      (clean : left = [] ∨ operation.record? = none)
      (done : operation.perform session = .ok () next)
      (others : Course next [] operations last) : Course session left (operation :: operations) last
  | failed {session next last : Session} {left bytes : Bytes} {record : Datum} {error : Error}
      {operations : List Operation}
      (failure : session.writer.failure? record = some (error, bytes))
      (fails : SessionM.write record session = .error error next)
      (others : Course next (left ++ bytes) operations last) : Course session left operations last

/-- A course adds the submissions of its operations. The induction carries the session without what
failed records have left behind. -/
theorem Course.shows {schema : Json} {opened : Writer} {front : Bytes} {file : File} {image : Image}
    {clean last : Session} {operations : List Operation} (setting : Setting schema opened file)
    (course : Course session left operations last) (sessionIs : session = clean.soiled left)
    (shows : clean.Shows schema opened front file image)
    (admissible : ∀ operation ∈ operations, operation.Admissible schema opened)
    (few : image.records.length + operations.length < 2 ^ 63) :
    ∃ (next : Image) (lastClean : Session) (lastLeft : Bytes),
      image.Adds opened file operations next ∧
      last = lastClean.soiled lastLeft ∧ lastClean.Shows schema opened front file next := by
  induction course generalizing clean image with
  | ended session left => exact ⟨image, clean, left, .nil, sessionIs, shows⟩
  | @performed session next last left operation operations isClean done others ih =>
    rw [List.forall_mem_cons] at admissible
    rw [List.length_cons] at few
    rw [sessionIs] at done
    obtain ⟨middle, first, isFirst, middleShows, -, middleRecords, middleSeries⟩ :=
      shows.perform setting admissible.1 (by omega) isClean done
    obtain ⟨final, lastClean, lastLeft, adds, lastIs, finalShows⟩ :=
      ih (show next = next.soiled [] from rfl) middleShows admissible.2
        (Image.Adds.fewer middleRecords few)
    exact ⟨final, lastClean, lastLeft, .cons isFirst middleRecords middleSeries adds,
      lastIs, finalShows⟩
  | @failed session next last left bytes record error operations failure fails others ih =>
    have nextIs : next = clean.soiled (left ++ bytes) := by
      rw [write_of_failure failure] at fails
      cases fails
      rw [sessionIs, clean.soiled_soiled]
    exact ih nextIs shows admissible few

/-- What a failed record does to a session, and to the file that is written after it. A record that
fails while it is validated or encoded leaves the stream and the count as they were, and behind what
is pending it leaves the bytes that were written up to the failure. So the session is as it was
exactly if there are none, as is the case if the record was refused by validation. Let a writer be
opened on an empty stream, and let operations succeed on it, with failed records between them, such
that no record is written behind bytes that a failed one has left in the pending block. After
flushing, the file is read as what the successful operations have submitted, in their order. -/
theorem records_course {options : WriterOptions} {schema plain : Json} {registry : Registry}
    {writer : Writer} {stream : Stream} {operations : List Operation} {session : Session}
    (typed : Schema.wellTyped schema = true) (schemaDistinct : schema.keysDistinct = true)
    (truthful : Schema.Truthful schema)
    (forced : Schema.parse .forced [] schema = .ok (plain, registry))
    (sized : options.sync.length = syncSize) (distinct : (options.metadata.map Prod.fst).Nodup)
    (opens : Writer.openOn libraries options schema Stream.empty = .ok writer stream)
    (inverts : writer.codec.Inverts options.level)
    (admissible : ∀ operation ∈ operations, operation.Admissible schema writer)
    (few : operations.length < 2 ^ 63) (course : Course ⟨writer, stream⟩ [] operations session) :
    (∀ (before : Session) (record : Datum) (error : Error) (bytes : Bytes),
      before.writer.failure? record = some (error, bytes) →
        SessionM.write record before = .error error (before.soiled bytes) ∧
        (before.soiled bytes = before ↔ bytes = []) ∧
        (SessionM.validate before.writer record = .error error → bytes = [])) ∧
    ∀ final, SessionM.flush session = .ok () final →
      ∃ file input, ofBytes final.stream.content .null false = .ok (file, input) ∧
        Operation.submissions writer operations = .ok (file.records libraries input) := by
  refine ⟨fun before record error bytes fails =>
    ⟨write_of_failure fails, Session.soiled_eq_self, fun refused => ?_⟩,
    fun final flushed => ?_⟩
  · rw [Writer.failure?_refused refused] at fails
    cases fails
    rfl
  · obtain ⟨output, file, -, opened, -, started⟩ :=
      opened_of_openOn typed schemaDistinct truthful forced sized distinct opens inverts
    obtain ⟨image, clean, left, adds, rfl, shows⟩ :=
      course.shows opened.setting rfl started admissible (by simpa [Image.records] using few)
    exact opened.flushed adds few shows left flushed

def pairSchema : Json :=
  .obj [("type", .str "record"), ("name", .str "Pair"),
    ("fields", .arr [.obj [("name", .str "a"), ("type", .str "int")],
      .obj [("name", .str "b"), ("type", .str "int")]])]

def pairOptions : WriterOptions := { sync := List.replicate 16 7 }

/-- The writer of pairs, whose schema has the marks of having been parsed. -/
def pairWriter : Writer :=
  Writer.start pairOptions (.obj [("type", .str "record"), ("name", .str "Pair"),
    ("fields", .arr [.obj [("name", .str "a"), ("type", .str "int")],
      .obj [("name", .str "b"), ("type", .str "int")]]),
    (Schema.parsedKey, .bool true), (Schema.registryKey, .obj [("Pair", pairSchema)])])
    [("Pair", pairSchema)] .null pairOptions.sync

def pairDatum (first second : Int) : Datum :=
  .dict [(.str "a", .int first), (.str "b", .int second)]

/-- A pair whose second part is missing. -/
def brokenPair : Datum := .dict [(.str "a", .int 1), (.str "b", .null)]

def pairSession (pending : Bytes) (count : Nat) (stream : Stream) : Session :=
  ⟨{ pairWriter with pending := ⟨pending.reverse⟩, count := count }, stream⟩

set_option maxRecDepth 10000 in
theorem openOn_pairSchema :
    ∃ stream, Writer.openOn Codec.installed pairOptions pairSchema Stream.empty =
      .ok pairWriter stream :=
  ⟨_, rfl⟩

theorem forced_pairSchema :
    Schema.parse .forced [] pairSchema = .ok (pairSchema, [("Pair", pairSchema)]) :=
  rfl

/-- A pair is written, another one fails, and a third one is written once the block of the first has
gone to the stream. -/
theorem records_course_pairs :
    ∃ stream session final file input, Writer.openOn Codec.installed pairOptions pairSchema
      Stream.empty = .ok pairWriter stream ∧
      pairWriter.failure? brokenPair = some (.wrongType ["b"], [2]) ∧
      Course ⟨pairWriter, stream⟩ []
        [.write (pairDatum 3 5), .flush, .write (pairDatum 7 9)] session ∧
      SessionM.flush session = .ok () final ∧
      ofBytes final.stream.content .null false = .ok (file, input) ∧
      file.records Codec.installed input = ⟨[pairDatum 3 5, pairDatum 7 9], none⟩ := by
  obtain ⟨stream, opens⟩ := openOn_pairSchema
  have first : (Operation.write (pairDatum 3 5)).perform ⟨pairWriter, stream⟩ =
    .ok () (pairSession [6, 10] 1 stream) := rfl
  have fails : SessionM.write brokenPair (pairSession [6, 10] 1 stream) =
      .error (.wrongType ["b"]) (pairSession [6, 10, 2] 1 stream) := rfl
  obtain ⟨after, flushed⟩ : ∃ after, Operation.flush.perform (pairSession [6, 10, 2] 1 stream) =
      .ok () (pairSession [] 0 after) := ⟨_, rfl⟩
  have third : (Operation.write (pairDatum 7 9)).perform (pairSession [] 0 after) =
    .ok () (pairSession [14, 18] 1 after) := rfl
  obtain ⟨final, done⟩ : ∃ final, SessionM.flush (pairSession [14, 18] 1 after) =
    .ok () final := ⟨_, rfl⟩
  have course : Course ⟨pairWriter, stream⟩ []
    [.write (pairDatum 3 5), .flush, .write (pairDatum 7 9)]
      (pairSession [14, 18] 1 after) :=
    .performed (.inl rfl) first
      (.failed rfl fails (.performed (.inr rfl) flushed (.performed (.inl rfl) third (.ended _ _))))
  have typed : Schema.wellTyped pairSchema = true := by decide
  have admissible : ∀ operation ∈ [Operation.write (pairDatum 3 5), .flush, .write (pairDatum 7 9)],
      operation.Admissible pairSchema pairWriter := by
    intro operation isOperation
    simp only [List.mem_cons, List.not_mem_nil, or_false] at isOperation
    rcases isOperation with rfl | rfl | rfl
    · exact .write rfl
    · exact .flush
    · exact .write rfl
  obtain ⟨file, input, isOpened, submitted⟩ := (records_course typed (by decide)
    (Schema.truthful_of_unmarked (by decide)) forced_pairSchema (by decide) (by decide) opens
    (fun _ _ isCompressed => isCompressed.symm) admissible (by decide) course).2 final done
  have submissionsAre : Operation.submissions pairWriter
    [.write (pairDatum 3 5), .flush, .write (pairDatum 7 9)] =
      .ok ⟨[pairDatum 3 5, pairDatum 7 9], none⟩ := rfl
  rw [submissionsAre, Except.ok.injEq] at submitted
  exact ⟨stream, _, final, file, input, opens, rfl, course, done, isOpened, submitted.symm⟩

/-- A failed record can spoil the next one. The first pair fails at its second part, and its first
part stays in the pending block. The second pair is written behind it, and a pair is read that
nobody has written. -/
theorem failed_record_spoils_next :
    ∃ stream failed session final file input,
      Writer.openOn Codec.installed pairOptions pairSchema Stream.empty = .ok pairWriter stream ∧
      SessionM.write brokenPair ⟨pairWriter, stream⟩ = .error (.wrongType ["b"]) failed ∧
      failed.writer.pending.written = [2] ∧ failed ≠ ⟨pairWriter, stream⟩ ∧
      SessionM.write (pairDatum 3 5) failed = .ok () session ∧
      SessionM.flush session = .ok () final ∧
      ofBytes final.stream.content .null false = .ok (file, input) ∧
      file.records Codec.installed input = ⟨[pairDatum 1 3], none⟩ := by
  have ⟨stream, opens⟩ := openOn_pairSchema
  obtain ⟨output, after, -, rfl, isOpened⟩ :=
    ofBytes_of_openOn (by decide) (by decide) (by decide) opens forced_pairSchema rfl
    ([2, 6, 2, 6, 10] ++ List.replicate 16 7)
  refine ⟨_, pairSession [2] 0 (Stream.atEnd output.written),
    pairSession [2, 6, 10] 1 (Stream.atEnd output.written),
    pairSession [] 0 (Stream.atEnd (output.written ++ ([2, 6, 2, 6, 10] ++ List.replicate 16 7))),
    _, _, opens, rfl, rfl,
    ?_, rfl, ?_, isOpened, ?_⟩
  · intro unchanged
    have samePending : ([2] : Bytes) = [] :=
      congrArg (fun session => session.writer.pending.written) unchanged
    cases samePending
  · have flushed : SessionM.flush (pairSession [2, 6, 10] 1 (Stream.atEnd output.written)) =
        .ok () (pairSession [] 0 ((((Stream.atEnd output.written).put (Varint.encode 1)).put
          (Varint.encode 3 ++ [2, 6, 10])).put pairOptions.sync)) := rfl
    rw [flushed, put_atEnd, put_atEnd, put_atEnd, List.append_assoc, List.append_assoc]
    rfl
  · rfl

end Avro.Container
