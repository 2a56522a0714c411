import Avro.Codec.Installed
import Avro.Proofs.FileBlocks
import Avro.Proofs.FileHeader

/-!
Contract: a container file holds what its writer has been given.

Owns: the operations on a writer, what they submit to the file, and the invariant that ties the
pending bytes, the count and the stream of a session to them; `Opened`, a writer and the file that
the bytes in front of its blocks open. A file that is written by any series of operations is read as
what they have submitted, in their order.
-/

namespace Avro.Container

open Schema (Alike depthLimit parse wellTyped wellTyped_parse)

variable {file : File} {registry : Registry} {schema plain : Json} {count : Int} {data : Bytes}
  {record : Datum}
variable {libraries : Codec.Libraries}
  {blocks : List StoredBlock} {options : WriterOptions} {stream : Stream}

/-! ### Operations -/

/-- An operation on a writer. A block that is copied comes from a file. -/
inductive Operation where
  | write (record : Datum)
  | copy (source : File) (block : Block)
  | flush
  | dump

namespace Operation

def perform : Operation → SessionM Unit
  | write record => SessionM.write record
  | copy _ block => SessionM.writeBlock block
  | flush => SessionM.flush
  | dump => SessionM.dump

def performAll : List Operation → SessionM Unit
  | [] => pure ()
  | operation :: rest => do
    operation.perform
    performAll rest

def record? : Operation → Option Datum
  | write record => some record
  | _ => none

/-- What an operation adds to a file: the normal form of a record, or the records of a block in the
file it comes from. -/
def submission (writer : Writer) : Operation → Outcome (Series Datum)
  | write record => do return ⟨[← normalForm writer.registry depthLimit writer.schema record], none⟩
  | copy source block => .ok (source.recordsOfBlock block)
  | flush => .ok .ended
  | dump => .ok .ended

/-- What operations add to a file, one after the other. -/
def submissions (writer : Writer) : List Operation → Outcome (Series Datum)
  | [] => .ok .ended
  | operation :: rest => do
    let first ← operation.submission writer
    let others ← submissions writer rest
    return first.append fun _ => others

/-- What a writer may be given: records that its schema accepts, and blocks of files of the same
schema. -/
inductive Admissible (schema : Json) (writer : Writer) : Operation → Prop where
  | write {record : Datum}
      (valid : Validation.check writer.registry false depthLimit record writer.schema
        .null = .ok true) :
      Admissible schema writer (.write record)
  | copy {data : Bytes} {source : File} {input : BinaryInput} {block : Block}
      (opened : ofBytes data .null false = .ok (source, input)) (same : Alike schema source.schema)
      (countLower : -2 ^ 63 ≤ block.count) (countUpper : block.count < 2 ^ 63) :
      Admissible schema writer (.copy source block)
  | flush : Admissible schema writer .flush
  | dump : Admissible schema writer .dump

end Operation

/-! ### What an operation does to a session -/

theorem put_atEnd (content bytes : Bytes) :
    (Stream.atEnd content).put bytes = Stream.atEnd (content ++ bytes) := by
  simp [Stream.put, Stream.atEnd]

section Steps

variable {session after : Session} {content : Bytes}

theorem putBlock_ok (atEnd : session.stream = Stream.atEnd content)
    (done : SessionM.putBlock count data session = .ok () after) :
    ∃ compressed, session.writer.codec.compress session.writer.level data = .ok compressed ∧
      compressed.length < Datum.sizeLimit ∧
      after = ⟨session.writer,
        Stream.atEnd (content ++ StoredBlock.bytes session.writer.sync
          ⟨count, data, compressed⟩)⟩ := by
  obtain ⟨writer, stream⟩ := session
  change stream = Stream.atEnd content at atEnd
  subst atEnd
  obtain ⟨_, _, started, done⟩ := step_bind_ok.mp done
  cases started
  obtain ⟨_, _, got, done⟩ := step_bind_ok.mp done
  cases got
  cases isCompressed : writer.codec.compress writer.level data with
  | error error =>
    simp only [isCompressed] at done
    cases done
  | ok compressed =>
    simp only [isCompressed] at done
    split at done
    · cases done
    · rename_i small
      cases done
      refine ⟨compressed, rfl, by omega, ?_⟩
      simp only [put_atEnd, StoredBlock.bytes, List.append_assoc]

theorem dump_ok (done : SessionM.dump session = .ok () after) :
    ∃ between, SessionM.putBlock session.writer.count session.writer.pending.written session =
      .ok () between ∧
      after = ⟨{ between.writer with count := 0, pending := .empty }, between.stream⟩ := by
  obtain ⟨_, _, got, done⟩ := step_bind_ok.mp done
  cases got
  obtain ⟨_, between, blockDone, done⟩ := step_bind_ok.mp done
  cases done
  exact ⟨between, blockDone, rfl⟩

theorem flush_ok (done : SessionM.flush session = .ok () after) :
    session.writer.pending = .empty ∧ session.writer.count = 0 ∧ after = session ∨
      SessionM.dump session = .ok () after := by
  obtain ⟨_, _, got, done⟩ := step_bind_ok.mp done
  cases got
  split at done
  · exact .inr done
  · rename_i nothing
    simp only [ne_eq, decide_not, gt_iff_lt, Bool.or_eq_true, Bool.not_eq_eq_eq_not, Bool.not_true,
      decide_eq_false_iff_not, decide_eq_true_eq, not_or, not_not, Nat.not_lt,
      Nat.le_zero] at nothing
    cases done
    exact .inl ⟨nothing.1, nothing.2, rfl⟩

/-- A session with a record more in its pending block. -/
def Session.filled (session : Session) (pending : BinaryOutput) : Session :=
  { session with
    writer := { session.writer with pending := pending, count := session.writer.count + 1 } }

theorem write_ok (done : SessionM.write record session = .ok () after) :
    ∃ pending, Encode.write session.writer.registry depthLimit record
      session.writer.schema (.str "")
        session.writer.pending = .ok () pending ∧
      ((pending.written.length : Int) < session.writer.interval ∧ after = session.filled pending ∨
        SessionM.dump (session.filled pending) = .ok () after) := by
  obtain ⟨_, _, got, done⟩ := step_bind_ok.mp done
  cases got
  cases validated : SessionM.validate session.writer record with
  | error error =>
    simp only [validated] at done
    cases done
  | ok value =>
    simp only [validated] at done
    obtain ⟨_, between, encoded, done⟩ := step_bind_ok.mp done
    unfold SessionM.encodeRecord at encoded
    cases isWritten : Encode.write session.writer.registry depthLimit record
      session.writer.schema (.str "")
        session.writer.pending with
    | error error stopped =>
      simp only [isWritten] at encoded
      cases encoded
    | ok value pending =>
      simp only [isWritten] at encoded
      cases encoded
      obtain ⟨_, _, counted, done⟩ := step_bind_ok.mp done
      cases counted
      obtain ⟨_, _, got, done⟩ := step_bind_ok.mp done
      cases got
      refine ⟨pending, rfl, ?_⟩
      split at done
      · exact .inr done
      · rename_i below
        cases done
        exact .inl ⟨by simpa using below, rfl⟩

theorem writeBlock_ok {block : Block} (done : SessionM.writeBlock block session = .ok () after) :
    ∃ between, SessionM.flush session = .ok () between ∧
      SessionM.putBlock block.count block.data between = .ok () after := by
  obtain ⟨_, between, flushed, done⟩ := step_bind_ok.mp done
  exact ⟨between, flushed, done⟩

end Steps

/-- A session with bytes behind what is pending. -/
def Session.soiled (session : Session) (left : Bytes) : Session :=
  { session with writer := { session.writer with pending := session.writer.pending.append left } }

theorem Session.pending_soiled (session : Session) (left : Bytes) :
    (session.soiled left).writer.pending.written = session.writer.pending.written ++ left :=
  BinaryOutput.written_append _ _

/-! ### The invariant -/

/-- A record of the pending block, with the bytes that it is written as and the value that it is
read as. -/
structure PendingRecord where
  record : Datum
  bytes : Bytes
  value : Datum

/-- What a session has done: the blocks in the stream, the records that went there, and the records
of the pending block. -/
structure Image where
  blocks : List StoredBlock
  earlier : List Datum
  latest : List PendingRecord

namespace Image

def records (image : Image) : List Datum := image.earlier ++ image.latest.map PendingRecord.record

/-- The records that are read once the pending block has been written. -/
def series (image : Image) (file : File) : Series Datum :=
  (recordsOfBlocks file image.blocks).append fun _ => ⟨image.latest.map PendingRecord.value, none⟩

def push (image : Image) (entry : PendingRecord) : Image :=
  { image with latest := image.latest ++ [entry] }

def close (image : Image) (block : StoredBlock) : Image :=
  ⟨image.blocks ++ [block], image.records, []⟩

private theorem records_push (image : Image) (entry : PendingRecord) :
    (image.push entry).records = image.records ++ [entry.record] := by
  simp [push, records]

theorem records_close (image : Image) (block : StoredBlock) :
    (image.close block).records = image.records := by
  simp [close, records]

private theorem series_push (image : Image) (entry : PendingRecord) (file : File) :
    (image.push entry).series file = (image.series file).append fun _ => ⟨[entry.value], none⟩ := by
  rw [series, series, Series.append_assoc]
  simp [push, Series.append]

theorem series_of_latest {image : Image} (nothing : image.latest = []) (file : File) :
    image.series file = recordsOfBlocks file image.blocks := by
  rw [series, nothing]
  exact Series.append_ended _

theorem series_close (image : Image) (block : StoredBlock) (file : File) :
    (image.close block).series file =
      (recordsOfBlocks file image.blocks).append fun _ =>
        file.recordsOf block.count.toNat block.data := by
  rw [series_of_latest rfl, close, recordsOfBlocks_append]
  simp only [recordsOfBlocks, Series.append_ended]

end Image

/-- What stays the same in a session: a writer for a schema, whose codec expands what it has
compressed, and a file that reads records as the writer's schema has them. -/
structure Setting (schema : Json) (opened : Writer) (file : File) : Prop where
  parses : parse {} [] schema = .ok (opened.schema, opened.registry)
  typed : wellTyped opened.schema = true
  registryTyped : Schema.RegistryTyped opened.registry
  reads : file.readRecord = Decode.read opened.registry depthLimit opened.schema .null false
  readsSource : ∀ ⦃data source input⦄, ofBytes data .null false = .ok (source, input) →
  Alike schema source.schema →
    source.readRecord = file.readRecord
  inverts : opened.codec.Inverts opened.level

/-- The invariant: a session that has done what an image says, behind the header of its file. -/
structure Session.Shows (session : Session) (schema : Json) (opened : Writer) (front : Bytes)
    (file : File)
    (image : Image) : Prop where
  writerIs : session.writer =
    { opened with count := image.latest.length, pending := session.writer.pending }
  streamIs : session.stream = Stream.atEnd
    (front ++ image.blocks.flatMap (StoredBlock.bytes opened.sync))
  blocksSound : ∀ block ∈ image.blocks, block.Sound opened.codec
  pendingIs : session.writer.pending.written = image.latest.flatMap PendingRecord.bytes
  encoded : ∀ entry ∈ image.latest, Encode.single schema entry.record = .ok entry.bytes
  readable : ∀ entry ∈ image.latest, Reads file.readRecord entry.bytes entry.value

section Invariant

variable {schema : Json} {opened : Writer} {front : Bytes} {file : File} {image : Image}
  {session after : Session}

section Soiled

variable (setting : Setting schema opened file)
  (shows : session.Shows schema opened front file image) (left : Bytes)
include setting shows

theorem Session.Shows.putBlock (countLower : -2 ^ 63 ≤ count) (countUpper : count < 2 ^ 63)
    (done : SessionM.putBlock count data (session.soiled left) = .ok () after) :
    ∃ block : StoredBlock, block.count = count ∧ block.data = data ∧
      (∀ stored ∈ image.blocks ++ [block], stored.Sound opened.codec) ∧
      after = ⟨(session.soiled left).writer,
        Stream.atEnd (front ++ (image.blocks ++ [block]).flatMap
          (StoredBlock.bytes opened.sync))⟩ := by
  have streamIs : (session.soiled left).stream = _ := shows.streamIs
  obtain ⟨compressed, isCompressed, small, rfl⟩ := putBlock_ok streamIs done
  have writerIs : (session.soiled left).writer =
      { opened with
        count := image.latest.length, pending := (session.soiled left).writer.pending } := by
    rw [Session.soiled, shows.writerIs]
  rw [writerIs] at isCompressed
  refine ⟨⟨count, data, compressed⟩, rfl, rfl, ?_, ?_⟩
  · exact List.forall_mem_append.mpr ⟨shows.blocksSound, List.forall_mem_singleton.mpr
      ⟨countLower, countUpper, small, setting.inverts isCompressed⟩⟩
  · rw [show (session.soiled left).writer.sync = opened.sync by rw [writerIs]]
    simp

/-- The pending block goes to the stream, with bytes behind its records that nobody reads there. -/
theorem Session.Shows.dump (few : image.latest.length < 2 ^ 63)
    (done : SessionM.dump (session.soiled left) = .ok () after) :
    ∃ block, after.Shows schema opened front file (image.close block) ∧
      (image.close block).series file = image.series file := by
  obtain ⟨between, blockDone, rfl⟩ := dump_ok done
  have countIs : (session.soiled left).writer.count = image.latest.length := by
    rw [Session.soiled, shows.writerIs]
  rw [countIs, session.pending_soiled, shows.pendingIs] at blockDone
  obtain ⟨block, blockCount, blockData, sound, rfl⟩ :=
    shows.putBlock setting left (by omega) (by omega) blockDone
  refine ⟨block, ⟨?_, rfl, sound, rfl, List.forall_mem_nil _, List.forall_mem_nil _⟩, ?_⟩
  · change { session.writer with count := 0, pending := .empty } =
      { opened with count := 0, pending := .empty }
    rw [shows.writerIs]
  · rw [Image.series_close, blockCount, blockData, Int.toNat_natCast,
      recordsOf_flatMap shows.readable, Image.series]

theorem Session.Shows.flush (few : image.latest.length < 2 ^ 63)
    (done : SessionM.flush (session.soiled left) = .ok () after) :
    ∃ flushed : Image, after.Shows schema opened front file flushed ∧ flushed.latest = [] ∧
      flushed.records = image.records ∧ flushed.series file = image.series file := by
  rcases flush_ok done with ⟨nothing, noCount, rfl⟩ | dumped
  · have countIs : (session.soiled left).writer.count = image.latest.length := by
      rw [Session.soiled, shows.writerIs]
    have nothingLeft := session.pending_soiled left
    rw [nothing, BinaryOutput.written_empty, List.nil_eq, List.append_eq_nil_iff] at nothingLeft
    obtain ⟨-, rfl⟩ := nothingLeft
    exact ⟨image, shows, List.length_eq_zero_iff.mp (by omega), rfl, rfl⟩
  · obtain ⟨block, stored, sameSeries⟩ := shows.dump setting left few dumped
    exact ⟨image.close block, stored, rfl, image.records_close block, sameSeries⟩

end Soiled

theorem Session.Shows.filled (setting : Setting schema opened file)
    (shows : session.Shows schema opened front file image)
    {pending : BinaryOutput}
    (valid : Validation.check opened.registry false depthLimit record opened.schema
    .null = .ok true)
    (written : Encode.write session.writer.registry depthLimit record
      session.writer.schema (.str "")
      session.writer.pending = .ok () pending) : ∃ entry : PendingRecord, entry.record = record ∧
      normalForm opened.registry depthLimit opened.schema record = .ok entry.value ∧
      (session.filled pending).Shows schema opened front file (image.push entry) := by
  rw [show session.writer.registry = opened.registry by rw [shows.writerIs],
    show session.writer.schema = opened.schema by rw [shows.writerIs]] at written
  obtain ⟨bytes, value, rfl, isNormal, reads⟩ :=
    carriesAccepted setting.registryTyped depthLimit setting.typed valid _ _ written
  have single : Encode.single schema record = .ok bytes := by
    obtain ⟨first, started, firstIs⟩ := Appends.ok_empty (write_appends _ _ _ _ _) written
    rw [Encode.single, setting.parses, outcome_ok_bind]
    simp only [started, firstIs]
    rfl
  refine ⟨⟨record, bytes, value⟩, rfl, isNormal, ?_, shows.streamIs, shows.blocksSound, ?_, ?_, ?_⟩
  · have countIs : session.writer.count = image.latest.length := by rw [shows.writerIs]
    simp only [Session.filled, Image.push, List.length_append, List.length_singleton, countIs]
    rw [shows.writerIs]
  · simp [Session.filled, Image.push, shows.pendingIs]
  · exact List.forall_mem_append.mpr ⟨shows.encoded, List.forall_mem_singleton.mpr single⟩
  · rw [← setting.reads] at reads
    exact List.forall_mem_append.mpr ⟨shows.readable, List.forall_mem_singleton.mpr reads⟩

/-- What is pending is less than a block, if it is anything. -/
def Session.Small (session : Session) : Prop :=
  session.writer.pending.written = [] ∨
  (session.writer.pending.written.length : Int) < session.writer.interval

theorem Session.Shows.small (shows : session.Shows schema opened front file image)
    (nothing : image.latest = []) : session.Small := by
  refine .inl ?_
  rw [shows.pendingIs, nothing]
  rfl

/-- An operation adds its submission, and its record, to what a session has done. No record is
written behind bytes that were left behind what is pending. -/
theorem Session.Shows.perform (setting : Setting schema opened file)
    (shows : session.Shows schema opened front file image) {operation : Operation}
    (admissible : operation.Admissible schema opened) (few : image.records.length + 1 < 2 ^ 63)
    {left : Bytes} (clean : left = [] ∨ operation.record? = none)
    (done : operation.perform (session.soiled left) = .ok () after) :
    ∃ (next : Image) (added : Series Datum), operation.submission opened = .ok added ∧
      after.Shows schema opened front file next ∧ after.Small ∧
      next.records = image.records ++ operation.record?.toList ∧
      next.series file = (image.series file).append fun _ => added := by
  have fewLatest : image.latest.length + 1 < 2 ^ 63 := by
    rw [Image.records, List.length_append, List.length_map] at few
    omega
  cases admissible with
  | @write record valid =>
    obtain rfl : left = [] := clean.resolve_right (Option.some_ne_none record)
    obtain ⟨pending, written, finished⟩ := @write_ok _ session _ done
    obtain ⟨entry, recordIs, isNormal, pushed⟩ := shows.filled setting valid written
    have submitted : (Operation.write record).submission opened = .ok ⟨[entry.value], none⟩ := by
      rw [Operation.submission, isNormal]
      rfl
    rcases finished with ⟨below, rfl⟩ | dumped
    · refine ⟨image.push entry, _, submitted, pushed, .inr below, ?_, image.series_push entry file⟩
      rw [image.records_push, recordIs]
      rfl
    · have fewPushed : (image.push entry).latest.length < 2 ^ 63 := by
        simpa [Image.push] using fewLatest
      obtain ⟨block, closed, sameSeries⟩ := pushed.dump setting [] fewPushed dumped
      refine ⟨(image.push entry).close block, _, submitted, closed, closed.small rfl, ?_, ?_⟩
      · rw [Image.records_close, image.records_push, recordIs]
        rfl
      · rw [sameSeries, image.series_push]
  | @copy data source input block isOpened same countLower countUpper =>
    obtain ⟨between, flushDone, blockDone⟩ := writeBlock_ok done
    obtain ⟨flushed, flushedShows, nothing, sameRecords, sameSeries⟩ :=
      shows.flush setting left (by omega) flushDone
    obtain ⟨stored, storedCount, storedData, sound, rfl⟩ :=
      flushedShows.putBlock setting [] countLower countUpper blockDone
    have writerIs := flushedShows.writerIs
    have pendingIs := flushedShows.pendingIs
    rw [nothing] at writerIs pendingIs
    refine ⟨flushed.close stored, source.recordsOfBlock block, rfl,
      ⟨writerIs, rfl, sound, pendingIs, List.forall_mem_nil _, List.forall_mem_nil _⟩,
      .inl pendingIs, ?_, ?_⟩
    · rw [Image.records_close, sameRecords]
      exact (List.append_nil _).symm
    · rw [Image.series_close, storedCount, storedData, ← Image.series_of_latest nothing, sameSeries,
        ← recordsOf_congr (setting.readsSource isOpened same)]
      rfl
  | flush =>
    obtain ⟨flushed, flushedShows, nothing, sameRecords, sameSeries⟩ :=
      shows.flush setting left (by omega) done
    refine ⟨flushed, .ended, rfl, flushedShows, flushedShows.small nothing, ?_, ?_⟩
    · rw [sameRecords]
      exact (List.append_nil _).symm
    · rw [sameSeries, Series.append_ended]
  | dump =>
    obtain ⟨block, closed, sameSeries⟩ := shows.dump setting left (by omega) done
    refine ⟨image.close block, .ended, rfl, closed, closed.small rfl, ?_, ?_⟩
    · rw [image.records_close]
      exact (List.append_nil _).symm
    · rw [sameSeries, Series.append_ended]

/-- What operations make of an image: their records join it, and what they submit is read behind
what it shows. -/
structure Image.Adds (opened : Writer) (file : File) (operations : List Operation)
    (image next : Image) : Prop where
  recordsAre : next.records = image.records ++ operations.filterMap Operation.record?
  seriesIs : ∃ added, Operation.submissions opened operations = .ok added ∧
    next.series file = (image.series file).append fun _ => added

namespace Image.Adds

variable {middle next : Image} {operation : Operation} {operations : List Operation}
  {added : Series Datum}

theorem nil : Adds opened file [] image image :=
  ⟨(List.append_nil _).symm, .ended, rfl, (Series.append_ended _).symm⟩

theorem cons (submitted : operation.submission opened = .ok added)
    (recordsAre : middle.records = image.records ++ operation.record?.toList)
    (seriesIs : middle.series file = (image.series file).append fun _ => added)
    (others : Adds opened file operations middle next) :
    Adds opened file (operation :: operations) image next := by
  obtain ⟨nextRecords, later, isLater, nextSeries⟩ := others
  refine ⟨?_, added.append fun _ => later, ?_, ?_⟩
  · rw [nextRecords, recordsAre, List.append_assoc, List.filterMap_cons]
    cases operation.record? <;> rfl
  · rw [Operation.submissions, submitted, outcome_ok_bind, isLater]
    rfl
  · rw [nextSeries, seriesIs, Series.append_assoc]

/-- An operation writes one record at most. -/
theorem fewer (recordsAre : middle.records = image.records ++ operation.record?.toList)
    (few : image.records.length + (operations.length + 1) < 2 ^ 63) :
    middle.records.length + operations.length < 2 ^ 63 := by
  have atMostOne : operation.record?.toList.length ≤ 1 := by
    cases operation <;> simp [Operation.record?]
  rw [recordsAre, List.length_append]
  omega

theorem fewLatest (adds : Adds opened file operations image next)
    (few : image.records.length + operations.length < 2 ^ 63) : next.latest.length < 2 ^ 63 := by
  have length := congrArg List.length adds.recordsAre
  have atMost := List.length_filterMap_le Operation.record? operations
  rw [Image.records, List.length_append, List.length_map, List.length_append] at length
  omega

end Image.Adds

theorem Session.Shows.performAll (setting : Setting schema opened file)
    {operations : List Operation} (shows : session.Shows schema opened front file image)
    (small : session.Small)
    (admissible : ∀ operation ∈ operations, operation.Admissible schema opened)
    (few : image.records.length + operations.length < 2 ^ 63)
    (done : Operation.performAll operations session = .ok () after) :
    ∃ next, image.Adds opened file operations next ∧ after.Shows schema opened front file next ∧
      after.Small := by
  induction operations generalizing image session with
  | nil =>
    cases done
    exact ⟨image, .nil, shows, small⟩
  | cons operation rest ih =>
    rw [List.forall_mem_cons] at admissible
    rw [List.length_cons] at few
    obtain ⟨_, between, firstDone, restDone⟩ := step_bind_ok.mp done
    obtain ⟨middle, first, isFirst, middleShows, middleSmall, middleRecords, middleSeries⟩ :=
      shows.perform setting admissible.1 (by omega) (.inl rfl) firstDone
    obtain ⟨next, others, nextShows, nextSmall⟩ :=
      ih middleShows middleSmall admissible.2 (Image.Adds.fewer middleRecords few) restDone
    exact ⟨next, .cons isFirst middleRecords middleSeries others, nextShows, nextSmall⟩

private theorem mapM_single {entries : List PendingRecord}
    (encoded : ∀ entry ∈ entries, Encode.single schema entry.record = .ok entry.bytes) :
    (entries.map PendingRecord.record).mapM (Encode.single schema) =
      .ok (entries.map PendingRecord.bytes) := by
  rw [mapM_ok, List.forall₂_map_left_iff, List.forall₂_map_right_iff, List.forall₂_same]
  exact encoded

end Invariant

/-! ### The file -/

private theorem ofBytes_ok {input : BinaryInput}
    (opened : ofBytes data .null false = .ok (file, input)) :
    parse .forced [] file.schema = .ok (file.writerSchema, file.registry) ∧
    file.readerSchema = .null ∧
      file.named = false := by
  unfold ofBytes at opened
  split at opened
  · rename_i found after isOpen
    cases opened
    obtain ⟨_, _, isReader, isOpen⟩ := step_bind_ok.mp isOpen
    cases isReader
    obtain ⟨header, _, -, isOpen⟩ := step_bind_ok.mp isOpen
    obtain ⟨schema, _, schemaIs, isOpen⟩ := step_bind_ok.mp isOpen
    obtain ⟨⟨writer, registry⟩, _, parses, isOpen⟩ := step_bind_ok.mp isOpen
    cases isOpen
    exact ⟨(readLift_ok.mp parses).1, rfl, rfl⟩
  · cases opened

/-- Files whose schemas are alike to one schema read records as that schema is read by force. -/
theorem readRecord_of_alike (typed : wellTyped schema = true)
    (forced : parse .forced [] schema = .ok (plain, registry))
    (plainAlike : Alike plain file.writerSchema)
    (registryAlike : Schema.AlikeRegistries registry file.registry)
    (readerIs : file.readerSchema = .null) (namedIs : file.named = false) :
    file.readRecord = Decode.read registry depthLimit plain .null false := by
  rw [File.readRecord, readerIs, namedIs]
  exact (Schema.read_alike typed forced plainAlike registryAlike depthLimit).symm

/-- A writer that has been opened on an empty stream, and any file with the schema of its header,
are a setting. -/
theorem setting_of_alike {opened : Writer} (typed : wellTyped schema = true)
    (truthful : Schema.Truthful schema) (forced : parse .forced [] schema = .ok (plain, registry))
    (parses : parse {} [] schema = .ok (opened.schema, opened.registry))
    (inverts : opened.codec.Inverts opened.level)
    (reads : file.readRecord = Decode.read registry depthLimit plain .null false) :
    Setting schema opened file := by
  obtain ⟨openedTyped, openedRegistryTyped⟩ := wellTyped_parse parses typed (List.forall_mem_nil _)
  obtain ⟨plainAlike, registryAlike⟩ := truthful forced parses
  refine ⟨parses, openedTyped, openedRegistryTyped, ?_, ?_, inverts⟩
  · rw [reads]
    exact Schema.read_alike typed forced plainAlike registryAlike depthLimit
  · intro data source input isOpened same
    obtain ⟨sourceParses, readerIs, namedIs⟩ := ofBytes_ok isOpened
    obtain ⟨otherPlain, otherRegistry, otherParses, otherAlike, otherRegistryAlike⟩ :=
      Schema.parse_forced_alike forced typed same
    rw [sourceParses] at otherParses
    cases otherParses
    rw [reads, readRecord_of_alike typed forced otherAlike otherRegistryAlike readerIs namedIs]

/-- A writer for a schema, with the bytes of its file in front of the blocks, and the file that is
opened on them. -/
structure Opened (libraries : Codec.Libraries) (schema : Json) (writer : Writer) (front : Bytes)
    (file : File) : Prop where
  setting : Setting schema writer file
  reads : Reads (openFile .null false) front file
  codecIs : Codec.find? libraries file.header.codec = some writer.codec
  syncIs : file.header.sync = writer.sync
  sized : writer.sync.length = syncSize

section

variable {schema : Json} {writer : Writer} {front : Bytes} {file : File} {image : Image}
  {session final : Session}

theorem Opened.ofBytes_blocks (opened : Opened libraries schema writer front file)
    (sound : ∀ block ∈ blocks, block.Sound writer.codec) :
    ∃ input, ofBytes (front ++ blocks.flatMap (StoredBlock.bytes writer.sync)) .null false =
      .ok (file, input) ∧
      file.records libraries input = recordsOfBlocks file blocks := by
  have ⟨after, isOpened⟩ :=
    ofBytes_of_reads opened.reads (blocks.flatMap (StoredBlock.bytes writer.sync))
  refine ⟨_, isOpened, ?_⟩
  rw [← opened.syncIs]
  exact records_blocks opened.codecIs (opened.syncIs ▸ opened.sized) sound after

/-- A session that has nothing pending shows what its file is read as. -/
theorem Opened.ofBytes_shows (opened : Opened libraries schema writer front file)
    (shows : session.Shows schema writer front file image) (nothing : image.latest = []) :
    ∃ input, ofBytes session.stream.content .null false = .ok (file, input) ∧
      file.records libraries input = image.series file := by
  rw [shows.streamIs, Image.series_of_latest nothing]
  exact opened.ofBytes_blocks shows.blocksSound

/-- Once the session is flushed, the file is read as what its operations have submitted. -/
theorem Opened.flushed (opened : Opened libraries schema writer front file)
    {operations : List Operation} (adds : Image.Adds writer file operations ⟨[], [], []⟩ image)
    (few : operations.length < 2 ^ 63) (shows : session.Shows schema writer front file image)
    (left : Bytes) (done : SessionM.flush (session.soiled left) = .ok () final) :
    ∃ file input, ofBytes final.stream.content .null false = .ok (file, input) ∧
      Operation.submissions writer operations = .ok (file.records libraries input) := by
  obtain ⟨flushed, flushedShows, nothing, -, sameSeries⟩ :=
    shows.flush opened.setting left (adds.fewLatest (by simpa [Image.records] using few)) done
  obtain ⟨input, isOpened, recordsAre⟩ := opened.ofBytes_shows flushedShows nothing
  obtain ⟨added, submitted, seriesIs⟩ := adds.seriesIs
  refine ⟨file, input, isOpened, ?_⟩
  rw [submitted, recordsAre, sameSeries, seriesIs]
  rfl

end

/-- A writer that has written no record yet, behind the blocks of its file. -/
theorem Session.Shows.start {schema : Json} {parsed : Json} {known : Registry} {codec : Codec}
    {sync front : Bytes} {file : File} (sound : ∀ block ∈ blocks, block.Sound codec)
    (streamIs : stream = Stream.atEnd (front ++ blocks.flatMap (StoredBlock.bytes sync))) :
    Session.Shows ⟨Writer.start options parsed known codec sync, stream⟩ schema
      (Writer.start options parsed known codec sync) front file ⟨blocks, [], []⟩ :=
  ⟨rfl, streamIs, sound, rfl, List.forall_mem_nil _, List.forall_mem_nil _⟩

/-- A writer on an empty stream writes the header of a file, by which its file is opened. -/
theorem opened_of_openOn {schema plain : Json} {registry : Registry} {writer : Writer}
    (typed : Schema.wellTyped schema = true) (schemaDistinct : schema.keysDistinct = true)
    (truthful : Schema.Truthful schema)
    (forced : Schema.parse .forced [] schema = .ok (plain, registry))
    (sized : options.sync.length = syncSize) (distinct : (options.metadata.map Prod.fst).Nodup)
    (opens : Writer.openOn libraries options schema Stream.empty = .ok writer stream)
    (inverts : writer.codec.Inverts options.level) :
    ∃ output file, (firstHeader options schema).write .empty = .ok () output ∧
      Opened libraries schema writer output.written file ∧
      file.header = firstHeader options schema ∧
      Session.Shows ⟨writer, stream⟩ schema writer output.written file ⟨[], [], []⟩ := by
  obtain ⟨parsed, known, codec, output, parses, codecIs, headerWritten, rfl, rfl⟩ := openOn_ok opens
  obtain ⟨document, otherPlain, otherRegistry, plainAlike, registryAlike, readsFile⟩ :=
    reads_openFile sized distinct schemaDistinct typed forced headerWritten
  refine ⟨output, _, headerWritten, ⟨?_, readsFile, ?_, rfl, sized⟩, rfl, ?_⟩
  · exact setting_of_alike typed truthful forced parses inverts
      (readRecord_of_alike typed forced plainAlike registryAlike rfl rfl)
  · rw [firstHeader_codec, codecIs]
    rfl
  · exact .start (List.forall_mem_nil _) (by rw [List.flatMap_nil, List.append_nil])

/-- A container file loses, repeats and reorders nothing. Let a writer be opened on an empty stream,
and let any series of operations on it succeed. Then the pending bytes are those of the records that
were written last, as many as the writer counts, and they are fewer than make a block; the stream
holds the header and whole blocks; and after flushing, the file is read as what the operations have
submitted, in their order. -/
theorem records_performAll {options : WriterOptions} {schema plain : Json} {registry : Registry}
    {writer : Writer} {stream : Stream} {operations : List Operation} {session : Session}
    (typed : Schema.wellTyped schema = true) (schemaDistinct : schema.keysDistinct = true)
    (truthful : Schema.Truthful schema)
    (forced : Schema.parse .forced [] schema = .ok (plain, registry))
    (sized : options.sync.length = syncSize) (distinct : (options.metadata.map Prod.fst).Nodup)
    (opens : Writer.openOn libraries options schema Stream.empty = .ok writer stream)
    (inverts : writer.codec.Inverts options.level)
    (admissible : ∀ operation ∈ operations, operation.Admissible schema writer)
    (few : operations.length < 2 ^ 63)
    (done : Operation.performAll operations ⟨writer, stream⟩ = .ok () session) :
    (∃ earlier latest, operations.filterMap Operation.record? = earlier ++ latest ∧
      latest.length = session.writer.count ∧
      (latest.mapM (Encode.single schema)).map List.flatten = .ok session.writer.pending.written) ∧
    (session.writer.pending.written = [] ∨
      (session.writer.pending.written.length : Int) < options.interval) ∧
    (∃ (output : BinaryOutput) (blocks : List StoredBlock),
      (firstHeader options schema).write .empty = .ok () output ∧
      (∀ block ∈ blocks, block.Sound writer.codec) ∧
      session.stream = Stream.atEnd
        (output.written ++ blocks.flatMap (StoredBlock.bytes options.sync))) ∧
    ∀ final, SessionM.flush session = .ok () final →
      ∃ file input, ofBytes final.stream.content .null false = .ok (file, input) ∧
        Operation.submissions writer operations = .ok (file.records libraries input) := by
  obtain ⟨output, file, headerWritten, opened, -, started⟩ :=
    opened_of_openOn typed schemaDistinct truthful forced sized distinct opens inverts
  obtain ⟨parsed, known, codec, _, -, -, -, rfl, -⟩ := openOn_ok opens
  obtain ⟨image, adds, shows, small⟩ :=
    started.performAll opened.setting (started.small rfl) admissible
    (by simpa [Image.records] using few) done
  have countIs : session.writer.count = image.latest.length := by rw [shows.writerIs]
  have intervalIs : session.writer.interval = options.interval := by
    rw [shows.writerIs]
    rfl
  refine ⟨⟨image.earlier, image.latest.map PendingRecord.record, adds.recordsAre.symm, ?_, ?_⟩, ?_,
    ⟨output, image.blocks, headerWritten, shows.blocksSound, shows.streamIs⟩, ?_⟩
  · rw [List.length_map, countIs]
  · rw [mapM_single shows.encoded, shows.pendingIs, List.flatMap_def]
    rfl
  · rw [← intervalIs]
    exact small
  · intro final flushDone
    exact opened.flushed adds few shows [] flushDone

/-- The readings of a gauge, some of which are missing. -/
def gaugeSchema : Json := .arr [.str "null", .str "int"]

def gaugeOptions : WriterOptions := { sync := List.replicate 16 7, interval := 3 }

def gaugeWriter : Writer := Writer.start gaugeOptions gaugeSchema [] .null gaugeOptions.sync

def otherGauge : Bytes :=
  [79, 98, 106, 1, 4, 22, 97, 118, 114, 111, 46, 115, 99, 104, 101, 109, 97, 30, 91, 34, 110, 117,
    108, 108, 34, 44, 32, 34,
    105, 110, 116, 34, 93, 20, 97, 118, 114, 111, 46, 99, 111, 100, 101, 99, 8, 110, 117, 108, 108,
    0] ++ List.replicate 16 9

def otherFile : File :=
  ⟨⟨[("avro.schema", "[\"null\", \"int\"]"), ("avro.codec", "null")], List.replicate 16 9⟩,
    gaugeSchema, gaugeSchema, .null,
    [], false⟩

/-- Two readings fill a block, a third one is flushed before a foreign block, an empty block
follows, and a last reading stays pending. -/
def gaugeOperations : List Operation :=
  [.write (.int 7), .write .null, .write (.int 9), .copy otherFile ⟨1, "null", [2, 10], 66, 20⟩,
    .dump, .write .null]

def gaugeSession (pending : Bytes) (count : Nat) (stream : Stream) : Session :=
  ⟨{ gaugeWriter with pending := ⟨pending.reverse⟩, count := count }, stream⟩

private theorem performAll_gaugeOperations (stream : Stream) :
    ∃ last, Operation.performAll gaugeOperations ⟨gaugeWriter, stream⟩ =
      .ok () (gaugeSession [0] 1 last) := by
  have first : (Operation.write (.int 7)).perform ⟨gaugeWriter, stream⟩ =
    .ok () (gaugeSession [2, 14] 1 stream) := rfl
  obtain ⟨afterFirst, second⟩ : ∃ after,
    (Operation.write .null).perform (gaugeSession [2, 14] 1 stream) =
      .ok () (gaugeSession [] 0 after) := ⟨_, rfl⟩
  have third : (Operation.write (.int 9)).perform (gaugeSession [] 0 afterFirst) =
      .ok () (gaugeSession [2, 18] 1 afterFirst) := rfl
  obtain ⟨afterCopy, fourth⟩ : ∃ after,
    (Operation.copy otherFile ⟨1, "null", [2, 10], 66, 20⟩).perform
      (gaugeSession [2, 18] 1 afterFirst) = .ok () (gaugeSession [] 0 after) := ⟨_, rfl⟩
  obtain ⟨afterDump, fifth⟩ : ∃ after, Operation.dump.perform (gaugeSession [] 0 afterCopy) =
      .ok () (gaugeSession [] 0 after) := ⟨_, rfl⟩
  have sixth : (Operation.write .null).perform (gaugeSession [] 0 afterDump) =
      .ok () (gaugeSession [0] 1 afterDump) := rfl
  refine ⟨afterDump, step_bind_ok.mpr
    ⟨(), _, first, step_bind_ok.mpr ⟨(), _, second, step_bind_ok.mpr ⟨(), _, third, ?_⟩⟩⟩⟩
  exact step_bind_ok.mpr ⟨(), _, fourth,
    step_bind_ok.mpr ⟨(), _, fifth, step_bind_ok.mpr ⟨(), _, sixth, rfl⟩⟩⟩

private theorem admissible_gaugeOperations :
    ∀ operation ∈ gaugeOperations, operation.Admissible gaugeSchema gaugeWriter := by
  have isOpened : ofBytes otherGauge .null false = .ok (otherFile, ⟨[], some 0⟩) := by cbv
  intro operation isOperation
  simp only [gaugeOperations, List.mem_cons, List.not_mem_nil, or_false] at isOperation
  rcases isOperation with rfl | rfl | rfl | rfl | rfl | rfl
  · exact .write rfl
  · exact .write rfl
  · exact .write rfl
  · exact .copy isOpened (Alike.refl gaugeSchema) (by decide) (by decide)
  · exact .dump
  · exact .write rfl

set_option maxRecDepth 10000 in
theorem records_performAll_gauge :
    ∃ stream session final file input, Writer.openOn Codec.installed gaugeOptions gaugeSchema
      Stream.empty = .ok gaugeWriter stream ∧
      Operation.performAll gaugeOperations ⟨gaugeWriter, stream⟩ = .ok () session ∧
      SessionM.flush session = .ok () final ∧
      ofBytes final.stream.content .null false = .ok (file, input) ∧
      file.records Codec.installed input = ⟨[.int 7, .null, .int 9, .int 5, .null], none⟩ := by
  have typed : Schema.wellTyped gaugeSchema = true := by decide
  have truthful : Schema.Truthful gaugeSchema := Schema.truthful_of_unmarked (by decide)
  have forced : Schema.parse .forced [] gaugeSchema = .ok (gaugeSchema, []) := rfl
  obtain ⟨stream, opens⟩ : ∃ stream, Writer.openOn Codec.installed gaugeOptions gaugeSchema
    Stream.empty = .ok gaugeWriter stream := ⟨_, rfl⟩
  obtain ⟨last, done⟩ := performAll_gaugeOperations stream
  obtain ⟨final, flushed⟩ : ∃ final, SessionM.flush (gaugeSession [0] 1 last) =
    .ok () final := ⟨_, rfl⟩
  obtain ⟨-, -, -, readBack⟩ :=
    records_performAll typed (by decide) truthful forced (by decide) (by decide) opens
    (fun _ _ isCompressed => isCompressed.symm) admissible_gaugeOperations (by decide) done
  obtain ⟨file, input, isOpened, submitted⟩ := readBack final flushed
  have submissionsAre : Operation.submissions gaugeWriter gaugeOperations =
      .ok ⟨[.int 7, .null, .int 9, .int 5, .null], none⟩ := rfl
  rw [submissionsAre, Except.ok.injEq] at submitted
  exact ⟨stream, _, final, file, input, opens, done, flushed, isOpened, submitted.symm⟩

/-- Byte strings whose size is a floating-point number. -/
def realSizeSchema : Json :=
  .obj [("type", .str "fixed"), ("name", .str "Digest"), ("size", .float ⟨0x4010000000000000⟩)]

def realSizeOptions : WriterOptions := { sync := List.replicate 16 7 }

def realSizeWriter : Writer :=
  Writer.start realSizeOptions realSizeSchema [("Digest", realSizeSchema)] .null
    realSizeOptions.sync

set_option maxRecDepth 10000 in
/-- The type of an attribute matters: a size that is no integer is accepted, and values are written
by it, but not read. -/
theorem realSize_not_read :
    ∃ stream session final file input,
      Schema.parse .forced [] realSizeSchema = .ok (realSizeSchema, [("Digest", realSizeSchema)]) ∧
      Writer.openOn Codec.installed realSizeOptions realSizeSchema Stream.empty =
        .ok realSizeWriter stream ∧
      Operation.Admissible realSizeSchema realSizeWriter (.write (.bytes [0, 1, 2, 3])) ∧
      Operation.performAll [.write (.bytes [0, 1, 2, 3])] ⟨realSizeWriter, stream⟩ =
        .ok () session ∧
      SessionM.flush session = .ok () final ∧
      ofBytes final.stream.content .null false = .ok (file, input) ∧
      file.records Codec.installed input = .failed (.wrongType []) := by
  obtain ⟨stream, opens⟩ :
      ∃ stream, Writer.openOn Codec.installed realSizeOptions realSizeSchema Stream.empty =
        .ok realSizeWriter stream := ⟨_, rfl⟩
  have parses : parse .forced [] realSizeSchema =
    .ok (realSizeSchema, [("Digest", realSizeSchema)]) := rfl
  obtain ⟨output, after, -, rfl, isOpened⟩ :=
    ofBytes_of_openOn (by decide) (by decide) (by decide) opens parses rfl
    ([2, 8, 0, 1, 2, 3] ++ List.replicate 16 7)
  refine ⟨_, ⟨{ realSizeWriter with pending := ⟨[3, 2, 1, 0]⟩, count := 1 },
    Stream.atEnd output.written⟩,
    ⟨realSizeWriter, Stream.atEnd (output.written ++ ([2, 8, 0, 1, 2, 3] ++ List.replicate 16 7))⟩,
    _, _, rfl, opens,
    .write rfl, rfl, ?_, isOpened, ?_⟩
  · have flushed : SessionM.flush
        ⟨{ realSizeWriter with pending := ⟨[3, 2, 1, 0]⟩, count := 1 },
          Stream.atEnd output.written⟩ =
        .ok () ⟨realSizeWriter, (((Stream.atEnd output.written).put (Varint.encode 1)).put
          (Varint.encode 4 ++ [0, 1, 2, 3])).put realSizeWriter.sync⟩ := rfl
    rw [flushed, put_atEnd, put_atEnd, put_atEnd, List.append_assoc, List.append_assoc]
    rfl
  · rfl

end Avro.Container
