import Avro.Proofs.BlockSeries
import Avro.Proofs.Continuing
import Avro.Proofs.FailedWrites

/-!
Contract: a file that is cut off is not taken for a whole one.

Owns: `WrittenFile`, the files that writers leave behind; that their blocks follow one another
without a gap; and that a part of such a file can be read to its end only if it ends with a block.

A block says how long it is before its data, and the marker stands behind them. Data that are too
short are no failure by themselves, since a read beyond the end gives what is left. The marker is
what is missed then.
-/

namespace Avro.Container

open Varint (encode)

open BinaryInput

variable {block : StoredBlock} {part : Bytes} {before : Option Int}
variable {libraries : Codec.Libraries}

/-! ### Blocks without compression -/

/-- A block whose data stand in the stream as they are. -/
structure StoredBlock.Plain (block : StoredBlock) : Prop where
  same : block.compressed = block.data
  small : block.data.length < Datum.sizeLimit

theorem StoredBlock.Plain.bytes_append (plain : block.Plain) (sync rest : Bytes) :
    block.bytes sync ++ rest =
      encode block.count ++ (encode block.data.length ++ (block.data ++ (sync ++ rest))) := by
  rw [StoredBlock.bytes, plain.same]
  simp only [List.append_assoc]

/-- Blocks as a reader shows them, the first of which starts at a place. The count is what its bytes
are read as. -/
def shown (codec : String) (sync : Bytes) : Nat → List StoredBlock → List Block
  | _, [] => []
  | start, block :: rest =>
    ⟨Varint.unzigzag (Varint.zigzag block.count), codec, block.data, start,
      (block.bytes sync).length⟩ ::
      shown codec sync (start + (block.bytes sync).length) rest

private theorem shown_append (codec : String) (sync : Bytes) (start : Nat)
    (front back : List StoredBlock) :
    shown codec sync start (front ++ back) =
      shown codec sync start front ++ shown codec sync
        (start + (front.flatMap (StoredBlock.bytes sync)).length) back := by
  induction front generalizing start with
  | nil => rfl
  | cons block rest ih =>
    rw [List.cons_append, shown, shown, ih, List.flatMap_cons, List.length_append, Nat.add_assoc,
      List.cons_append]

private theorem tiles_shown (codec : String) (sync : Bytes) (start : Nat)
    (blocks : List StoredBlock) :
    Tiles start (shown codec sync start blocks)
      ((start + (blocks.flatMap (StoredBlock.bytes sync)).length : Nat) : Int) := by
  induction blocks generalizing start with
  | nil => exact .nil
  | cons block rest ih =>
    have others := ih (start + (block.bytes sync).length)
    rw [Nat.add_assoc, ← List.length_append, ← List.flatMap_cons, Nat.cast_add] at others
    exact .cons rfl others

/-- The data of a block without compression: as much as there is, up to the size that stands before
them. -/
theorem readBlock_null {size : Nat} (small : size < Datum.sizeLimit) (rest : Bytes)
    (before : Option Int) :
    Codec.null.readBlock ⟨encode size ++ rest, before⟩ =
      .ok (rest.take size) ⟨rest.drop size, before⟩ := by
  have sizeIs : readVarint ⟨encode size ++ rest, before⟩ = .ok (size : Int) ⟨rest, before⟩ := by
    unfold Datum.sizeLimit at small
    rw [readVarint_encode, Varint.unzigzag_zigzag (by omega) (by omega)]
  have taken : takeSized size ⟨rest, before⟩ = .ok (rest.take size) ⟨rest.drop size, before⟩ := by
    rw [takeSized_natCast small]
    rfl
  exact step_bind_ok.mpr ⟨_, _, rfl, step_bind_ok.mpr
    ⟨_, _, step_bind_ok.mpr ⟨_, _, sizeIs, taken⟩, rfl⟩⟩

section Reading

variable {file : File} {blocks : List StoredBlock} {total fuel : Nat} {missing : Bytes}

section

variable (sized : file.header.sync.length = syncSize)
include sized

private theorem blocksFrom_blocks (plain : ∀ block ∈ blocks, block.Plain)
    (within : (blocks.flatMap (StoredBlock.bytes file.header.sync)).length ≤ total)
    (enough : blocks.length < fuel) (before : Option Int) :
    file.blocksFrom .null total fuel ⟨blocks.flatMap (StoredBlock.bytes file.header.sync), before⟩ =
      ⟨shown file.header.codec file.header.sync
        (total - (blocks.flatMap (StoredBlock.bytes file.header.sync)).length) blocks, none⟩ := by
  induction blocks generalizing fuel before with
  | nil =>
    obtain ⟨fuel, rfl⟩ : ∃ less, fuel = less + 1 :=
      ⟨fuel - 1, by rw [List.length_nil] at enough; omega⟩
    rfl
  | cons block rest ih =>
    rw [List.forall_mem_cons] at plain
    rw [List.length_cons] at enough
    obtain ⟨fuel, rfl⟩ : ∃ less, fuel = less + 1 := ⟨fuel - 1, by omega⟩
    rw [List.flatMap_cons, List.length_append] at within
    generalize othersAre : rest.flatMap (StoredBlock.bytes file.header.sync) = others at within ih
    have bytesAre := plain.1.bytes_append file.header.sync others
    obtain ⟨afterSync, syncDone⟩ := reads_sync sized others before
    have restDone := ih plain.2 (by omega) (show rest.length < fuel by omega) afterSync
    rw [List.flatMap_cons, othersAre, File.blocksFrom, bytesAre]
    simp only [readVarint_encode, readBlock_null plain.1.small, List.take_left, List.drop_left,
      syncDone, restDone]
    rw [← bytesAre, List.length_append, shown, Nat.add_sub_cancel,
      show total - others.length = total - ((block.bytes file.header.sync).length + others.length) +
        (block.bytes file.header.sync).length by omega]
    rfl

/-- The marker is not found behind a block that is cut off. -/
theorem readSync_of_short {rest : Bytes} (short : rest.length < syncSize)
    (before : Option Int) : ∃ after, file.readSync ⟨rest, before⟩ = .error .syncNotFound after := by
  have different : rest.take syncSize ≠ file.header.sync := by
    intro same
    have lengths := congrArg List.length same
    rw [List.length_take, sized] at lengths
    omega
  refine ⟨⟨rest.drop syncSize, before⟩, (step_bind_of_ok rfl).trans ?_⟩
  rw [if_pos different]
  rfl

private theorem blocksFrom_of_cut (plain : block.Plain) {cut : Bytes}
    (parts : cut ++ missing = block.bytes file.header.sync) (present : cut ≠ [])
    (isCut : missing ≠ []) (before : Option Int) :
    (file.blocksFrom .null total (fuel + 1) ⟨cut, before⟩).failure ≠ none := by
  rw [StoredBlock.bytes, plain.same, List.append_assoc, List.append_assoc] at parts
  rw [File.blocksFrom]
  rcases cut_cases parts with ⟨lost, isLost, countIs, -⟩ | ⟨afterCount, rfl, partsLeft⟩
  · obtain ⟨error, after, failed, notEnded⟩ := readVarint_of_cut countIs isLost before
    rw [failed]
    cases error with
    | exhausted => exact absurd rfl (notEnded present)
    | _ => exact Option.some_ne_none _
  · simp only [readVarint_encode]
    rcases cut_cases partsLeft with ⟨lost, isLost, sizeIs, -⟩ | ⟨afterSize, rfl, dataLeft⟩
    · obtain ⟨error, after, failed, -⟩ := readVarint_of_cut sizeIs isLost before
      have blockFailed : Codec.null.readBlock ⟨afterCount, before⟩ = .error error after :=
        (step_bind_of_ok rfl).trans (step_bind_of_error (step_bind_of_error failed))
      simp only [blockFailed]
      exact Option.some_ne_none _
    · -- The data may be all that is left of the block; then the marker is missed.
      have short : (afterSize.drop block.data.length).length < syncSize := by
        have lengths := congrArg List.length dataLeft
        have lost := List.length_pos_of_ne_nil isCut
        rw [List.length_append, List.length_append, sized] at lengths
        rw [List.length_drop]
        unfold syncSize at lengths ⊢
        omega
      obtain ⟨after, syncFailed⟩ := readSync_of_short sized short before
      simp only [readBlock_null plain.small, syncFailed]
      exact Option.some_ne_none _

/-- A part of the bytes of blocks is read without a failure only if it is the bytes of the first of
them. -/
theorem exists_kept_of_blocksFrom (plain : ∀ block ∈ blocks, block.Plain)
    (parts : part ++ missing = blocks.flatMap (StoredBlock.bytes file.header.sync))
    (enough : part.length < fuel)
    (ends : (file.blocksFrom .null total fuel ⟨part, before⟩).failure = none) :
    ∃ kept later, blocks = kept ++ later ∧
      part = kept.flatMap (StoredBlock.bytes file.header.sync) := by
  induction blocks generalizing part fuel before with
  | nil =>
    rw [List.flatMap_nil, List.append_eq_nil_iff] at parts
    exact ⟨[], [], rfl, parts.1⟩
  | cons block rest ih =>
    rw [List.forall_mem_cons] at plain
    rw [List.flatMap_cons] at parts
    obtain ⟨fuel, rfl⟩ : ∃ less, fuel = less + 1 := ⟨fuel - 1, by omega⟩
    rcases cut_cases parts with ⟨lost, isLost, blockIs, -⟩ | ⟨others, rfl, othersLeft⟩
    · by_cases nothing : part = []
      · exact ⟨[], block :: rest, rfl, nothing⟩
      · exact absurd ends (blocksFrom_of_cut sized plain.1 blockIs nothing isLost before)
    · obtain ⟨afterSync, syncDone⟩ := reads_sync sized others before
      rw [plain.1.bytes_append] at ends enough
      have shorter : others.length < fuel := by
        have notEmpty := List.length_pos_of_ne_nil (Varint.encode_ne_nil block.count)
        rw [List.length_append, List.length_append, List.length_append,
          List.length_append] at enough
        omega
      rw [File.blocksFrom] at ends
      simp only [readVarint_encode, readBlock_null plain.1.small, List.take_left, List.drop_left,
        syncDone] at ends
      obtain ⟨kept, later, rfl, othersAre⟩ := ih plain.2 othersLeft shorter ends
      exact ⟨block :: kept, later, rfl, by rw [List.flatMap_cons, othersAre]⟩

end

end Reading

/-! ### What writers leave behind -/

/-- A session that writes without compression, behind whole blocks. -/
structure Session.Holds (session : Session) (sync front : Bytes) (blocks : List StoredBlock) :
    Prop where
  codecIs : session.writer.codec = .null
  syncIs : session.writer.sync = sync
  streamIs : session.stream = Stream.atEnd (front ++ blocks.flatMap (StoredBlock.bytes sync))
  plain : ∀ block ∈ blocks, block.Plain

/-- A run of a session: operations that succeed one after the other. A record may also fail before
it is complete; what has been written of it stays pending. -/
inductive Run : Session → Session → Prop where
  | ended (session : Session) : Run session session
  | performed {session next last : Session} {operation : Operation}
      (done : operation.perform session = .ok () next)
      (others : Run next last) : Run session last
  | failed {session next last : Session} {record : Datum} {error : Error} {bytes : Bytes}
      (failure : session.writer.failure? record = some (error, bytes))
      (fails : SessionM.write record session = .error error next) (others : Run next last) :
      Run session last

namespace Session.Holds

variable {session after : Session} {sync front : Bytes} {blocks : List StoredBlock}

section

variable (holds : session.Holds sync front blocks)
include holds

theorem putBlock {count : Int} {data : Bytes}
    (done : SessionM.putBlock count data session = .ok () after) :
    ∃ block, after.Holds sync front (blocks ++ [block]) := by
  obtain ⟨compressed, isCompressed, small, rfl⟩ := putBlock_ok holds.streamIs done
  rw [holds.codecIs] at isCompressed
  cases isCompressed
  refine ⟨⟨count, data, data⟩, holds.codecIs, holds.syncIs, ?_, ?_⟩
  · rw [List.flatMap_append, List.flatMap_singleton, List.append_assoc, holds.syncIs]
  · exact List.forall_mem_append.mpr ⟨holds.plain, List.forall_mem_singleton.mpr ⟨rfl, small⟩⟩

theorem dump (done : SessionM.dump session = .ok () after) :
    ∃ block, after.Holds sync front (blocks ++ [block]) := by
  obtain ⟨between, blockDone, rfl⟩ := dump_ok done
  obtain ⟨block, held⟩ := holds.putBlock blockDone
  exact ⟨block, held.codecIs, held.syncIs, held.streamIs, held.plain⟩

theorem flush (done : SessionM.flush session = .ok () after) :
    ∃ more, after.Holds sync front (blocks ++ more) := by
  rcases flush_ok done with ⟨-, -, rfl⟩ | dumped
  · exact ⟨[], by rwa [List.append_nil]⟩
  · obtain ⟨block, held⟩ := holds.dump dumped
    exact ⟨[block], held⟩

theorem perform {operation : Operation} (done : operation.perform session = .ok () after) :
    ∃ more, after.Holds sync front (blocks ++ more) := by
  cases operation with
  | write record =>
    obtain ⟨pending, -, finished⟩ := write_ok done
    have filled : (session.filled pending).Holds sync front blocks :=
      ⟨holds.codecIs, holds.syncIs, holds.streamIs, holds.plain⟩
    rcases finished with ⟨-, rfl⟩ | dumped
    · exact ⟨[], by rwa [List.append_nil]⟩
    · obtain ⟨block, held⟩ := filled.dump dumped
      exact ⟨[block], held⟩
  | copy source block =>
    obtain ⟨between, flushed, stored⟩ := writeBlock_ok done
    obtain ⟨more, held⟩ := holds.flush flushed
    obtain ⟨last, heldLast⟩ := held.putBlock stored
    exact ⟨more ++ [last], by rwa [← List.append_assoc]⟩
  | flush => exact holds.flush done
  | dump =>
    obtain ⟨block, held⟩ := holds.dump done
    exact ⟨[block], held⟩

end

theorem run {last : Session} (course : Run session last) (holds : session.Holds sync front blocks) :
    ∃ more, last.Holds sync front (blocks ++ more) := by
  induction course generalizing blocks with
  | ended session => exact ⟨[], by rwa [List.append_nil]⟩
  | performed done _ ih =>
    obtain ⟨more, held⟩ := holds.perform done
    obtain ⟨others, heldLast⟩ := ih held
    exact ⟨more ++ others, by rwa [← List.append_assoc]⟩
  | failed failure fails _ ih =>
    rw [write_of_failure failure] at fails
    cases fails
    exact ih ⟨holds.codecIs, holds.syncIs, holds.streamIs, holds.plain⟩

end Session.Holds

/-- Files that writers have written without compression: the header of the file, its bytes, and the
bytes of the whole file. The first writer starts the file, and others may continue it. -/
inductive WrittenFile (libraries : Codec.Libraries) (header : Header) (front : Bytes) :
    Bytes → Prop where
  | started {options : WriterOptions} {schema : Json} {writer : Writer} {stream : Stream}
      {last : Session}
      (sized : options.sync.length = syncSize) (distinct : (options.metadata.map Prod.fst).Nodup)
      (codecIs : options.codec = "null")
      (opens : Writer.openOn libraries options schema Stream.empty = .ok writer stream)
      (headerIs : firstHeader options schema = header) (frontIs : stream.content = front)
      (run : Run ⟨writer, stream⟩ last) :
      WrittenFile libraries header front last.stream.content
  | continued {content : Bytes} {position : Nat} {options : WriterOptions} {schema : Json}
      {writer : Writer} {stream : Stream}
      {last : Session} (earlier : WrittenFile libraries header front content)
      (behind : position ≠ 0)
      (opens : Writer.openOn libraries options schema ((Stream.atEnd content).seek position) =
        .ok writer stream)
      (run : Run ⟨writer, stream⟩ last) : WrittenFile libraries header front last.stream.content

structure Whole (header : Header) (front content : Bytes) (blocks : List StoredBlock) : Prop where
  reads : Reads Header.read front header
  sized : header.sync.length = syncSize
  codecIs : header.codec = "null"
  contentIs : content = front ++ blocks.flatMap (StoredBlock.bytes header.sync)
  plain : ∀ block ∈ blocks, block.Plain

section Files

variable {header : Header} {front content rest : Bytes} {blocks : List StoredBlock} {reader : Json}
  {named : Bool}
variable {input : BinaryInput} {file : File}

theorem reads_openFile_of_header (readsHeader : Reads Header.read front header)
    (opened : openFile reader named ⟨front ++ rest, none⟩ = .ok file input) :
    file.header = header ∧ Reads (openFile reader named) front file := by
  obtain ⟨⟨parsedReader, readerRegistry⟩, readerIs, opened⟩ := readLift_bind_ok.mp opened
  obtain ⟨found, _, headerDone, opened⟩ := step_bind_ok.mp opened
  obtain ⟨after, headerRead⟩ := readsHeader rest none
  rw [headerRead] at headerDone
  cases headerDone
  obtain ⟨schema, schemaIs, opened⟩ := readLift_bind_ok.mp opened
  obtain ⟨⟨parsed, registry⟩, parses, opened⟩ := readLift_bind_ok.mp opened
  cases opened
  refine ⟨rfl, ?_⟩
  rw [← List.append_nil front]
  exact Reads.lift readerIs
    (readsHeader.bind (Reads.lift schemaIs (Reads.lift parses (Reads.pure _))))

/-- A writer that continues a file goes on with its marker and its codec, at its end. -/
theorem holds_of_openOn (whole : Whole header front content blocks) {options : WriterOptions}
    {schema : Json} {position : Nat}
    (behind : position ≠ 0) {writer : Writer} {stream : Stream}
    (opens : Writer.openOn libraries options schema ((Stream.atEnd content).seek position) =
      .ok writer stream) :
    Session.Holds ⟨writer, stream⟩ header.sync front blocks := by
  cases isParsed : Schema.parse {} [] schema with
  | error error =>
    unfold Writer.openOn at opens
    rw [isParsed] at opens
    cases opens
  | ok result =>
    obtain ⟨parsed, known⟩ := result
    rw [openOn_eq_continueFile isParsed behind] at opens
    obtain ⟨_, sought, isSought, opens⟩ := step_bind_ok.mp opens
    cases isSought
    obtain ⟨file, moved, fileDone, opens⟩ := step_bind_ok.mp opens
    have headerIs : file.header = header ∧ ∃ place, moved = (Stream.atEnd content).seek place := by
      unfold Stream.run at fileDone
      dsimp only at fileDone
      split at fileDone
      · rename_i found input isOpened
        cases fileDone
        have inputIs : BinaryInput.ofBytes (List.drop 0 (Stream.atEnd content).content) =
            ⟨front ++ blocks.flatMap (StoredBlock.bytes header.sync), none⟩ := by
          rw [← whole.contentIs]
          rfl
        exact ⟨(reads_openFile_of_header whole.reads (inputIs ▸ isOpened)).1, _, rfl⟩
      · cases fileDone
    obtain ⟨headerIs, place, rfl⟩ := headerIs
    cases isExisting : Schema.parse {} [] file.writerSchema with
    | error error =>
      simp only [isExisting] at opens
      cases opens
    | ok existing =>
      simp only [isExisting] at opens
      split at opens
      · cases opens
      · obtain ⟨_, atEnd, isAtEnd, opens⟩ := step_bind_ok.mp opens
        cases isAtEnd
        rw [headerIs, whole.codecIs] at opens
        cases opens
        exact ⟨rfl, rfl, by rw [← whole.contentIs]; rfl, whole.plain⟩

theorem WrittenFile.whole (written : WrittenFile libraries header front content) :
    ∃ blocks, Whole header front content blocks := by
  induction written with
  | @started options schema writer stream last sized distinct codecIs opens headerIs frontIs run =>
    obtain ⟨parsed, registry, codec, output, -, codecFound, headerWritten, rfl, rfl⟩ :=
      openOn_ok opens
    subst headerIs frontIs
    rw [codecIs] at codecFound
    cases codecFound
    have started : Session.Holds
      ⟨Writer.start options parsed registry .null options.sync, Stream.atEnd output.written⟩
        options.sync output.written [] :=
      ⟨rfl, rfl, by rw [List.flatMap_nil, List.append_nil], List.forall_mem_nil _⟩
    obtain ⟨blocks, held⟩ := started.run run
    rw [List.nil_append] at held
    refine ⟨blocks, ?_, sized, ?_, congrArg Stream.content held.streamIs, held.plain⟩
    · exact reads_header sized (nodup_setText (nodup_setText distinct _ _) _ _) headerWritten
    · rw [firstHeader_codec, codecIs]
  | continued _ behind opens run ih =>
    obtain ⟨blocks, whole⟩ := ih
    obtain ⟨more, held⟩ := (holds_of_openOn whole behind opens).run run
    exact ⟨blocks ++ more, whole.reads, whole.sized, whole.codecIs,
      congrArg Stream.content held.streamIs, held.plain⟩

theorem Whole.blocks_eq (whole : Whole header front content blocks) (libraries : Codec.Libraries)
    (headerIs : file.header = header) (before : Option Int) :
    file.blocks libraries content.length ⟨blocks.flatMap (StoredBlock.bytes header.sync), before⟩ =
      ⟨shown "null" header.sync front.length blocks, none⟩ := by
  have codecIs : Codec.find? libraries file.header.codec = some .null := by
    rw [headerIs, whole.codecIs]
    rfl
  have sized : file.header.sync.length = syncSize := by rw [headerIs, whole.sized]
  have enough : blocks.length < (blocks.flatMap (StoredBlock.bytes header.sync)).length + 1 :=
    Nat.lt_succ_of_le (length_le_bytes _ _)
  have total : content.length - (blocks.flatMap (StoredBlock.bytes header.sync)).length =
      front.length := by
    rw [whole.contentIs, List.length_append, Nat.add_sub_cancel]
  rw [File.blocks, codecIs]
  have within : (blocks.flatMap (StoredBlock.bytes file.header.sync)).length ≤ content.length := by
    rw [headerIs, whole.contentIs, List.length_append]
    omega
  have shownAll := blocksFrom_blocks sized whole.plain within enough before
  rwa [headerIs, total, whole.codecIs] at shownAll

/-- A file whose records can be read to their end has blocks that can, and these give the
records. -/
theorem exists_blocks_of_records (total : Nat) {records : List Datum}
    (ends : file.records libraries input = ⟨records, none⟩) :
    ∃ blocks, file.blocks libraries total input = ⟨blocks, none⟩ ∧ Give file blocks records := by
  unfold File.records at ends
  unfold File.blocks
  cases codecIs : Codec.find? libraries file.header.codec with
  | none =>
    rw [codecIs] at ends
    cases ends
  | some codec =>
    rw [codecIs] at ends
    exact (recordsFrom_iff file codec total _ input records).mp ends

/-- A part of a file of a header and whole blocks that is read to its end is itself such a file. -/
theorem Whole.exists_kept (whole : Whole header front content blocks) {missing : Bytes}
    (headerIs : file.header = header)
    (parts : part ++ missing = blocks.flatMap (StoredBlock.bytes header.sync)) (total : Nat)
    (ends : (file.blocks libraries total ⟨part, before⟩).failure = none) :
    ∃ kept later, blocks = kept ++ later ∧ Whole header front (front ++ part) kept ∧
      part = kept.flatMap (StoredBlock.bytes header.sync) := by
  have codecIs : Codec.find? libraries file.header.codec = some .null := by
    rw [headerIs, whole.codecIs]
    rfl
  have sized : file.header.sync.length = syncSize := by rw [headerIs, whole.sized]
  rw [File.blocks, codecIs] at ends
  rw [← headerIs] at parts
  obtain ⟨kept, later, rfl, partIs⟩ :=
    exists_kept_of_blocksFrom sized whole.plain parts (Nat.lt_succ_self part.length) ends
  rw [headerIs] at partIs
  refine ⟨kept, later, rfl, ⟨whole.reads, whole.sized, whole.codecIs, by rw [partIs], ?_⟩, partIs⟩
  exact (List.forall_mem_append.mp whole.plain).1

end Files

/-- A file that is cut off is not taken for a whole one. Let a file be written without compression,
by any number of writers, with any series of operations, and let a part of it hold the whole header.
If the records of the part, or its blocks, are read to their end without a failure, then the part
ends where the header does or where a block does. The blocks that it shows are the first ones of the
whole file, and lie between the header and its end without a gap; the records are those of these
blocks. -/
theorem cut_file_ends_with_block {header : Header} {front content part : Bytes} {reader : Json}
    {named : Bool} {file : File} {input : BinaryInput}
    (written : WrittenFile libraries header front content)
    (isPart : part <+: content) (hasHeader : front <+: part)
    (opened : ofBytes part reader named = .ok (file, input))
    (ends : (file.records libraries input).failure = none ∨
      (file.blocks libraries part.length input).failure = none) :
    ∃ uncut kept later, ofBytes content reader named = .ok (file, uncut) ∧
      file.blocks libraries content.length uncut = ⟨kept ++ later, none⟩ ∧
      file.blocks libraries part.length input = ⟨kept, none⟩ ∧
      Tiles front.length kept part.length ∧
      ((file.records libraries input).failure = none →
        ∃ parts, List.Forall₂ (fun block records => file.recordsOfBlock block = ⟨records, none⟩)
          kept parts ∧
          parts.flatten = (file.records libraries input).items) := by
  obtain ⟨blocks, whole⟩ := written.whole
  obtain ⟨part, rfl⟩ := hasHeader
  obtain ⟨missing, contentIs⟩ := isPart
  have parts : part ++ missing = blocks.flatMap (StoredBlock.bytes header.sync) := by
    rw [whole.contentIs, List.append_assoc] at contentIs
    exact List.append_cancel_left contentIs
  have isOpen : openFile reader named ⟨front ++ part, none⟩ = .ok file input := by
    unfold ofBytes at opened
    split at opened
    · rename_i isOpen
      cases opened
      exact isOpen
    · cases opened
  obtain ⟨headerIs, reads⟩ := reads_openFile_of_header whole.reads isOpen
  obtain ⟨after, inputIs⟩ := reads part none
  rw [inputIs] at isOpen
  cases isOpen
  have recordsGiven (noFailure : (file.records libraries ⟨part, after⟩).failure = none) :
      ∃ shownBlocks, file.blocks libraries (front ++ part).length ⟨part, after⟩ =
        ⟨shownBlocks, none⟩ ∧
        Give file shownBlocks (file.records libraries ⟨part, after⟩).items :=
    exists_blocks_of_records _ (congrArg (Series.mk _) noFailure)
  have blocksEnd : (file.blocks libraries (front ++ part).length ⟨part, after⟩).failure = none := by
    rcases ends with noFailure | noFailure
    · obtain ⟨shownBlocks, shownAre, -⟩ := recordsGiven noFailure
      rw [shownAre]
    · exact noFailure
  obtain ⟨kept, later, rfl, keptWhole, partIs⟩ := whole.exists_kept headerIs parts _ blocksEnd
  have keptShown := keptWhole.blocks_eq libraries headerIs after
  rw [← partIs] at keptShown
  obtain ⟨uncut, uncutOpened⟩ :=
    ofBytes_of_reads reads ((kept ++ later).flatMap (StoredBlock.bytes header.sync))
  rw [← whole.contentIs] at uncutOpened
  refine ⟨_, shown "null" header.sync front.length kept,
    shown "null" header.sync (front.length + (kept.flatMap (StoredBlock.bytes header.sync)).length)
      later, uncutOpened, ?_,
    keptShown, ?_, fun noFailure => ?_⟩
  · rw [whole.blocks_eq libraries headerIs, shown_append]
  · have tiles := tiles_shown "null" header.sync front.length kept
    rwa [← partIs, ← List.length_append] at tiles
  · obtain ⟨shownBlocks, shownAre, gives⟩ := recordsGiven noFailure
    rw [keptShown] at shownAre
    cases shownAre
    exact gives

def readingsBlock : Bytes := encode 2 ++ (encode 3 ++ [2, 14, 0]) ++ gaugeOptions.sync

def foreignBlock : Bytes := encode 1 ++ (encode 2 ++ [2, 10]) ++ gaugeOptions.sync

private theorem run_gauge (front : Bytes) : Run ⟨gaugeWriter, Stream.atEnd front⟩
    (gaugeSession [] 0 (Stream.atEnd (front ++ (readingsBlock ++ foreignBlock)))) := by
  have first : (Operation.write (.int 7)).perform ⟨gaugeWriter, Stream.atEnd front⟩ =
      .ok () (gaugeSession [2, 14] 1 (Stream.atEnd front)) := rfl
  have second (stream : Stream) : (Operation.write .null).perform (gaugeSession [2, 14] 1 stream) =
      .ok () (gaugeSession [] 0
        (((stream.put (encode 2)).put (encode 3 ++ [2, 14, 0])).put gaugeOptions.sync)) := rfl
  have third (stream : Stream) :
    (Operation.copy otherFile ⟨1, "null", [2, 10], 66, 20⟩).perform (gaugeSession [] 0 stream) =
      .ok () (gaugeSession [] 0
        (((stream.put (encode 1)).put (encode 2 ++ [2, 10])).put gaugeOptions.sync)) := rfl
  refine .performed first (.performed (second _) (.performed (third _) ?_))
  simp only [put_atEnd, readingsBlock, foreignBlock, List.append_assoc]
  exact .ended _

set_option maxRecDepth 10000 in
/-- Of a file with two blocks the second one is cut off. -/
theorem cut_file_ends_with_block_gauge :
    ∃ header front content part file input uncut kept later,
      WrittenFile Codec.installed header front content ∧ part <+: content ∧
      part ≠ content ∧ front <+: part ∧ ofBytes part .null false = .ok (file, input) ∧
      file.records Codec.installed input = ⟨[.int 7, .null], none⟩ ∧
      ofBytes content .null false = .ok (file, uncut) ∧
      file.blocks Codec.installed content.length uncut = ⟨kept ++ later, none⟩ ∧
      file.blocks Codec.installed part.length input = ⟨kept, none⟩ ∧
      Tiles front.length kept part.length := by
  obtain ⟨stream, opens⟩ : ∃ stream, Writer.openOn Codec.installed gaugeOptions gaugeSchema
    Stream.empty = .ok gaugeWriter stream := ⟨_, rfl⟩
  have parses : Schema.parse .forced [] gaugeSchema = .ok (gaugeSchema, []) := rfl
  obtain ⟨output, after, -, rfl, opened⟩ :=
    ofBytes_of_openOn (by decide) (by decide) (by decide) opens parses rfl readingsBlock
  have written := WrittenFile.started (by decide) (by decide) rfl opens rfl rfl
    (run_gauge output.written)
  have recordsAre (before : Option Int) :
    (⟨firstHeader gaugeOptions gaugeSchema, gaugeSchema, gaugeSchema, .null, [],
      false⟩ : File).records Codec.installed ⟨readingsBlock, before⟩ = ⟨[.int 7, .null], none⟩ :=
      rfl
  have isPart : output.written ++ readingsBlock <+: output.written ++
      (readingsBlock ++ foreignBlock) :=
    (List.prefix_append_right_inj _).mpr (List.prefix_append _ _)
  have isCut : output.written ++ readingsBlock ≠ output.written ++
      (readingsBlock ++ foreignBlock) :=
    fun uncut => absurd (List.append_cancel_left uncut) (by decide)
  obtain ⟨uncut, kept, later, uncutOpened, blocksAre, keptAre, tiles, -⟩ :=
    cut_file_ends_with_block written isPart (List.prefix_append _ _) opened
      (.inl (congrArg Series.failure (recordsAre after)))
  exact ⟨_, _, _, _, _, _, uncut, kept, later, written, isPart, isCut, List.prefix_append _ _,
    opened, recordsAre after, uncutOpened, blocksAre, keptAre, tiles⟩

end Avro.Container
