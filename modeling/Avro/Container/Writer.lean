import Avro.Container.Reader
import Avro.Storage

/-!
Contract: writing of container files.

Owns: the opening of a writer on a stream, the writing of records and blocks, and the flushing of
what is pending.

Records are gathered in a pending block, which goes to the stream when it has reached a given size,
before a whole block is written, and when the writer is flushed. A writer that is opened at the
start of a stream writes a header. One that is opened further on continues the file that the stream
holds, with the codec and the marker of that file.

A record that fails to be written leaves its bytes up to the failure in the pending block.
-/

namespace Avro.Container

structure WriterOptions where
  codec : String := "null"
  /-- The size at which a pending block goes to the stream. -/
  interval : Int := 16000
  metadata : List (String × String) := []
  /-- Whether records are validated before they are written. -/
  validates : Bool := false
  sync : Bytes
  /-- The level of compression, if one is chosen. -/
  level : Option Int := none
deriving Repr, Inhabited

structure Writer where
  schema : Json
  registry : Registry
  codec : Codec
  interval : Int
  validates : Bool
  sync : Bytes
  level : Option Int
  /-- How many records the pending block has. -/
  count : Nat
  pending : BinaryOutput
deriving Inhabited

structure Session where
  writer : Writer
  stream : Stream
deriving Inhabited

/-- A step of writing, which may change the session before it fails. -/
abbrev SessionM := EStateM Error Session

def withoutMarks : Json → Json
  | .obj members => .obj (Members.erase (Members.erase members Schema.parsedKey) Schema.registryKey)
  | schema => schema

/-- A schema as it stands in the header: the marks are left out, also those of the branches of a
union. -/
def headerForm : Json → Json
  | .arr branches => .arr (branches.map withoutMarks)
  | schema => withoutMarks schema

def continues (stream : Stream) : Outcome Bool :=
  if stream.seekable && stream.position != 0 && stream.name != some "<stdout>" then
    if stream.readable then .ok true else .error .notReadable
  else .ok false

/-- Gives a text of the metadata: a name that is present keeps its place. -/
def setText (metadata : List (String × String)) (key text : String) : List (String × String) :=
  match metadata with
  | [] => [(key, text)]
  | (name, old) :: rest =>
    if name = key then (key, text) :: rest else (name, old) :: setText rest key text

namespace Writer

def start (options : WriterOptions) (schema : Json) (registry : Registry) (codec : Codec)
    (sync : Bytes) : Writer :=
  { schema := schema, registry := registry, codec := codec, interval := options.interval,
    validates := options.validates, sync := sync, level := options.level, count := 0,
    pending := .empty }

def continueFile (libraries : Codec.Libraries) (options : WriterOptions) (schema : Json)
    (registry : Registry) : EStateM Error Stream Writer := do
  modify fun stream => stream.seek 0
  let file ← Stream.run (openFile .null false)
  match Schema.parse {} [] file.writerSchema with
  | .error error => throw error
  | .ok (existing, _) =>
    if !schema.sameApart existing then throw (.appendMismatch schema existing)
    modify Stream.seekEnd
    match Codec.find? libraries file.header.codec with
    | some codec => return start options schema registry codec file.header.sync
    | none => throw .missingKey

def startFile (libraries : Codec.Libraries) (options : WriterOptions) (rawSchema schema : Json)
    (registry : Registry) : EStateM Error Stream Writer := do
  match Codec.find? libraries options.codec with
  | none => throw (.unwritableCodec options.codec)
  | some codec =>
    let described := setText options.metadata "avro.schema"
      ((headerForm rawSchema).print Json.Layout.line)
    let header : Header := ⟨setText described "avro.codec" options.codec, options.sync⟩
    match header.write .empty with
    | .ok _ output =>
      modify fun stream => stream.put output.written
      return start options schema registry codec options.sync
    | .error error output =>
      modify fun stream => stream.put output.written
      throw error

def openOn (libraries : Codec.Libraries) (options : WriterOptions) (schema : Json) :
    EStateM Error Stream Writer := do
  match Schema.parse {} [] schema with
  | .error error => throw error
  | .ok (parsed, registry) =>
    match continues (← get) with
    | .error error => throw error
    | .ok true => continueFile libraries options parsed registry
    | .ok false => startFile libraries options schema parsed registry

end Writer

namespace SessionM

def put (bytes : Bytes) : SessionM Unit :=
  modify fun session => { session with stream := session.stream.put bytes }

/-- Writes a block to the stream. Its count stands there even if its data cannot be compressed. -/
def putBlock (count : Int) (data : Bytes) : SessionM Unit := do
  put (Varint.encode count)
  let writer := (← get).writer
  match writer.codec.compress writer.level data with
  | .error error => throw error
  | .ok compressed =>
    if compressed.length ≥ Datum.sizeLimit then throw .overflow
    put (Varint.encode compressed.length ++ compressed)
    put writer.sync

def dump : SessionM Unit := do
  let writer := (← get).writer
  putBlock writer.count writer.pending.written
  modify fun session =>
    { session with writer := { session.writer with count := 0, pending := .empty } }

/-- Writes the pending block to the stream, unless there is none. -/
def flush : SessionM Unit := do
  let writer := (← get).writer
  if writer.pending ≠ .empty || writer.count > 0 then dump

def validate (writer : Writer) (record : Datum) : Outcome Unit :=
  if writer.validates then
    (Validation.check writer.registry true Schema.depthLimit record writer.schema .null).map
      fun _ => ()
  else .ok ()

/-- Adds a record to the pending bytes, up to a failure. -/
def encodeRecord (record : Datum) : SessionM Unit := fun session =>
  let writer := session.writer
  let after (pending : BinaryOutput) : Session :=
    { session with writer := { writer with pending := pending } }
  match Encode.write writer.registry Schema.depthLimit record writer.schema (.str "")
    writer.pending with
  | .ok _ pending => .ok () (after pending)
  | .error error pending => .error error (after pending)

/-- Adds a record to the pending block, and writes the block if it has reached its size. -/
def write (record : Datum) : SessionM Unit := do
  match validate (← get).writer record with
  | .error error => throw error
  | .ok _ =>
    encodeRecord record
    modify fun session =>
      { session with writer := { session.writer with count := session.writer.count + 1 } }
    let writer := (← get).writer
    if (writer.pending.written.length : Int) ≥ writer.interval then dump

def writeBlock (block : Block) : SessionM Unit := do
  flush
  putBlock block.count block.data

def writeBlocks : List Block → SessionM Unit
  | [] => pure ()
  | block :: rest => do
    writeBlock block
    writeBlocks rest

def writeBlocksOf (libraries : Codec.Libraries) (data : Bytes) : SessionM Unit := do
  match ofBytes data .null false with
  | .error error => throw error
  | .ok (file, input) =>
    let series := file.blocks libraries data.length input
    writeBlocks series.items
    match series.failure with
    | some error => throw error
    | none => pure ()

def writeRecords : List Datum → SessionM Unit
  | [] => pure ()
  | record :: rest => do
    write record
    writeRecords rest

def writeAll (records : Datum) : SessionM Unit :=
  match records.iterated? with
  | some items => writeRecords items
  | none => throw (.wrongType [])

end SessionM

/-- Writes a whole file, or continues one: the stream afterwards. -/
def writeFile (libraries : Codec.Libraries) (options : WriterOptions) (schema : Json)
    (records : Datum) (stream : Stream) : Outcome Stream :=
  match records with
  | .dict _ => .error .recordsAreMapping
  | _ =>
    match Writer.openOn libraries options schema stream with
    | .error error _ => .error error
    | .ok writer opened =>
      match (do SessionM.writeAll records; SessionM.flush : SessionM Unit) ⟨writer, opened⟩ with
      | .ok _ session => .ok session.stream
      | .error error _ => .error error

end Avro.Container
