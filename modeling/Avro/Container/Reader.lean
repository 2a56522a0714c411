import Avro.Codec.Basic
import Avro.Container.Header
import Avro.Series

/-!
Contract: reading of container files.

Owns: the opening of a file, the series of its records and the series of its blocks.

A block holds how many records it has, its compressed data, and the marker of the header. The series
of records checks the marker after the records of its block, the series of blocks before it shows
the block. A series breaks off at the first failure; it ends without one where no further block
starts.
-/

namespace Avro.Container

structure File where
  header : Header
  /-- The schema of the records as it stands in the header. -/
  schema : Json
  writerSchema : Json
  /-- The schema in which the records are wanted, or null. -/
  readerSchema : Json
  registry : Registry
  /-- Whether records of unions are given with their names. -/
  named : Bool
deriving Repr, Inhabited

/-- The reader's schema in parsed form; a schema that counts as empty is none. -/
def parseReader (reader : Json) : Outcome (Json × Registry) :=
  if reader.truthy then Schema.parse { mark := false } [] reader else .ok (.null, [])

def openFile (reader : Json) (named : Bool) : ReadM BinaryInput File := do
  let (parsedReader, readerRegistry) ← ReadM.lift (parseReader reader)
  let header ← Header.read
  let schema ← ReadM.lift header.schema
  let (writer, registry) ← ReadM.lift
    (Schema.parse { mark := false, force := true } readerRegistry schema)
  return ⟨header, schema, writer, parsedReader, registry, named⟩

namespace File

def readRecord (file : File) : ReadM BinaryInput Datum :=
  Decode.read file.registry Schema.depthLimit file.writerSchema file.readerSchema file.named

def recordsOf (file : File) : Nat → Bytes → Series Datum
  | 0, _ => .ended
  | count + 1, data =>
    match file.readRecord (BinaryInput.ofBytes data) with
    | .ok datum after => (file.recordsOf count after.rest).cons datum
    | .error error _ => .failed (interruption error)

def readSync (file : File) : ReadM BinaryInput Unit := do
  let found ← BinaryInput.take syncSize
  if found ≠ file.header.sync then throw .syncNotFound

/-- The records of the blocks that follow. Every block takes at least a byte, which bounds their
number. -/
def recordsFrom (file : File) (codec : Codec) : Nat → BinaryInput → Series Datum
  | 0, _ => .ended
  | fuel + 1, input =>
    match BinaryInput.readVarint input with
    | .error .exhausted _ => .ended
    | .error error _ => .failed error
    | .ok count afterCount =>
      match codec.readBlock afterCount with
      | .error error _ => .failed (interruption error)
      | .ok data afterData =>
        (file.recordsOf count.toNat data).append fun _ =>
          match file.readSync afterData with
          | .error error _ => .failed error
          | .ok _ afterSync => recordsFrom file codec fuel afterSync

def records (file : File) (libraries : Codec.Libraries) (input : BinaryInput) : Series Datum :=
  match Codec.find? libraries file.header.codec with
  | some codec => file.recordsFrom codec (input.rest.length + 1) input
  | none => .failed (.unrecognizedCodec file.header.codec)

end File

structure Block where
  /-- How many records the block says to have. -/
  count : Int
  codec : String
  /-- The expanded data. -/
  data : Bytes
  /-- Where the block starts, counted from the start of the file. -/
  offset : Int
  size : Int
deriving DecidableEq, Repr, Inhabited

def Block.text (block : Block) : String :=
  "Avro block: " ++ decimalDigits block.data.length ++ " bytes, " ++ integerText block.count ++
  " records, codec: "
    ++ block.codec ++ ", position " ++ integerText block.offset ++ "+" ++ integerText block.size

namespace File

def recordsOfBlock (file : File) (block : Block) : Series Datum :=
  file.recordsOf block.count.toNat block.data

def blocksFrom (file : File) (codec : Codec) (total : Nat) : Nat → BinaryInput → Series Block
  | 0, _ => .ended
  | fuel + 1, input =>
    match BinaryInput.readVarint input with
    | .error .exhausted _ => .ended
    | .error error _ => .failed error
    | .ok count afterCount =>
      match codec.readBlock afterCount with
      | .error error _ => .failed (interruption error)
      | .ok data afterData =>
        match file.readSync afterData with
        | .error error _ => .failed error
        | .ok _ afterSync =>
          (blocksFrom file codec total fuel afterSync).cons
            ⟨count, file.header.codec, data, (total - input.rest.length : Nat),
              (input.rest.length - afterSync.rest.length : Nat)⟩

def blocks (file : File) (libraries : Codec.Libraries) (total : Nat) (input : BinaryInput) :
    Series Block :=
  match Codec.find? libraries file.header.codec with
  | some codec => file.blocksFrom codec total (input.rest.length + 1) input
  | none => .failed (.unrecognizedCodec file.header.codec)

end File

def ofBytes (data : Bytes) (reader : Json) (named : Bool) : Outcome (File × BinaryInput) :=
  match openFile reader named (BinaryInput.ofBytes data) with
  | .ok file input => .ok (file, input)
  | .error error _ => .error error

end Avro.Container
