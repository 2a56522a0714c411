import Avro.Binary.Varint
import Avro.Decode.Source
import Avro.Number.Octets
import Avro.Schema.Parse

/-!
Contract: the binary format as an input.

Owns: the reading of integers, floating-point numbers, byte strings and texts, and of the blocks of
collections.

A read beyond the end gives what is left. A collection is a series of blocks, each headed by a
count; a negative count is followed by a size that is not used, and a count of zero ends the series.
The count of the block that comes next is part of the state, one for all collections.
-/

namespace Avro

/-- The bytes not yet read, and the count of the next block, once a collection has been started. -/
structure BinaryInput where
  rest : Bytes
  blockCount : Option Int
deriving DecidableEq, Repr, Inhabited

namespace BinaryInput

def ofBytes (bytes : Bytes) : BinaryInput := ⟨bytes, none⟩

def take (count : Nat) : ReadM BinaryInput Bytes := fun input =>
  .ok (input.rest.take count) { input with rest := input.rest.drop count }

/-- Takes bytes of a size that may be negative, which means all of them; a size beyond 64 bits
cannot be asked for. -/
def takeSized (size : Int) : ReadM BinaryInput Bytes := fun input =>
  if size ≥ Datum.sizeLimit || size < -Datum.sizeLimit then .error .overflow input
  else if size < 0 then .ok input.rest { input with rest := [] }
  else take size.toNat input

def readVarint : ReadM BinaryInput Int := fun input =>
  match Varint.decode input.rest with
  | .value value rest => .ok value { input with rest := rest }
  | .absent => .error .exhausted input
  | .cut => .error (.wrongType []) { input with rest := [] }

/-- Reads exactly `count` bytes as a number, least significant first. -/
def readFixedWidth (count : Nat) : ReadM BinaryInput Nat := do
  let bytes ← take count
  if bytes.length = count then return Octets.ofLittleEndian bytes else throw .badLayout

def readSized : ReadM BinaryInput Bytes := do takeSized (← readVarint)

def readString : ReadM BinaryInput Datum := do
  match Text.decodeUtf8? (← readSized) with
  | some text => return .str text
  | none => throw .notUtf8

/-- Reads bytes of a size that a schema gives; no size at all means all bytes. -/
def readFixedSize : Json → ReadM BinaryInput Datum
  | .null => do return .bytes (← takeSized (-1))
  | size =>
    match Schema.integer? size with
    | some count => do return .bytes (← takeSized count)
    | none => throw (.wrongType [])

def readBlockCount : ReadM BinaryInput Unit := do
  let count ← readVarint
  modify fun input => { input with blockCount := some count }

/-- A step between items: data that ends there interrupts the iteration. -/
def betweenItems {α : Type} (step : ReadM BinaryInput α) : ReadM BinaryInput α := fun input =>
  match step input with
  | .error .exhausted after => .error .interrupted after
  | result => result

def times {α : Type} (step : ReadM BinaryInput α) : Nat → ReadM BinaryInput (List α)
  | 0 => pure []
  | count + 1 => do
    let item ← step
    return item :: (← times step count)

def startBlock : ReadM BinaryInput Nat := do
  match (← get).blockCount with
  | none => throw .unsupported
  | some count =>
    if count < 0 then
      modify fun input => { input with blockCount := some (-count) }
      let _ ← betweenItems readVarint
      return count.natAbs
    else return count.natAbs

/-- Performs a step for every item of the blocks that follow. Every block takes at least a byte. -/
def readBlocks {α : Type} (step : ReadM BinaryInput α) : Nat → ReadM BinaryInput (List α)
  | 0 => throw .tooDeep
  | fuel + 1 => do
    let count ← startBlock
    if count = 0 then return []
    let items ← times step count
    betweenItems readBlockCount
    return items ++ (← readBlocks step fuel)

def readCollection {α : Type} (step : ReadM BinaryInput α) :
    ReadM BinaryInput (List α) := fun input =>
  readBlocks step (input.rest.length + 1) input

instance : Source BinaryInput where
  readNull := pure .null
  readBoolean := do return .bool ((← readFixedWidth 1) != 0)
  readInt := do return .int (← readVarint)
  readLong := do return .int (← readVarint)
  readFloat := do return .float (Double.ofBinary32 (UInt32.ofNat (← readFixedWidth 4)))
  readDouble := do return .float ⟨UInt64.ofNat (← readFixedWidth 8)⟩
  readBytes := do return .bytes (← readSized)
  readText := readString
  readFixed := readFixedSize
  readEnum := readVarint
  readArrayStart := readBlockCount
  readItems := readCollection
  readArrayEnd := pure ()
  readMapStart := readBlockCount
  readEntries := readCollection
  readMapEnd := pure ()
  readIndex := readVarint

end BinaryInput

end Avro
