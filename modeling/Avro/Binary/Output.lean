import Avro.Binary.Varint
import Avro.Digest.Checksum
import Avro.Encode.Sink
import Avro.Number.Octets

/-!
Contract: the binary format as an output.

Owns: the bytes of integers, floating-point numbers, byte strings and texts, and the counts and ends
of collections.
-/

namespace Avro

/-- An output, which holds its bytes last first, so that appending does not touch those before. -/
structure BinaryOutput where
  reversed : Bytes
deriving DecidableEq, Repr, Inhabited

namespace BinaryOutput

def empty : BinaryOutput := ⟨[]⟩

def written (output : BinaryOutput) : Bytes := output.reversed.reverse

def append (output : BinaryOutput) (bytes : Bytes) : BinaryOutput :=
  ⟨bytes.reverseAux output.reversed⟩

@[simp] theorem written_empty : empty.written = [] := rfl

@[simp] theorem written_append (output : BinaryOutput) (bytes : Bytes) :
    (output.append bytes).written = output.written ++ bytes := by
  simp [append, written, List.reverseAux_eq]

def put (bytes : Bytes) : WriteM BinaryOutput Unit := modify fun output => output.append bytes

def integerOf : Datum → Outcome Int
  | .int value => .ok value
  | .bool value => .ok (if value then 1 else 0)
  | _ => .error (.wrongType [])

def doubleOfInteger (value : Int) : Outcome Double :=
  match Double.ofInt? value with
  | some number => .ok number
  | none => .error .badLayout

def doubleOf : Datum → Outcome Double
  | .float value => .ok value
  | .int value => doubleOfInteger value
  | .bool value => doubleOfInteger (if value then 1 else 0)
  | .decimal (.finite negative digits exponent) => .ok (Double.ofDecimal negative digits exponent)
  | .decimal (.infinite negative) => .ok (Double.infinity negative)
  | .decimal (.nan _ false _) => .ok Double.nan
  | _ => .error .badLayout

def writeInteger (datum : Datum) : WriteM BinaryOutput Unit := do
  put (Varint.encode (← WriteM.lift (integerOf datum)))

/-- Why a number beyond the range of single precision is refused. -/
def singleFault : Datum → Error
  | .int _ => .badLayout
  | _ => .overflow

def writeSingle (datum : Datum) : WriteM BinaryOutput Unit := do
  let number ← WriteM.lift (doubleOf datum)
  match number.toBinary32? with
  | some pattern => put (Octets.littleEndian 4 pattern.toNat)
  | none => throw (singleFault datum)

def writeNumber (datum : Datum) : WriteM BinaryOutput Unit := do
  let number ← WriteM.lift (doubleOf datum)
  put (Octets.littleEndian 8 number.bits.toNat)

def writeRaw (datum : Datum) : WriteM BinaryOutput Unit :=
  match datum.byteContent? with
  | some content => if content.length < Datum.sizeLimit then put content else throw .overflow
  | none => throw (.wrongType [])

/-- Bytes after their length. The length is written even if the value turns out to be no byte
string. -/
def writeSized (datum : Datum) : WriteM BinaryOutput Unit := do
  let size ← WriteM.size datum
  put (Varint.encode size)
  writeRaw datum

def writeString : Datum → WriteM BinaryOutput Unit
  | .str text => writeSized (.bytes (Text.encodeUtf8 text))
  | _ => throw .unsupported

/-- The check of a byte string, most significant byte first. -/
def writeCrc32 (datum : Datum) : WriteM BinaryOutput Unit :=
  match datum.byteContent? with
  | some content => put (Octets.bigEndian 4 (Digest.Crc32.checksum content).toNat)
  | none => throw (.wrongType [])

instance : Sink BinaryOutput where
  writeNull := pure ()
  writeBoolean datum := put [if datum.truthy then 1 else 0]
  writeInt := writeInteger
  writeLong := writeInteger
  writeFloat := writeSingle
  writeDouble := writeNumber
  writeBytes := writeSized
  writeText := writeString
  writeFixed := writeRaw
  writeEnum := writeInteger
  writeArrayStart := pure ()
  writeItemCount := writeInteger
  writeItemEnd := pure ()
  writeArrayEnd := put (Varint.encode 0)
  writeMapStart := pure ()
  writeMapEnd := put (Varint.encode 0)
  writeIndex := writeInteger

end BinaryOutput

end Avro
