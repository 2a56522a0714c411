import Avro.Codec.PrefixCode
import Avro.Codec.Scan

/-!
Contract: the block format of LZ4, with the expanded size in front.

Owns: `Lz4.expand`, which expands compressed data, and `Lz4.stored`, which writes data as literal
bytes.

A block is a series of sequences. Each has a run of literal bytes and, but for the last one, the
length of a copy and the distance from which it is taken. Lengths of fifteen and more go on in
further bytes.
-/

namespace Avro.Lz4

open Codec

/-- The rest of a length: bytes that are added, up to the first that is not the greatest. -/
def takeExtension : Nat → ScanM Nat
  | 0 => failure
  | fuel + 1 => do
    let byte ← ScanM.byte
    if byte = 255 then return 255 + (← takeExtension fuel) else return byte

def takeLength (known : Nat) : ScanM Nat := do
  if known = 15 then return 15 + (← takeExtension ((← get).length + 1)) else return known

def expandSequences : Nat → Array UInt8 → ScanM (Array UInt8)
  | 0, _ => failure
  | fuel + 1, output => do
    let token ← ScanM.byte
    let literals ← ScanM.take (← takeLength (token / 16))
    let extended := output ++ literals.toArray
    if (← get).isEmpty then return extended
    let distance ← ScanM.little 2
    let length ← takeLength (token % 16)
    if distance = 0 then failure
    match copyBack distance extended (length + 4) with
    | some copied => expandSequences fuel copied
    | none => failure

def expand (data : Bytes) : Option Bytes := do
  let (size, sequences) ← ScanM.little 4 data
  let (output, _) ← expandSequences (sequences.length + 1) #[] sequences
  if output.size = size then return output.toList else none

def extension (rest : Nat) : Bytes :=
  if rest < 255 then [UInt8.ofNat rest] else 255 :: extension (rest - 255)
termination_by rest

def literalRun (data : Bytes) : Bytes :=
  let size := data.length
  if size < 15 then UInt8.ofNat (16 * size) :: data else 0xf0 :: extension (size - 15) ++ data

def stored (data : Bytes) : Bytes := Octets.littleEndian 4 data.length ++ literalRun data

end Avro.Lz4
