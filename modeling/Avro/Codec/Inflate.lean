import Avro.Codec.PrefixCode
import Avro.Codec.Scan

/-!
Contract: the deflate format.

Owns: `Inflate.expand`, which expands compressed data, `Inflate.stored`, which writes data without
compressing it, and `Inflate.wrapped`, the frame around such data.

Compressed data is a series of blocks: stored bytes, or symbols of a fixed or a transmitted prefix
code. A symbol is a byte, the end of the block, or the length of a copy from a distance back. Bytes
after the last block are ignored.
-/

namespace Avro.Inflate

open Codec

def bitsOfByte (byte : UInt8) : List Bool :=
  (List.range 8).map fun place => byte.toNat.testBit place

def bitsOf (bytes : Bytes) : List Bool := bytes.flatMap bitsOfByte

def alignToByte : BitM Unit := fun bits => some ((), bits.drop (bits.length % 8))

def codeOfLengths (lengths : List Nat) : PrefixCode := PrefixCode.ofLengths 15 lengths

/-- Whether a code may be used for symbols: it is complete, or has at most one word, of one bit. -/
def isUsable (code : PrefixCode) : Bool :=
  let total := code.counts.foldl (· + ·) 0
  code.isComplete || (total ≤ 1 && total == code.counts.headD 0)

/-! ### Symbols -/

/-- The least length of each length symbol from 257 on, and how many bits are added to it. -/
def copyLengths : Array (Nat × Nat) :=
  #[(3, 0), (4, 0), (5, 0), (6, 0), (7, 0), (8, 0), (9, 0), (10, 0), (11, 1), (13, 1), (15, 1),
    (17, 1), (19, 2), (23, 2), (27, 2), (31, 2), (35, 3), (43, 3), (51, 3), (59, 3), (67, 4),
    (83, 4), (99, 4), (115, 4), (131, 5), (163, 5), (195, 5), (227, 5), (258, 0)]

/-- The least distance of each distance symbol, and how many bits are added to it. -/
def copyDistances : Array (Nat × Nat) :=
  #[(1, 0), (2, 0), (3, 0), (4, 0), (5, 1), (7, 1), (9, 2), (13, 2), (17, 3), (25, 3), (33, 4),
    (49, 4), (65, 5), (97, 5), (129, 6), (193, 6), (257, 7), (385, 7), (513, 8), (769, 8),
    (1025, 9), (1537, 9), (2049, 10), (3073, 10), (4097, 11), (6145, 11), (8193, 12), (12289, 12),
    (16385, 13), (24577, 13)]

def takeQuantity (table : Array (Nat × Nat)) (index : Nat) : BitM Nat := do
  match table[index]? with
  | some (base, added) => return base + (← takeNumber added)
  | none => failure

/-- Expands the symbols of a block. Every symbol takes at least a bit, which bounds their number. -/
def expandSymbols (literals distances : PrefixCode) : Nat → Array UInt8 → BitM (Array UInt8)
  | 0, _ => failure
  | fuel + 1, output => do
    let symbol ← literals.read
    if symbol < 256 then expandSymbols literals distances fuel (output.push (UInt8.ofNat symbol))
    else if symbol = 256 then return output
    else
      let length ← takeQuantity copyLengths (symbol - 257)
      let distance ← takeQuantity copyDistances (← distances.read)
      match copyBack distance output length with
      | some extended => expandSymbols literals distances fuel extended
      | none => failure

/-! ### Blocks -/

/-- A stored block: its size, the complement of the size, and the bytes. -/
def expandStored (output : Array UInt8) : BitM (Array UInt8) := do
  alignToByte
  let size ← takeNumber 16
  let complement ← takeNumber 16
  if size + complement = 65535 then
    let bytes ← takeNumbers 8 size
    return output ++ (bytes.map UInt8.ofNat).toArray
  else failure

def fixedLiterals : PrefixCode :=
  codeOfLengths (List.replicate 144 8 ++ List.replicate 112 9 ++ List.replicate 24 7 ++
    List.replicate 8 8)

def fixedDistances : PrefixCode := codeOfLengths (List.replicate 30 5)

def lengthOrder : List Nat := [16, 17, 18, 0, 8, 7, 9, 6, 10, 5, 11, 4, 12, 3, 13, 2, 14, 1, 15]

def arrangeLengths (sent : List Nat) : List Nat :=
  (List.range 19).map fun symbol => ((lengthOrder.zip sent).lookup symbol).getD 0

/-- Reads `wanted` lengths, some of them as repetitions. The lengths so far stand last first. -/
def readLengths (code : PrefixCode) (wanted : Nat) : Nat → List Nat → BitM (List Nat)
  | 0, _ => failure
  | fuel + 1, found =>
    if found.length = wanted then pure found.reverse
    else if found.length > wanted then failure
    else do
      let symbol ← code.read
      if symbol < 16 then readLengths code wanted fuel (symbol :: found)
      else if symbol = 16 then
        match found with
        | [] => failure
        | last :: _ =>
          let count ← takeNumber 2
          readLengths code wanted fuel (List.replicate (3 + count) last ++ found)
      else if symbol = 17 then
        let count ← takeNumber 3
        readLengths code wanted fuel (List.replicate (3 + count) 0 ++ found)
      else
        let count ← takeNumber 7
        readLengths code wanted fuel (List.replicate (11 + count) 0 ++ found)

def readCodes : BitM (PrefixCode × PrefixCode) := do
  let literalCount := 257 + (← takeNumber 5)
  let distanceCount := 1 + (← takeNumber 5)
  let sentCount := 4 + (← takeNumber 4)
  if literalCount > 286 || distanceCount > 30 then failure
  let lengthCode := codeOfLengths (arrangeLengths (← takeNumbers 3 sentCount))
  if !lengthCode.isComplete then failure
  let wanted := literalCount + distanceCount
  let lengths ← readLengths lengthCode wanted (wanted + 1) []
  let literals := codeOfLengths (lengths.take literalCount)
  let distances := codeOfLengths (lengths.drop literalCount)
  if (lengths.getD 256 0 != 0) && isUsable literals && isUsable distances then
    return (literals, distances)
  else failure

def expandBlock (output : Array UInt8) : BitM (Array UInt8) := do
  let kind ← takeNumber 2
  let fuel := (← get).length + 1
  if kind = 0 then expandStored output
  else if kind = 1 then expandSymbols fixedLiterals fixedDistances fuel output
  else if kind = 2 then
    let (literals, distances) ← readCodes
    expandSymbols literals distances fuel output
  else failure

/-- Expands blocks up to the one that is marked as the last. -/
def expandBlocks : Nat → Array UInt8 → BitM (Array UInt8)
  | 0, _ => failure
  | fuel + 1, output => do
    let isLast ← takeBit
    let extended ← expandBlock output
    if isLast then return extended else expandBlocks fuel extended

def expand (data : Bytes) : Option Bytes :=
  let bits := bitsOf data
  match expandBlocks (bits.length + 1) #[] bits with
  | some (output, _) => some output.toList
  | none => none

/-! ### Writing -/

def storedLimit : Nat := 65535

def storedBlock (isLast : Bool) (data : Bytes) : Bytes :=
  (if isLast then 1 else 0) :: Octets.littleEndian 2 data.length ++
  Octets.littleEndian 2 (storedLimit - data.length)
    ++ data

def stored (data : Bytes) : Bytes := inParts storedLimit storedBlock data

/-- The checksum of data: the sum of its bytes, and the sum of these sums. -/
def adler32 (data : Bytes) : Nat :=
  let (low, high) := data.foldl (fun (low, high) byte =>
    ((low + byte.toNat) % 65521, (high + low + byte.toNat) % 65521)) (1, 0)
  high * 65536 + low

/-- Stored data between the two bytes that tell the format and the checksum. -/
def wrapped (data : Bytes) : Bytes :=
  [0x78, 0x01] ++ stored data ++ Octets.bigEndian 4 (adler32 data)

end Avro.Inflate
