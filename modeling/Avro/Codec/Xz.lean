import Avro.Codec.Scan
import Avro.Digest.Checksum

/-!
Contract: the XZ files that hold their data as it is.

Owns: `Xz.stored`, which writes a file of one block of stored chunks, and `Xz.expand`, which reads
files of such blocks. Chunks of entropy-coded data are refused.
-/

namespace Avro.Xz

open Codec

def magic : Bytes := [0xfd, 0x37, 0x7a, 0x58, 0x5a, 0x00]

def chunkLimit : Nat := 65536

def check (data : Bytes) : Bytes := Octets.littleEndian 4 (Digest.Crc32.checksum data).toNat

def padding (size : Nat) : Bytes := List.replicate ((4 - size % 4) % 4) 0

def checked (data : Bytes) : Bytes :=
  let padded := data ++ padding data.length
  padded ++ check padded

def groups (number : Nat) : Bytes :=
  if number < 128 then [UInt8.ofNat number]
  else UInt8.ofNat (number % 128 + 128) :: groups (number / 128)
termination_by number

/-! ### Reading -/

/-- How many bytes follow a block as its check, by the kind of check. -/
def checkSize (kind : Nat) : Nat :=
  [0, 4, 4, 4, 8, 8, 8, 16, 16, 16, 32, 32, 32, 64, 64, 64].getD kind 0

def expandChunks : Nat → Bytes → ScanM Bytes
  | 0, _ => failure
  | fuel + 1, before => do
    let control ← ScanM.byte
    if control = 0 then return before
    else if control = 1 || control = 2 then
      let chunk ← ScanM.take ((← ScanM.big 2) + 1)
      expandChunks fuel (before ++ chunk)
    else failure

def expandBlocks (checkBytes : Nat) : Nat → Bytes → ScanM Bytes
  | 0, _ => failure
  | fuel + 1, before => do
    let headSize ← ScanM.byte
    if headSize = 0 then return before
    let head ← ScanM.take (4 * headSize + 3)
    if head.take 3 ≠ [0x00, 0x21, 0x01] then failure
    let start := (← get).length
    let content ← expandChunks (start + 1) before
    ScanM.skip (padding (start - (← get).length)).length
    ScanM.skip checkBytes
    expandBlocks checkBytes fuel content

def expand (data : Bytes) : Option Bytes :=
  let scan : ScanM Bytes := do
    ScanM.expect (magic ++ [0x00])
    let kind ← ScanM.byte
    ScanM.skip 4
    expandBlocks (checkSize (kind % 16)) data.length []
  (scan data).map Prod.fst

/-! ### Writing -/

def chunk (data : Bytes) : Bytes :=
  if data.isEmpty then [] else 0x01 :: Octets.bigEndian 2 (data.length - 1) ++ data

def chunks (data : Bytes) : Bytes :=
  inParts chunkLimit (fun isLast part => chunk part ++ if isLast then [0x00] else []) data

def flags : Bytes := [0x00, 0x00]

def blockHeader : Bytes := checked [0x02, 0x00, 0x21, 0x01, 0x00]

def index (blockSize dataSize : Nat) : Bytes :=
  checked (0x00 :: 0x01 :: groups blockSize ++ groups dataSize)

def footer (indexSize : Nat) : Bytes :=
  let content := Octets.littleEndian 4 (indexSize / 4 - 1) ++ flags
  check content ++ content ++ [0x59, 0x5a]

def stored (data : Bytes) : Bytes :=
  let block := blockHeader ++ chunks data
  let record := index block.length data.length
  magic ++ flags ++ check flags ++ block ++ padding block.length ++ record ++ footer record.length

end Avro.Xz
