import Avro.Codec.Scan

/-!
Contract: the frames of Zstandard that hold their data as it is.

Owns: `Zstandard.stored`, which writes a frame of raw blocks, and `Zstandard.expand`, which reads
frames of raw blocks and of blocks that repeat one byte. Blocks of entropy-coded data are refused.
-/

namespace Avro.Zstandard

open Codec

def magic : Bytes := [0x28, 0xb5, 0x2f, 0xfd]

def blockLimit : Nat := 131072

structure Descriptor where
  /-- How many bytes tell the size of the content. -/
  contentBytes : Nat
  /-- How many bytes tell the size of the window. -/
  windowBytes : Nat
  hasChecksum : Bool
  /-- How many bytes tell the dictionary. -/
  dictionaryBytes : Nat
deriving DecidableEq, Repr

def Descriptor.ofByte (byte : Nat) : Descriptor :=
  let isSingle := byte / 32 % 2 = 1
  ⟨[if isSingle then 1 else 0, 2, 4, 8].getD (byte / 64) 0, if isSingle then 0 else 1,
    byte / 4 % 2 = 1,
    [0, 1, 2, 4].getD (byte % 4) 0⟩

def expandBlocks : Nat → Bytes → ScanM Bytes
  | 0, _ => failure
  | fuel + 1, before => do
    let head ← ScanM.little 3
    let size := head / 8
    let kind := head / 2 % 4
    let block ←
      if kind = 0 then ScanM.take size
      else if kind = 1 then do
        let byte ← ScanM.byte
        pure (List.replicate size (UInt8.ofNat byte))
      else failure
    if head % 2 = 1 then return before ++ block else expandBlocks fuel (before ++ block)

def expandFrame : ScanM Bytes := do
  ScanM.expect magic
  let descriptor := Descriptor.ofByte (← ScanM.byte)
  ScanM.skip descriptor.windowBytes
  ScanM.skip descriptor.dictionaryBytes
  ScanM.skip descriptor.contentBytes
  let content ← expandBlocks ((← get).length + 1) []
  ScanM.skip (if descriptor.hasChecksum then 4 else 0)
  return content

def expand (data : Bytes) : Option Bytes := (expandFrame data).map Prod.fst

def rawBlock (isLast : Bool) (data : Bytes) : Bytes :=
  Octets.littleEndian 3 (8 * data.length + isLast.toNat) ++ data

def stored (data : Bytes) : Bytes :=
  magic ++ 0xe0 :: Octets.littleEndian 8 data.length ++ inParts blockLimit rawBlock data

end Avro.Zstandard
