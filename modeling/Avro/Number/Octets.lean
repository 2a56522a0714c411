import Avro.Text.Basic

/-!
Contract: numbers as byte strings.

Owns: natural numbers in either byte order, and integers in two's complement, most significant byte
first.
-/

namespace Avro.Octets

/-- The last `width` bytes of a natural number, most significant first. -/
def bigEndian (width value : Nat) : Bytes :=
  match width with
  | 0 => []
  | rest + 1 => bigEndian rest (value / 256) ++ [UInt8.ofNat value]

/-- The last `width` bytes of a natural number, least significant first. -/
def littleEndian (width value : Nat) : Bytes :=
  match width with
  | 0 => []
  | rest + 1 => UInt8.ofNat value :: littleEndian rest (value / 256)

def ofBigEndian (bytes : Bytes) : Nat := bytes.foldl (fun value byte => value * 256 + byte.toNat) 0

def ofLittleEndian : Bytes → Nat
  | [] => 0
  | byte :: rest => byte.toNat + 256 * ofLittleEndian rest

def twosComplement (width : Nat) (value : Int) : Bytes :=
  bigEndian width (Int.emod value (Nat.pow 256 width)).toNat

/-- The integer that bytes stand for in two's complement; no bytes stand for zero. -/
def ofTwosComplement (bytes : Bytes) : Int :=
  let magnitude := ofBigEndian bytes
  if 2 * magnitude ≥ Nat.pow 256 bytes.length && !bytes.isEmpty then
    (magnitude : Int) - Nat.pow 256 bytes.length
  else magnitude

def bitLength (value : Nat) : Nat := if value = 0 then 0 else value.log2 + 1

end Avro.Octets
