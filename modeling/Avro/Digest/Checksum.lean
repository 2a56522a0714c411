import Avro.Error
import Avro.Number.Octets
import Avro.Text.Quoted

/-!
Contract: checksums of byte strings by division of polynomials.

Owns: the 32-bit cyclic redundancy check, which is the reflected division by the polynomial that
Ethernet uses, with inverted start and end; and the 64-bit Rabin fingerprint with its table of byte
steps, as sixteen hexadecimal digits, least significant byte first.

The running value of the fingerprint is a natural number without a bound; only the eight bytes of
the result ask for a number of 64 bits.
-/

namespace Avro.Digest.Crc32

def polynomial : UInt32 := 0xedb88320

def bitStep (value : UInt32) : UInt32 :=
  (value >>> 1) ^^^ (if value &&& 1 = 1 then polynomial else 0)

def bitSteps (value : UInt32) : Nat → UInt32
  | 0 => value
  | count + 1 => bitSteps (bitStep value) count

def step (value : UInt32) (byte : UInt8) : UInt32 := bitSteps (value ^^^ byte.toUInt32) 8

def checksum (data : Bytes) : UInt32 := data.foldl step 0xffffffff ^^^ 0xffffffff

end Avro.Digest.Crc32

namespace Avro.Digest.Rabin

/-- The fingerprint of the empty byte string, which is also the reduction polynomial. -/
def empty : Nat := 0xc15d213aa4d7a795

def bitStep (value : Nat) : Nat := (value >>> 1) ^^^ (if value &&& 1 = 1 then empty else 0)

def bitSteps (value : Nat) : Nat → Nat
  | 0 => value
  | count + 1 => bitSteps (bitStep value) count

def table : Array Nat := ((List.range 256).map fun byte => bitSteps byte 8).toArray

def step (entries : Array Nat) (value : Nat) (byte : UInt8) : Nat :=
  (value >>> 8) ^^^ entries.getD ((value ^^^ byte.toNat) &&& 0xff) 0

def value (data : Bytes) : Nat := data.foldl (step table) empty

/-- The bytes of a number, least significant first; a number that needs more of them has none. -/
def eightBytes (number : Nat) : Outcome Bytes :=
  if number < Nat.pow 256 8 then .ok (Octets.littleEndian 8 number) else .error .overflow

def fingerprint (data : Bytes) : Outcome String := do
  return Text.hexOfBytes (← eightBytes (value data))

end Avro.Digest.Rabin
