import Avro.Number.Octets

/-!
Contract: bytes that are taken one after the other and may run out.

Owns: the elementary steps by which the readers of compressed data take bytes.
-/

namespace Avro.Codec

abbrev ScanM := StateT Bytes Option

namespace ScanM

def byte : ScanM Nat := fun bytes =>
  match bytes with
  | [] => none
  | first :: rest => some (first.toNat, rest)

def take (count : Nat) : ScanM Bytes := fun bytes =>
  if count ≤ bytes.length then some (bytes.take count, bytes.drop count) else none

def skip (count : Nat) : ScanM Unit := do let _ ← take count

def little (count : Nat) : ScanM Nat := do return Octets.ofLittleEndian (← take count)

def big (count : Nat) : ScanM Nat := do return Octets.ofBigEndian (← take count)

def expect (expected : Bytes) : ScanM Unit := do
  if (← take expected.length) ≠ expected then failure

end ScanM

/-- Data in parts of a size, at least one of them; every part is given together with whether it is
the last. -/
def inParts (size : Nat) (write : Bool → Bytes → Bytes) (data : Bytes) : Bytes :=
  if data.length ≤ size || size = 0 then write true data
  else write false (data.take size) ++ inParts size write (data.drop size)
termination_by data.length
decreasing_by simp_all only [Bool.or_eq_true, decide_eq_true_eq, not_or, List.length_drop]; omega

end Avro.Codec
