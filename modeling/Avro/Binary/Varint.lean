import Avro.Text.Basic

/-!
Contract: integers of variable length.

Owns: the zigzag map, which brings integers of either sign to natural numbers so that small
magnitudes stay small, and the base-128 digits of natural numbers, least significant first, all but
the last with the high bit set.

Integers beyond 64 bits are written too, but the map is one to one only within 64 bits.
-/

namespace Avro.Varint

/-- Twice the magnitude, less one for a negative integer. The bits beyond the sixty-third are mixed
in. -/
def zigzag (value : Int) : Nat :=
  if 0 ≤ value then (2 * value).toNat ^^^ (Int.fdiv value (Nat.pow 2 63)).toNat
  else (-2 * value - 1).toNat ^^^ (-Int.fdiv value (Nat.pow 2 63) - 1).toNat

def unzigzag (value : Nat) : Int :=
  if value % 2 = 0 then (value / 2 : Nat) else -((value / 2 : Nat) : Int) - 1

/-- The base-128 digits of a number, at most `fuel + 1` of them. -/
def digits : Nat → Nat → Bytes
  | 0, value => [UInt8.ofNat value]
  | fuel + 1, value =>
    if value < 128 then [UInt8.ofNat value]
    else UInt8.ofNat (value % 128 + 128) :: digits fuel (value / 128)

def encode (value : Int) : Bytes := digits (zigzag value) (zigzag value)

inductive Reading where
  /-- An integer, and the bytes after it. -/
  | value (value : Int) (rest : Bytes)
  /-- There are no bytes. -/
  | absent
  /-- The bytes end before the integer does. -/
  | cut
deriving DecidableEq, Repr

/-- Reads digits after the first one; `weight` is the value of the next digit's unit. -/
def decodeDigits (sum weight : Nat) : Bytes → Option (Nat × Bytes)
  | [] => none
  | byte :: rest =>
    let total := sum + byte.toNat % 128 * weight
    if byte.toNat < 128 then some (total, rest) else decodeDigits total (weight * 128) rest

def decode (bytes : Bytes) : Reading :=
  match bytes with
  | [] => .absent
  | _ :: _ =>
    match decodeDigits 0 1 bytes with
    | some (number, rest) => .value (unzigzag number) rest
    | none => .cut

end Avro.Varint
