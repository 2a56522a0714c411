import Avro.Text.Basic

/-!
Contract: bits and prefix codes.

Owns: the taking of bits one by one, and canonical prefix codes, which are given by the lengths of
their words alone.
-/

namespace Avro.Codec

abbrev BitM := StateT (List Bool) Option

def takeBit : BitM Bool := fun bits =>
  match bits with
  | [] => none
  | bit :: rest => some (bit, rest)

def takeNumber : Nat → BitM Nat
  | 0 => pure 0
  | count + 1 => do
    let bit ← takeBit
    return bit.toNat + 2 * (← takeNumber count)

def takeNumbers (width : Nat) : Nat → BitM (List Nat)
  | 0 => pure []
  | count + 1 => do
    let number ← takeNumber width
    return number :: (← takeNumbers width count)

def takeOnto (value : Nat) : Nat → BitM Nat
  | 0 => pure value
  | count + 1 => do takeOnto (2 * value + (← takeBit).toNat) count

def takeLeading (count : Nat) : BitM Nat := takeOnto 0 count

/-- A canonical prefix code: how many words there are of each length from one on, and the symbols by
increasing word. -/
structure PrefixCode where
  counts : List Nat
  symbols : Array Nat
deriving Repr

namespace PrefixCode

def symbolsOfLength (lengths : List Nat) (length : Nat) : List Nat :=
  lengths.zipIdx.filterMap fun (own, symbol) => if own = length then some symbol else none

/-- The code in which every symbol has a word of the given length, up to a greatest length; length
zero means no word. -/
def ofLengths (maxLength : Nat) (lengths : List Nat) : PrefixCode :=
  let groups := (List.range maxLength).map fun index => symbolsOfLength lengths (index + 1)
  ⟨groups.map List.length, groups.flatten.toArray⟩

/-- How much room the words leave, in words of the greatest length; none if there are too many
words. -/
def room : Nat → List Nat → Option Nat
  | left, [] => some left
  | left, count :: rest => if count ≤ 2 * left then room (2 * left - count) rest else none

def isComplete (code : PrefixCode) : Bool := room 1 code.counts == some 0

/-- Reads the rest of a word: its value so far, the first value of the current length, and the place
of the symbol of that first value. -/
def readFrom (code : PrefixCode) (value first index : Nat) : List Nat → BitM Nat
  | [] => failure
  | count :: longer => do
    let value := 2 * value + (← takeBit).toNat
    if value < first + count then
      match code.symbols[index + (value - first)]? with
      | some symbol => return symbol
      | none => failure
    else readFrom code value (2 * (first + count)) (index + count) longer

def read (code : PrefixCode) : BitM Nat := readFrom code 0 0 0 code.counts

end PrefixCode

/-- Appends bytes from a distance back, which may be bytes appended just before. -/
def copyBack (distance : Nat) (output : Array UInt8) : Nat → Option (Array UInt8)
  | 0 => some output
  | count + 1 =>
    if distance ≤ output.size then
      match output[output.size - distance]? with
      | some byte => copyBack distance (output.push byte) count
      | none => none
    else none

end Avro.Codec
