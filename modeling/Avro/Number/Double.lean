/-!
Contract: double-precision numbers as bit patterns with exact conversions.

Owns: the 64-bit pattern of a number, its exact value `m * 2 ^ q`, rounding of a ratio to the
nearest representable number (ties to even), and the conversions from and to the 32-bit format.

Does not own: decimal text (see `Avro.Number.Shortest`).

Every operation is arithmetic on natural numbers, so that its laws can be stated and computed
without reference to the machine's floating-point unit.
-/

namespace Avro

/-- A double-precision number, held as its 64-bit interchange pattern. -/
structure Double where
  bits : UInt64
deriving DecidableEq, Repr, Inhabited

/-- The quotient `num / den`, rounded to the nearest natural number; a half goes to the even
neighbour. -/
def roundHalfEven (num den : Nat) : Nat :=
  let quotient := num / den
  let twice := 2 * (num % den)
  if twice > den || (twice == den && quotient % 2 == 1) then quotient + 1 else quotient

/-- A binary interchange format: `significandBits` bits of precision, the hidden bit included, and
`leastExponent` as the exponent of the last bit of the least normal numbers. -/
structure BinaryFormat where
  significandBits : Nat
  leastExponent : Int
  /-- The first exponent field that is not finite. -/
  specialField : Nat

def BinaryFormat.binary64 : BinaryFormat := ⟨53, -1074, 2047⟩

def BinaryFormat.binary32 : BinaryFormat := ⟨24, -149, 255⟩

/-- The greatest `e` with `2 ^ e ≤ num / den`, for positive `num` and `den`. -/
def floorLog2 (num den : Nat) : Int :=
  let estimate : Int := (num.log2 : Int) - (den.log2 : Int)
  let reached : Bool :=
    if estimate ≥ 0 then den * Nat.pow 2 estimate.toNat ≤ num
    else den ≤ num * Nat.pow 2 (-estimate).toNat
  if reached then estimate else estimate - 1

/-- The pattern, sign aside, of the number of the format nearest to `num / den`; `none` if that
rounds beyond the finite numbers. Consecutive magnitudes have consecutive patterns, so a significand
that rounds up to the next power of two carries into the exponent field by itself. -/
def BinaryFormat.roundMagnitude (format : BinaryFormat) (num den : Nat) : Option Nat :=
  if num = 0 then some 0 else
    let exponent := max (floorLog2 num den - (format.significandBits - 1 : Int))
      format.leastExponent
    let significand :=
      if exponent ≥ 0 then roundHalfEven num (den * Nat.pow 2 exponent.toNat)
      else roundHalfEven (num * Nat.pow 2 (-exponent).toNat) den
    let stride := Nat.pow 2 (format.significandBits - 1)
    let pattern := (exponent - format.leastExponent).toNat * stride + significand
    if pattern < format.specialField * stride then some pattern else none

namespace Double

def ofMagnitude (negative : Bool) (pattern : Nat) : Double :=
  ⟨UInt64.ofNat ((if negative then Nat.pow 2 63 else 0) + pattern)⟩

def negative (number : Double) : Bool := number.bits.toNat / Nat.pow 2 63 == 1

def magnitude (number : Double) : Nat := number.bits.toNat % Nat.pow 2 63

def exponentField (number : Double) : Nat := number.magnitude / Nat.pow 2 52

def fraction (number : Double) : Nat := number.magnitude % Nat.pow 2 52

def infinity (negative : Bool) : Double := ofMagnitude negative (2047 * Nat.pow 2 52)

/-- The quiet number that stands for an undefined result. -/
def nan : Double := ofMagnitude false (2047 * Nat.pow 2 52 + Nat.pow 2 51)

def isNaN (number : Double) : Bool := number.exponentField == 2047 && number.fraction != 0

def isInfinite (number : Double) : Bool := number.exponentField == 2047 && number.fraction == 0

def isFinite (number : Double) : Bool := number.exponentField != 2047

/-- The significand `m` of a finite number, whose magnitude is `m * 2 ^ q`. -/
def significand (number : Double) : Nat :=
  if number.exponentField = 0 then number.fraction else number.fraction + Nat.pow 2 52

/-- The exponent `q` of a finite number, whose magnitude is `m * 2 ^ q`. -/
def exponent (number : Double) : Int :=
  if number.exponentField = 0 then -1074 else (number.exponentField : Int) - 1075

def ratio (number : Double) : Nat × Nat :=
  if number.exponent ≥ 0 then (number.significand * Nat.pow 2 number.exponent.toNat, 1)
  else (number.significand, Nat.pow 2 (-number.exponent).toNat)

/-- The number nearest to `± num / den`, infinite if that is beyond the finite numbers. -/
def ofRatio (negative : Bool) (num den : Nat) : Double :=
  match BinaryFormat.binary64.roundMagnitude num den with
  | some pattern => ofMagnitude negative pattern
  | none => infinity negative

def ofInt? (value : Int) : Option Double :=
  (BinaryFormat.binary64.roundMagnitude value.natAbs 1).map (ofMagnitude (decide (value < 0)))

def truncate (number : Double) : Int :=
  let (num, den) := number.ratio
  if number.negative then -((num / den : Nat) : Int) else ((num / den : Nat) : Int)

def toInt? (number : Double) : Option Int :=
  if number.isFinite && number.ratio.1 % number.ratio.2 == 0 then some number.truncate else none

/-- Equality of values: the two zeros are equal and an undefined number equals nothing. -/
def same (left right : Double) : Bool :=
  !left.isNaN && !right.isNaN && (left == right || (left.magnitude == 0 && right.magnitude == 0))

def isZero (number : Double) : Bool := number.magnitude == 0

/-- The exact value of a finite number as a signed numerator and a denominator. -/
def signedRatio (number : Double) : Int × Nat :=
  ((if number.negative then -(number.ratio.1 : Int) else number.ratio.1), number.ratio.2)

def ofFraction (num : Int) (den : Nat) : Double := ofRatio (decide (num < 0)) num.natAbs den

def mul (left right : Double) : Double :=
  ofFraction (left.signedRatio.1 * right.signedRatio.1) (left.signedRatio.2 * right.signedRatio.2)

def div (left right : Double) : Double :=
  ofFraction (left.signedRatio.1 * right.signedRatio.2 * (if right.negative then -1 else 1))
    (left.signedRatio.2 * right.signedRatio.1.natAbs)

def sub (left right : Double) : Double :=
  ofFraction (left.signedRatio.1 * right.signedRatio.2 - right.signedRatio.1 * left.signedRatio.2)
    (left.signedRatio.2 * right.signedRatio.2)

def floor (number : Double) : Int := Int.fdiv number.signedRatio.1 number.signedRatio.2

/-- The nearest 32-bit pattern; `none` if a finite number rounds beyond the finite 32-bit numbers.
An undefined number keeps its sign and the leading bits of its payload. -/
def toBinary32? (number : Double) : Option UInt32 :=
  let sign := if number.negative then Nat.pow 2 31 else 0
  if number.isNaN then
    some (UInt32.ofNat (sign + 255 * Nat.pow 2 23 + Nat.pow 2 22 +
      number.fraction / Nat.pow 2 29 % Nat.pow 2 22))
  else if number.isInfinite then some (UInt32.ofNat (sign + 255 * Nat.pow 2 23))
  else (BinaryFormat.binary32.roundMagnitude number.ratio.1 number.ratio.2).map
    fun pattern => UInt32.ofNat (sign + pattern)

/-- The number that a 32-bit pattern stands for; the conversion is exact. -/
def ofBinary32 (pattern : UInt32) : Double :=
  let negative := pattern.toNat / Nat.pow 2 31 == 1
  let field := pattern.toNat / Nat.pow 2 23 % 256
  let fraction := pattern.toNat % Nat.pow 2 23
  if field = 255 then
    if fraction = 0 then infinity negative
    else ofMagnitude negative
      (2047 * Nat.pow 2 52 + Nat.pow 2 51 + fraction % Nat.pow 2 22 * Nat.pow 2 29)
  else
    let significand := if field = 0 then fraction else fraction + Nat.pow 2 23
    ofRatio negative (significand * Nat.pow 2 (field - 1)) (Nat.pow 2 149)

end Double

end Avro
