import Avro.Number.Octets
import Avro.Schema.Parse

/-!
Contract: logical types.

Owns: the logical types that have a meaning here, and for each of them the conversion of a value to
the underlying type before it is written, and back after it has been read.

A value that is not of the class of a logical type is written as it is.
-/

namespace Avro

/-- The logical types, each with its underlying type. -/
inductive Logical where
  | timestampMillis
  | timestampMicros
  | date
  | bytesDecimal
  | fixedDecimal
  | uuid
  | timeMillis
  | timeMicros
deriving DecidableEq, Repr

namespace Logical

def ofTag? : String → Option Logical
  | "long-timestamp-millis" => some timestampMillis
  | "long-timestamp-micros" => some timestampMicros
  | "int-date" => some date
  | "bytes-decimal" => some bytesDecimal
  | "fixed-decimal" => some fixedDecimal
  | "string-uuid" => some uuid
  | "int-time-millis" => some timeMillis
  | "long-time-micros" => some timeMicros
  | _ => none

/-- The logical type of a schema node, if it has one with a meaning. -/
def ofSchema (schema : Json) : Outcome (Option Logical) := do
  return (← Schema.logicalTag schema).bind ofTag?

/-! ### Decimals -/

/-- The digits of a decimal that count against the precision, and its exponent if it is finite. -/
def digitsOf : Decimal → Nat × Option Int
  | .finite _ digits exponent => (digitCount digits, some exponent)
  | .infinite _ => (1, none)
  | .nan _ _ payload => (payload.length, none)

def exceeds (count : Nat) (bound : Json) : Outcome Bool :=
  match bound with
  | .int value => .ok ((count : Int) > value)
  | .bool value => .ok (count > if value then 1 else 0)
  | .float value =>
    if value.isNaN then .ok false
    else if value.isInfinite then .ok value.negative
    else .ok ((count : Int) * value.signedRatio.2 > value.signedRatio.1)
  | _ => .error (.wrongType [])

/-- The sign of `exponent + scale` for a scale that is a floating-point number. -/
def shiftSign (exponent : Int) (scale : Double) : Ordering :=
  if scale.isNaN then .gt
  else if scale.isInfinite then (if scale.negative then .lt else .gt)
  else compare (exponent * scale.signedRatio.2 + scale.signedRatio.1) 0

/-- The unscaled integer of a decimal as the least number of bytes, most significant first. -/
def prepareBytesDecimal (number : Decimal) (schema : Json) : Outcome Bytes := do
  let scale := (schema.get? "scale").getD (.int 0)
  let precision ← Schema.attributeOf schema "precision"
  let (count, exponent) := digitsOf number
  if ← exceeds count precision then throw .decimalTooLong
  match number, exponent, Schema.integer? scale, scale with
  | .finite negative digits _, some exponent, some places, _ =>
    if exponent + places < 0 then throw .decimalScaleMismatch
    let magnitude := digits * Nat.pow 10 (exponent + places).toNat
    let width := (Octets.bitLength magnitude + 8) / 8
    return Octets.twosComplement width (if negative then -(magnitude : Int) else magnitude)
  | _, some exponent, none, .float places =>
    if shiftSign exponent places == .lt then throw .decimalScaleMismatch else throw .unsupported
  | _, _, _, _ => throw (.wrongType [])

/-- The bytes of a negative number: every bit above those of the magnitude is set. -/
def fixedNegative (size bits magnitude : Nat) : Bytes :=
  let mask := (Nat.pow 2 (8 * size) - 1) ^^^ (Nat.pow 2 bits - 1)
  Octets.bigEndian size (mask ||| (Nat.pow 2 bits - magnitude))

/-- The bytes of a number that is not negative, with zeros in front up to the size. -/
def fixedPositive (size bits magnitude : Nat) : Bytes :=
  let width := if bits < 8 then 1 else (bits + 7) / 8
  List.replicate ((8 * size - bits) / 8) 0 ++ Octets.bigEndian width magnitude

/-- The unscaled integer of a decimal in the size of a fixed type. -/
def prepareFixedDecimal (number : Decimal) (schema : Json) : Outcome Bytes := do
  let scale := (schema.get? "scale").getD (.int 0)
  let size ← Schema.attributeOf schema "size"
  let precision ← Schema.attributeOf schema "precision"
  let (count, exponent) := digitsOf number
  if ← exceeds count precision then throw .decimalTooLong
  match number, exponent with
  | .finite negative digits _, some exponent =>
    let places : Int ← match Schema.integer? scale, scale with
      | some places, _ => pure places
      | none, .float places =>
        if shiftSign exponent places == .lt then throw .decimalScaleMismatch
        else if shiftSign exponent places == .eq then pure (-exponent)
        else throw (.wrongType [])
      | none, _ => throw (.wrongType [])
    if exponent + places < 0 then throw .decimalScaleMismatch
    match Schema.integer? size with
    | some width =>
      if width < 0 then throw (.wrongType [])
      let magnitude := digits * Nat.pow 10 (exponent + places).toNat
      let bits := Octets.bitLength magnitude + 1
      return if negative then fixedNegative width.toNat bits magnitude
        else fixedPositive width.toNat bits magnitude
    | none => throw (.wrongType [])
  | _, _ => throw (.wrongType [])

def precisionOf (schema : Json) : Outcome Nat := do
  match Schema.integer? (← Schema.attributeOf schema "precision") with
  | some value =>
    if value ≥ Nat.pow 2 63 || value < -(Nat.pow 2 63) then throw .overflow
    else if 1 ≤ value && value ≤ 999999999999999999 then return value.toNat
    else throw .invalid
  | none => throw (.wrongType [])

def bytesOfItems : List Datum → Outcome Bytes
  | [] => .ok []
  | item :: rest => do
    let value ← match item with
      | .int value => if 0 ≤ value && value < 256 then pure value else throw .invalid
      | .bool value => pure (if value then 1 else 0)
      | _ => throw (.wrongType [])
    return UInt8.ofNat value.toNat :: (← bytesOfItems rest)

def numberBytes : Datum → Outcome Bytes
  | .bytes content => .ok content
  | .buffer content => .ok content
  | .list items => bytesOfItems items
  | .tuple items => bytesOfItems items
  | _ => .error (.wrongType [])

def ofFault {α : Type} : Except Decimal.Fault α → Outcome α
  | .ok value => .ok value
  | .error .overflow => .error .decimalOverflow
  | .error .invalidShift => .error .invalidDecimal

/-- The decimal that bytes stand for: an integer, rounded to the precision, whose point is then
moved by the scale. -/
def readDecimal (datum : Datum) (schema : Json) : Outcome Datum := do
  let scale := (schema.get? "scale").getD (.int 0)
  let _ ← Schema.attributeOf schema "precision"
  let bytes ← numberBytes datum
  let precision ← precisionOf schema
  let number ← ofFault (Decimal.ofInt precision (Octets.ofTwosComplement bytes))
  match Schema.integer? scale with
  | some places => return .decimal (← ofFault (number.shift precision (-places)))
  | none => throw (.wrongType [])

/-! ### Times -/

/-- A number of microseconds or milliseconds that has been read: an integer, or a floating-point
number. -/
inductive Count where
  | whole (value : Int)
  | real (value : Double)

def countOf : Datum → Outcome Count
  | .int value => .ok (.whole value)
  | .bool value => .ok (.whole (if value then 1 else 0))
  | .float value => .ok (.real value)
  | _ => .error (.wrongType [])

def readTimestamp (factor : Nat) (datum : Datum) : Outcome Datum := do
  let micros : Int ← match ← countOf datum with
    | .whole value => pure (value * factor)
    | .real value =>
      if value.isNaN then throw .invalid
      else if value.isInfinite then throw .overflow
      else
        let product := value.mul ((Double.ofInt? factor).getD default)
        if product.isInfinite then throw .overflow
        let magnitude := roundHalfEven product.ratio.1 product.ratio.2
        pure (if product.negative then -(magnitude : Int) else magnitude)
  match DateTime.ofMicrosSinceEpoch? micros with
  | some moment => return .dateTime moment
  | none => throw .overflow

def fitsInt32 (value : Int) : Bool := -(Nat.pow 2 31) ≤ value && value < Nat.pow 2 31

def readDate (datum : Datum) : Outcome Datum := do
  match ← countOf datum with
  | .real _ => throw (.wrongType [])
  | .whole days =>
    let ordinal := days + Calendar.epochOrdinal
    if !fitsInt32 ordinal then throw .overflow
    else if 1 ≤ ordinal && ordinal ≤ Calendar.lastOrdinal then
      return .date (Date.ofOrdinal ordinal.toNat)
    else throw .invalid

/-- The quotient as a floating-point number, then cut off toward zero. -/
def truncatedQuotient (count : Count) (divisor : Nat) : Outcome Int :=
  match count with
  | .whole value =>
    let quotient := Double.ofFraction value divisor
    if quotient.isInfinite then .error .overflow else .ok quotient.truncate
  | .real value =>
    if value.isNaN then .error .invalid
    else if value.isInfinite then .error .overflow
    else .ok (value.div ((Double.ofInt? divisor).getD default)).truncate

def timeOfParts (hour minute second micros : Int) : Outcome Datum :=
  if !fitsInt32 hour || !fitsInt32 micros then .error .overflow
  else if 0 ≤ hour && hour < 24 && 0 ≤ micros && micros < 1000000 then
    .ok (.time ⟨hour.toNat, minute.toNat, second.toNat, micros.toNat⟩ none)
  else .error .invalid

def truncatedRemainder (value : Double) (divisor : Nat) : Int :=
  let (num, den) := value.signedRatio
  (Double.ofFraction (Int.fmod num (den * divisor)) den).truncate

/-- The time of day from its milliseconds. Each part is a quotient that is cut off toward zero, then
reduced. -/
def readTimeMillis (datum : Datum) : Outcome Datum := do
  let count ← countOf datum
  let hour ← truncatedQuotient count 3600000
  let minute ← truncatedQuotient count 60000
  let second ← truncatedQuotient count 1000
  let millis := match count with
    | .whole value => Int.fmod value 1000
    | .real value => truncatedRemainder value 1000
  timeOfParts hour (Int.fmod minute 60) (Int.fmod second 60) (millis * 1000)

def readTimeMicros (datum : Datum) : Outcome Datum := do
  let count ← countOf datum
  let hour ← truncatedQuotient count 3600000000
  let minute ← truncatedQuotient count 60000000
  let second ← truncatedQuotient count 1000000
  match count with
  | .whole value =>
    timeOfParts hour (Int.fmod minute 60) (Int.fmod second 60) (Int.fmod value 1000000)
  | .real _ => throw (if fitsInt32 hour then .wrongType [] else .overflow)

/-- Seconds and microseconds from the start of 1970. A moment with an offset is compared with the
start of 1970 in universal time; one without goes by the local clock. -/
def instantOf (moment : DateTime) : Int × Nat :=
  match moment.offset with
  | some offset =>
    let span := moment.sinceEpoch offset
    (span.days * 24 * 3600 + span.seconds, span.microseconds)
  | none => (moment.localSeconds, moment.time.microsecond)

/-- The milliseconds of a second: a floating-point quotient, cut off toward zero. -/
def millisOf (microseconds : Nat) : Int := (Double.ofFraction microseconds 1000).truncate

/-! ### Identifiers -/

/-- Removes every occurrence of a word from a text, where `skip` characters of an occurrence are
still to be left out. -/
def removeWord (word : List Char) : Nat → List Char → List Char
  | _, [] => []
  | skip + 1, _ :: rest => removeWord word skip rest
  | 0, character :: rest =>
    if word.isPrefixOf (character :: rest) then removeWord word (word.length - 1) rest
    else character :: removeWord word 0 rest

def hexNumber? (digits : List Char) : Option Nat :=
  digits.foldlM (fun value digit => (Text.hexValue? digit).map fun unit => value * 16 + unit) 0

/-- The identifier that a text stands for: words in front, braces around and hyphens within are left
out, and 32 hexadecimal digits have to remain. -/
def uuidOfText? (text : String) : Option Nat :=
  let bare := removeWord "uuid:".toList 0 (removeWord "urn:".toList 0 text.toList)
  let isBrace := fun character => character == '\x7b' || character == '\x7d'
  let stripped := ((bare.dropWhile isBrace).reverse.dropWhile isBrace).reverse
  let digits := stripped.filter (· != '-')
  if digits.length = 32 then hexNumber? digits else none

def readUuid : Datum → Outcome Datum
  | .str text =>
    match uuidOfText? text with
    | some value => .ok (.uuid value)
    | none => .error .invalid
  | .null => .error (.wrongType [])
  | .bytes _ => .error (.wrongType [])
  | .buffer _ => .error (.wrongType [])
  | _ => .error .unsupported

/-! ### Both directions -/

/-- Converts a value to the underlying type before it is written. -/
def prepare (logical : Logical) (datum : Datum) (schema : Json) : Outcome Datum :=
  match logical, datum with
  | timestampMillis, .dateTime moment =>
    let (seconds, microseconds) := instantOf moment
    .ok (.int (seconds * 1000 + millisOf microseconds))
  | timestampMicros, .dateTime moment =>
    let (seconds, microseconds) := instantOf moment
    .ok (.int (seconds * 1000000 + microseconds))
  | date, .date day => .ok (.int day.daysSinceEpoch)
  | date, .dateTime moment => .ok (.int moment.date.daysSinceEpoch)
  | date, .str text =>
    match Date.parse? text with
    | some day => .ok (.int day.daysSinceEpoch)
    | none => .error .invalid
  | bytesDecimal, .decimal number => do return .bytes (← prepareBytesDecimal number schema)
  | fixedDecimal, .decimal number => do return .bytes (← prepareFixedDecimal number schema)
  | uuid, .uuid value => .ok (.str (Datum.uuidText value))
  | timeMillis, .time time _ =>
    .ok (.int (time.hour * 3600000 + time.minute * 60000 + time.second * 1000 +
      millisOf time.microsecond))
  | timeMicros, .time time _ =>
    .ok (.int (time.hour * 3600000000 + time.minute * 60000000 + time.second * 1000000 +
      time.microsecond))
  | _, datum => .ok datum

/-- Converts a value of the underlying type after it has been read. -/
def restore (logical : Logical) (datum : Datum) (schema : Json) : Outcome Datum :=
  match logical with
  | timestampMillis => readTimestamp 1000 datum
  | timestampMicros => readTimestamp 1 datum
  | date => readDate datum
  | bytesDecimal => readDecimal datum schema
  | fixedDecimal => readDecimal datum schema
  | uuid => readUuid datum
  | timeMillis => readTimeMillis datum
  | timeMicros => readTimeMicros datum

def prepareFor (schema : Json) (datum : Datum) : Outcome Datum := do
  match ← ofSchema schema with
  | some logical => prepare logical datum schema
  | none => return datum

end Logical

end Avro
