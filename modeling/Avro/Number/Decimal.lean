import Avro.Number.Shortest

/-!
Contract: decimal numbers of arbitrary precision.

Owns: the number type, rounding to a precision within the exponent limits, shifting of the decimal
point, and the text of a number.
-/

namespace Avro

/-- A decimal number `± digits * 10 ^ exponent`, or one of the values without digits. -/
inductive Decimal where
  | finite (negative : Bool) (digits : Nat) (exponent : Int)
  | infinite (negative : Bool)
  | nan (negative signalling : Bool) (payload : String)
deriving DecidableEq, Repr, Inhabited

def digitCount (value : Nat) : Nat := (Nat.toDigits 10 value).length

namespace Decimal

/-- The greatest exponent that the first digit of a result may have, and minus the least. -/
def exponentLimit : Int := 999999

/-- What may happen when a result is fitted to a precision. -/
inductive Fault where
  | overflow
  | invalidShift
deriving DecidableEq, Repr

/-- The coefficient of `digits * 10 ^ exponent` on the coarser grid `10 ^ place`, a half going to
even. -/
def coarsen (digits : Nat) (exponent place : Int) : Nat :=
  roundHalfEven digits (Nat.pow 10 (place - exponent).toNat)

/-- Fits a finite number to `precision` digits and to the exponent limits. -/
def fit (precision : Nat) (negative : Bool) (digits : Nat) (exponent : Int) :
    Except Fault Decimal :=
  let tiny := -exponentLimit - (precision - 1)
  if digits = 0 then .ok (.finite negative 0 (min (max exponent tiny) exponentLimit))
  else
    let place := digitCount digits + exponent - precision
    if place > exponentLimit - (precision - 1) then .error .overflow
    else
      let place := max place tiny
      if exponent < place then
        let coefficient := coarsen digits exponent place
        if digitCount coefficient > precision then
          if place + 1 > exponentLimit - (precision - 1) then .error .overflow
          else .ok (.finite negative (coefficient / 10) (place + 1))
        else .ok (.finite negative coefficient place)
      else .ok (.finite negative digits exponent)

def ofInt (precision : Nat) (value : Int) : Except Fault Decimal :=
  fit precision (decide (value < 0)) value.natAbs 0

def shift (precision : Nat) (number : Decimal) (places : Int) : Except Fault Decimal :=
  if places.natAbs > 2 * (exponentLimit.toNat + precision) then .error .invalidShift
  else
    match number with
    | .finite negative digits exponent => fit precision negative digits (exponent + places)
    | other => .ok other

/-- The text of a number: positional if the exponent is not positive and at most six zeros would
follow the point, else with an exponent. -/
def text : Decimal → String
  | .infinite negative => (if negative then "-" else "") ++ "Infinity"
  | .nan negative signalling payload =>
    (if negative then "-" else "") ++ (if signalling then "sNaN" else "NaN") ++ payload
  | .finite negative digits exponent =>
    let sign := if negative then "-" else ""
    let characters := Nat.toDigits 10 digits
    let left : Int := exponent + characters.length
    let point : Int := if exponent ≤ 0 && left > -6 then left else 1
    let body :=
      if point ≤ 0 then "0." ++ String.ofList (List.replicate (-point).toNat '0' ++ characters)
      else
        let whole := characters.take point.toNat
        let fraction := characters.drop point.toNat
        String.ofList whole ++ (if fraction.isEmpty then "" else "." ++ String.ofList fraction)
    let power :=
      if left = point then ""
      else "E" ++ (if left - point < 0 then "-" else "+") ++ decimalDigits (left - point).natAbs
    sign ++ body ++ power

end Decimal

end Avro
