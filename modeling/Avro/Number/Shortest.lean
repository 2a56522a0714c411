import Avro.Number.Double

/-!
Contract: decimal text of double-precision numbers.

Owns: the fewest decimal digits that read back as a given number, the layout of those digits as
text, and the number nearest to a decimal.

The digits are found by exact arithmetic: a number stands for the interval of reals that round to
it, and the two neighbours of the number on coarser and coarser decimal grids are tested for
membership.
-/

namespace Avro

def decimalDigits (value : Nat) : String := String.ofList (Nat.toDigits 10 value)

def integerText (value : Int) : String :=
  if value < 0 then "-" ++ decimalDigits value.natAbs else decimalDigits value.natAbs

namespace Double

/-- The number `digits * 10 ^ exponent` of a decimal expansion. -/
structure Decimal10 where
  digits : Nat
  exponent : Int

/-- The least `j ≤ fuel` for which `num * 10 ^ j` reaches `den`. -/
def firstDigitPlace (num den : Nat) : Nat → Nat
  | 0 => 0
  | fuel + 1 => if num ≥ den then 0 else firstDigitPlace (num * 10) den fuel + 1

/-- The greatest `k` with `10 ^ k ≤ num / den`, for a positive ratio above `10 ^ -400`. -/
def floorLog10 (num den : Nat) : Int :=
  if num ≥ den then ((Nat.toDigits 10 (num / den)).length : Int) - 1
  else -(firstDigitPlace num den 400 : Int)

/-- The interval of reals that round to a positive finite number, in units of a quarter of its last
place: numerators of the lower end, the number and the upper end over a common denominator, and
whether the ends belong to the interval. -/
structure Neighbourhood where
  lower : Nat
  centre : Nat
  upper : Nat
  denominator : Nat
  closed : Bool

/-- Below a power of two the numbers are twice as dense, so the lower end is nearer there. -/
def neighbourhood (number : Double) : Neighbourhood :=
  let significand := number.significand
  let below := if number.fraction = 0 && number.exponentField > 1 then 1 else 2
  let unit := number.exponent - 2
  let scale := if unit ≥ 0 then Nat.pow 2 unit.toNat else 1
  { lower := (4 * significand - below) * scale
    centre := 4 * significand * scale
    upper := (4 * significand + 2) * scale
    denominator := if unit ≥ 0 then 1 else Nat.pow 2 (-unit).toNat
    closed := significand % 2 == 0 }

def Neighbourhood.contains (interval : Neighbourhood) (grid : Nat) (place : Int) : Bool :=
  let value := if place ≥ 0 then grid * Nat.pow 10 place.toNat * interval.denominator
    else grid * interval.denominator
  let scale := if place ≥ 0 then 1 else Nat.pow 10 (-place).toNat
  if interval.closed then interval.lower * scale ≤ value && value ≤ interval.upper * scale
  else interval.lower * scale < value && value < interval.upper * scale

/-- The point of the decimal grid `10 ^ place` that represents the interval, if one of the two
neighbours of the centre lies in it. Of two the nearer is taken, of two equally near the even
one. -/
def Neighbourhood.pointOn (interval : Neighbourhood) (place : Int) : Option Nat :=
  let num := if place ≥ 0 then interval.centre else interval.centre * Nat.pow 10 (-place).toNat
  let den := if place ≥ 0 then interval.denominator * Nat.pow 10 place.toNat
    else interval.denominator
  let below := num / den
  match interval.contains below place && below != 0, interval.contains (below + 1) place with
  | true, true => some (roundHalfEven num den)
  | true, false => some below
  | false, true => some (below + 1)
  | false, false => none

/-- Searches the grids of `count`, `count + 1`, … digits, whose leading digit stands at `lead`. -/
def searchGrids (interval : Neighbourhood) (lead : Int) (count : Nat) : Nat → Decimal10
  | 0 => ⟨0, 0⟩
  | fuel + 1 =>
    let place := lead - count + 1
    match interval.pointOn place with
    | some grid => ⟨grid, place⟩
    | none => searchGrids interval lead (count + 1) fuel

/-- The fewest digits that read back as a positive finite number. Seventeen always suffice. -/
def shortest (number : Double) : Decimal10 :=
  searchGrids number.neighbourhood (floorLog10 number.ratio.1 number.ratio.2) 1 17

/-- The digits of a decimal without trailing zeros, and the power of ten of the first of them. -/
def Decimal10.normalised (decimal : Decimal10) : List Char × Int :=
  let digits := Nat.toDigits 10 decimal.digits
  let kept := (digits.reverse.dropWhile (· == '0')).reverse
  (kept, decimal.exponent + digits.length - 1)

structure SpecialTexts where
  nan : String
  infinity : String

/-- Digits are written positionally from `1e-4` up to but not including `1e16`, with at least one
digit after the point; beyond, with a signed exponent of at least two digits. -/
def layout (digits : List Char) (lead : Int) : String :=
  if -4 ≤ lead && lead < 16 then
    if lead < 0 then "0." ++ String.ofList (List.replicate (-lead - 1).toNat '0' ++ digits)
    else
      let whole := digits.take (lead.toNat + 1)
      let tail := digits.drop (lead.toNat + 1)
      String.ofList (whole ++ List.replicate (lead.toNat + 1 - whole.length) '0') ++ "."
        ++ (if tail.isEmpty then "0" else String.ofList tail)
  else
    let mantissa := match digits with
      | [] => "0"
      | [digit] => String.ofList [digit]
      | digit :: rest => String.ofList (digit :: '.' :: rest)
    let power := decimalDigits lead.natAbs
    mantissa ++ (if lead < 0 then "e-" else "e+") ++
    (if power.length < 2 then "0" ++ power else power)

def text (special : SpecialTexts) (number : Double) : String :=
  if number.isNaN then special.nan
  else
    let sign := if number.negative then "-" else ""
    if number.isInfinite then sign ++ special.infinity
    else if number.isZero then sign ++ "0.0"
    else
      let (digits, lead) := number.shortest.normalised
      sign ++ layout digits lead

/-- The number nearest to `± digits * 10 ^ exponent`. Exponents far outside the format are cut off
first, since their outcome is known. -/
def ofDecimal (negative : Bool) (digits : Nat) (exponent : Int) : Double :=
  let lead := exponent + (Nat.toDigits 10 digits).length
  if digits = 0 || lead < -400 then ofMagnitude negative 0
  else if lead > 400 then infinity negative
  else if exponent ≥ 0 then ofRatio negative (digits * Nat.pow 10 exponent.toNat) 1
  else ofRatio negative digits (Nat.pow 10 (-exponent).toNat)

end Double

end Avro
