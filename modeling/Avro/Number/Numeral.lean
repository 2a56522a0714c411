import Avro.Json.Parser
import Avro.Text.Basic

/-!
Contract: floating-point numbers written as texts.

Owns: `Numeral.read?`, the number that a whole text stands for: digits with an optional point and
exponent, or a word for infinity or for no number, after an optional sign. White space around it is
left out, and an underscore may stand between two digits.
-/

namespace Avro.Numeral

/-- Whether every underscore of a text stands between two digits, given the character before the
text. -/
def separatorsFit (before : Char) : List Char → Bool
  | [] => before != '_'
  | '_' :: rest => Json.isDigit before && separatorsFit '_' rest
  | character :: rest => (before != '_' || Json.isDigit character) && separatorsFit character rest

def readDigits? (negative : Bool) (text : List Char) : Option Double :=
  let whole := text.takeWhile Json.isDigit
  let afterWhole := text.dropWhile Json.isDigit
  let (places, afterPlaces) := match afterWhole with
    | '.' :: rest => (rest.takeWhile Json.isDigit, rest.dropWhile Json.isDigit)
    | rest => ([], rest)
  let number (power : Int) : Double :=
    Double.ofDecimal negative (Json.digitsValue (whole ++ places)) (power - places.length)
  if whole.isEmpty && places.isEmpty then none
  else if afterPlaces.isEmpty then some (number 0)
  else
    match Json.parseExponent afterPlaces with
    | some (power, []) => some (number power)
    | _ => none

def readUnsigned? (negative : Bool) (text : List Char) : Option Double :=
  match String.ofList (text.map Char.toLower) with
  | "inf" => some (Double.infinity negative)
  | "infinity" => some (Double.infinity negative)
  | "nan" => some Double.nan
  | _ => readDigits? negative text

def read? (text : String) : Option Double :=
  let characters := (Text.trimmed text).toList
  if separatorsFit ' ' characters then
    match characters.filter (· != '_') with
    | '-' :: rest => readUnsigned? true rest
    | '+' :: rest => readUnsigned? false rest
    | rest => readUnsigned? false rest
  else none

end Avro.Numeral
