import Avro.Json.Basic
import Avro.Number.Shortest
import Avro.Text.Quoted

/-!
Contract: JSON text to documents.

Owns: `Json.parse?`, which accepts the grammar of the standard and, beyond it, the words `NaN`,
`Infinity` and `-Infinity`. Of a repeated key the first position and the last value are kept. A
number is an integer unless it has a fraction or an exponent.

The recursion is bounded by the length of the text: every call consumes a character.
-/

namespace Avro.Json

def isBlank (character : Char) : Bool :=
  character == ' ' || character == '\t' || character == '\n' || character == '\r'

def skipBlank (text : List Char) : List Char := text.dropWhile isBlank

def isDigit (character : Char) : Bool := '0' ≤ character && character ≤ '9'

def digitsValue (digits : List Char) : Nat :=
  digits.foldl (fun value digit => value * 10 + (digit.toNat - '0'.toNat)) 0

def codeUnit? (a b c d : Char) : Option Nat := do
  let first ← Text.hexValue? a
  let second ← Text.hexValue? b
  let third ← Text.hexValue? c
  let fourth ← Text.hexValue? d
  pure (((first * 16 + second) * 16 + third) * 16 + fourth)

def isHighSurrogate (unit : Nat) : Bool := 0xd800 ≤ unit && unit < 0xdc00

def isLowSurrogate (unit : Nat) : Bool := 0xdc00 ≤ unit && unit < 0xe000

/-- The character of a code unit; a surrogate that stands alone has none and is replaced. -/
def unitCharacter (unit : Nat) : Char :=
  if 0xd800 ≤ unit && unit < 0xe000 then Char.ofNat 0xfffd else Char.ofNat unit

def simpleEscape? : Char → Option Char
  | '"' => some '"'
  | '\\' => some '\\'
  | '/' => some '/'
  | 'b' => some (Char.ofNat 8)
  | 'f' => some (Char.ofNat 12)
  | 'n' => some '\n'
  | 'r' => some '\r'
  | 't' => some '\t'
  | _ => none

/-- Reads a string after its opening quotation mark. The characters read so far are given in
reverse. -/
def parseString (done : List Char) : List Char → Option (String × List Char)
  | [] => none
  | '"' :: rest => some (String.ofList done.reverse, rest)
  | '\\' :: 'u' :: a :: b :: c :: d :: '\\' :: 'u' :: e :: f :: g :: h :: rest =>
    match codeUnit? a b c d with
    | none => none
    | some high =>
      if isHighSurrogate high then
        match codeUnit? e f g h with
        | none => none
        | some low =>
          if isLowSurrogate low then
            parseString (Char.ofNat (0x10000 + (high - 0xd800) * 0x400 + (low - 0xdc00)) :: done)
              rest
          else parseString (unitCharacter high :: done) ('\\' :: 'u' :: e :: f :: g :: h :: rest)
      else parseString (unitCharacter high :: done) ('\\' :: 'u' :: e :: f :: g :: h :: rest)
  | '\\' :: 'u' :: a :: b :: c :: d :: rest =>
    match codeUnit? a b c d with
    | none => none
    | some unit => parseString (unitCharacter unit :: done) rest
  | '\\' :: escape :: rest =>
    match simpleEscape? escape with
    | none => none
    | some character => parseString (character :: done) rest
  | character :: rest =>
    if character.toNat < 0x20 || character == '\\' then none
    else parseString (character :: done) rest

def parseExponent (text : List Char) : Option (Int × List Char) :=
  match text with
  | mark :: rest =>
    if mark == 'e' || mark == 'E' then
      let (negative, digits) := match rest with
        | '-' :: tail => (true, tail)
        | '+' :: tail => (false, tail)
        | tail => (false, tail)
      let run := digits.takeWhile isDigit
      if run.isEmpty then none
      else
        let magnitude : Int := digitsValue run
        some (if negative then -magnitude else magnitude, digits.dropWhile isDigit)
    else none
  | [] => none

def parseFraction (text : List Char) : Option (List Char × List Char) :=
  match text with
  | '.' :: rest =>
    let run := rest.takeWhile isDigit
    if run.isEmpty then none else some (run, rest.dropWhile isDigit)
  | _ => none

def parseNumber (negative : Bool) (text : List Char) : Option (Json × List Char) :=
  let run := text.takeWhile isDigit
  let whole := match run with
    | '0' :: _ => ['0']
    | _ => run
  let rest := text.drop whole.length
  if whole.isEmpty then none else
    let fraction := parseFraction rest
    let afterFraction := match fraction with
      | some (_, tail) => tail
      | none => rest
    let exponent := parseExponent afterFraction
    match fraction, exponent with
    | none, none =>
      let magnitude : Int := digitsValue whole
      some (.int (if negative then -magnitude else magnitude), rest)
    | _, _ =>
      let places := match fraction with
        | some (digits, _) => digits
        | none => []
      let power := match exponent with
        | some (value, _) => value
        | none => 0
      let tail := match exponent with
        | some (_, remaining) => remaining
        | none => afterFraction
      some (.float (Double.ofDecimal negative (digitsValue (whole ++ places))
        (power - places.length)), tail)

def expectWord (word : List Char) (text : List Char) : Option (List Char) :=
  if word.isPrefixOf text then some (text.drop word.length) else none

mutual

def parseValue : Nat → List Char → Option (Json × List Char)
  | 0, _ => none
  | fuel + 1, text =>
    match text with
    | [] => none
    | '"' :: rest => (parseString [] rest).map fun (value, tail) => (.str value, tail)
    | '\x7b' :: rest =>
      match skipBlank rest with
      | '\x7d' :: tail => some (.obj [], tail)
      | tail => parseMembers fuel [] tail
    | '[' :: rest =>
      match skipBlank rest with
      | ']' :: tail => some (.arr [], tail)
      | tail => parseItems fuel [] tail
    | '-' :: rest =>
      match expectWord "Infinity".toList rest with
      | some tail => some (.float (Double.infinity true), tail)
      | none => parseNumber true rest
    | 'n' :: rest => (expectWord "ull".toList rest).map fun tail => (.null, tail)
    | 't' :: rest => (expectWord "rue".toList rest).map fun tail => (.bool true, tail)
    | 'f' :: rest => (expectWord "alse".toList rest).map fun tail => (.bool false, tail)
    | 'N' :: rest => (expectWord "aN".toList rest).map fun tail => (.float Double.nan, tail)
    | 'I' :: rest =>
      (expectWord "nfinity".toList rest).map fun tail => (.float (Double.infinity false), tail)
    | _ => parseNumber false text

/-- Reads the items of an array up to its closing bracket; the items read so far are given in
reverse. -/
def parseItems : Nat → List Json → List Char → Option (Json × List Char)
  | 0, _, _ => none
  | fuel + 1, done, text =>
    match parseValue fuel text with
    | none => none
    | some (item, rest) =>
      match skipBlank rest with
      | ']' :: tail => some (.arr (item :: done).reverse, tail)
      | ',' :: tail => parseItems fuel (item :: done) (skipBlank tail)
      | _ => none

def parseMembers : Nat → List (String × Json) → List Char → Option (Json × List Char)
  | 0, _, _ => none
  | fuel + 1, done, text =>
    match text with
    | '"' :: rest =>
      match parseString [] rest with
      | none => none
      | some (key, afterKey) =>
        match skipBlank afterKey with
        | ':' :: afterColon =>
          match parseValue fuel (skipBlank afterColon) with
          | none => none
          | some (value, afterValue) =>
            match skipBlank afterValue with
            | '\x7d' :: tail => some (.obj (Members.set done key value), tail)
            | ',' :: tail => parseMembers fuel (Members.set done key value) (skipBlank tail)
            | _ => none
        | _ => none
    | _ => none

end

theorem parseString_quote (done rest : List Char) :
    parseString done ('"' :: rest) = some (String.ofList done.reverse, rest) := by
  rw [parseString]

theorem parseValue_quote (fuel : Nat) (rest : List Char) :
    parseValue (fuel + 1) ('"' :: rest) = (parseString [] rest).map fun (value, tail) =>
      (.str value, tail) := by
  rw [parseValue]

def parse? (text : String) : Option Json :=
  let characters := skipBlank text.toList
  match parseValue (characters.length + 1) characters with
  | some (document, rest) => if (skipBlank rest).isEmpty then some document else none
  | none => none

end Avro.Json
