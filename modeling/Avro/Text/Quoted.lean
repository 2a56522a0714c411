import Avro.Text.Printable

/-!
Contract: quoted text, as it stands inside messages.

Owns: the choice of quotation mark, the escapes of strings and byte strings, and hexadecimal digits.
-/

namespace Avro.Text

def hexDigit (value : Nat) : Char := Nat.digitChar (value % 16)

def hexDigits (width value : Nat) : List Char :=
  match width with
  | 0 => []
  | rest + 1 => hexDigits rest (value / 16) ++ [hexDigit value]

/-- Single quotation marks, unless the text holds one and no double mark. -/
def quotationMark (text : List Char) : Char :=
  if text.contains '\'' && !text.contains '"' then '"' else '\''

def escapeCharacter (mark character : Char) : List Char :=
  if character == mark || character == '\\' then ['\\', character]
  else if character == '\n' then ['\\', 'n']
  else if character == '\r' then ['\\', 'r']
  else if character == '\t' then ['\\', 't']
  else if isPrintable character then [character]
  else if character.toNat ≤ 0xff then '\\' :: 'x' :: hexDigits 2 character.toNat
  else if character.toNat ≤ 0xffff then '\\' :: 'u' :: hexDigits 4 character.toNat
  else '\\' :: 'U' :: hexDigits 8 character.toNat

def quoted (text : String) : String :=
  let mark := quotationMark text.toList
  String.ofList (mark :: text.toList.flatMap (escapeCharacter mark) ++ [mark])

def escapeByte (mark : Char) (byte : UInt8) : List Char :=
  let character := Char.ofNat byte.toNat
  if byte.toNat < 0x7f then escapeCharacter mark character
  else '\\' :: 'x' :: hexDigits 2 byte.toNat

/-- A byte string between quotation marks, marked with a leading `b`. -/
def quotedBytes (bytes : List UInt8) : String :=
  let mark := quotationMark (bytes.map fun byte => Char.ofNat byte.toNat)
  String.ofList ('b' :: mark :: bytes.flatMap (escapeByte mark) ++ [mark])

/-- Two lower-case hexadecimal digits a byte. -/
def hexOfBytes (bytes : List UInt8) : String :=
  String.ofList (bytes.flatMap fun byte => hexDigits 2 byte.toNat)

def occursIn (word : List Char) : List Char → Bool
  | [] => word.isEmpty
  | text@(_ :: rest) => word.isPrefixOf text || occursIn word rest

def hexValue? (character : Char) : Option Nat :=
  if '0' ≤ character && character ≤ '9' then some (character.toNat - '0'.toNat)
  else if 'a' ≤ character && character ≤ 'f' then some (character.toNat - 'a'.toNat + 10)
  else if 'A' ≤ character && character ≤ 'F' then some (character.toNat - 'A'.toNat + 10)
  else none

def bytesOfHex? : List Char → Option (List UInt8)
  | [] => some []
  | [_] => none
  | high :: low :: rest => do
    let highValue ← hexValue? high
    let lowValue ← hexValue? low
    let bytes ← bytesOfHex? rest
    pure (UInt8.ofNat (16 * highValue + lowValue) :: bytes)

end Avro.Text
