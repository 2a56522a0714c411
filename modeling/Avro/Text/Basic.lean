/-!
Contract: texts, bytes and lines.

Owns: byte strings, and the two character codes that schemas and values use: UTF-8, and the code in
which every byte is the character of the same number; which characters are white space, and the text
between them; and the lines of a text.
-/

namespace Avro

abbrev Bytes := List UInt8

namespace Text

def encodeUtf8 (text : String) : Bytes := text.toUTF8.data.toList

/-- The string that bytes stand for in UTF-8, if they are well formed. -/
def decodeUtf8? (bytes : Bytes) : Option String := String.fromUTF8? ⟨bytes.toArray⟩

def decodeLatin1 (bytes : Bytes) : String :=
  String.ofList (bytes.map fun byte => Char.ofNat byte.toNat)

/-- Each character as the byte of the same number, if all are below 256. -/
def encodeLatin1? (text : String) : Option Bytes :=
  text.toList.mapM fun character =>
    if character.toNat < 256 then some (UInt8.ofNat character.toNat) else none

/-! ### White space -/

def blankRanges : List (Nat × Nat) :=
  [(0x09, 0x0d), (0x1c, 0x20), (0x85, 0x85), (0xa0, 0xa0), (0x1680, 0x1680), (0x2000, 0x200a),
    (0x2028, 0x2029), (0x202f, 0x202f), (0x205f, 0x205f), (0x3000, 0x3000)]

def isBlank (character : Char) : Bool :=
  blankRanges.any fun (first, last) => first ≤ character.toNat && character.toNat ≤ last

def trimmed (text : String) : String :=
  let front := text.toList.dropWhile isBlank
  String.ofList (front.reverse.dropWhile isBlank).reverse

/-- The lines of a text: every line but the last ends with a line feed, and an empty last line does
not count. -/
def lines (text : String) : List String :=
  let parts := text.splitOn "\n"
  if parts.getLast? = some "" then parts.dropLast else parts

end Text

end Avro
