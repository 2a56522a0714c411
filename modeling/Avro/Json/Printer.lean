import Avro.Json.Basic
import Avro.Number.Shortest
import Avro.Text.Quoted

/-!
Contract: documents to JSON text.

Owns: the layouts in which this library writes JSON: one line with a blank after commas and colons,
or indented lines; with characters beyond ASCII escaped or written as themselves.
-/

namespace Avro.Json

structure Layout where
  /-- Characters beyond ASCII are escaped as UTF-16 code units. -/
  asciiOnly : Bool
  /-- Blanks by which each level is indented; one line if absent. -/
  indent : Option Nat

/-- One line, ASCII only: the layout of written headers and of JSON-encoded values. -/
def Layout.line : Layout := ⟨true, none⟩

def numberTexts : Double.SpecialTexts := ⟨"NaN", "Infinity"⟩

/-- The UTF-16 code units of a character, as escapes. -/
def unicodeEscape (character : Char) : List Char :=
  let code := character.toNat
  if code < 0x10000 then '\\' :: 'u' :: Text.hexDigits 4 code
  else
    let offset := code - 0x10000
    '\\' :: 'u' :: Text.hexDigits 4 (0xd800 + offset / 0x400)
      ++ '\\' :: 'u' :: Text.hexDigits 4 (0xdc00 + offset % 0x400)

def escapeCharacter (asciiOnly : Bool) (character : Char) : List Char :=
  if character == '"' then ['\\', '"']
  else if character == '\\' then ['\\', '\\']
  else if character == '\n' then ['\\', 'n']
  else if character == '\r' then ['\\', 'r']
  else if character == '\t' then ['\\', 't']
  else if character.toNat == 8 then ['\\', 'b']
  else if character.toNat == 12 then ['\\', 'f']
  else if character.toNat < 0x20 then unicodeEscape character
  else if asciiOnly && character.toNat > 0x7e then unicodeEscape character
  else [character]

def stringText (asciiOnly : Bool) (text : String) : String :=
  String.ofList ('"' :: text.toList.flatMap (escapeCharacter asciiOnly) ++ ['"'])

def Layout.enclose (layout : Layout) (level : Nat) (opening closing : String)
    (parts : List String) : String :=
  if parts.isEmpty then opening ++ closing else
    match layout.indent with
    | none => opening ++ String.intercalate ", " parts ++ closing
    | some width =>
      let outer := "\n" ++ String.ofList (List.replicate (width * level) ' ')
      let inner := "\n" ++ String.ofList (List.replicate (width * (level + 1)) ' ')
      opening ++ inner ++ String.intercalate ("," ++ inner) parts ++ outer ++ closing

mutual

def render (layout : Layout) (level : Nat) : Json → String
  | .null => "null"
  | .bool true => "true"
  | .bool false => "false"
  | .int value => integerText value
  | .float value => value.text numberTexts
  | .str text => stringText layout.asciiOnly text
  | .arr items => layout.enclose level "[" "]" (renderItems layout (level + 1) items)
  | .obj members => layout.enclose level "\x7b" "\x7d" (renderMembers layout (level + 1) members)

def renderItems (layout : Layout) (level : Nat) : List Json → List String
  | [] => []
  | item :: rest => render layout level item :: renderItems layout level rest

def renderMembers (layout : Layout) (level : Nat) : List (String × Json) → List String
  | [] => []
  | (key, value) :: rest =>
    (stringText layout.asciiOnly key ++ ": " ++ render layout level value) ::
    renderMembers layout level rest

end

def print (layout : Layout) (document : Json) : String := render layout 0 document

end Avro.Json
