import Avro.Datum.Document

/-!
Contract: values as the command prints them.

Owns: the text of a value as JSON, in which dates, decimals, identifiers and bytes are texts. The
text is printed part by part, so that what stands before a value without a text is printed even so.
-/

namespace Avro.Command

/-- A step of printing, which keeps what it has printed before a failure. -/
abbrev PrintM := EStateM Error String

def print (text : String) : PrintM Unit := modify fun printed => printed ++ text

def cleanText : Datum → Option Json
  | .date value => some (.str value.text)
  | .dateTime value => some (.str (value.text "T"))
  | .decimal value => some (.str value.text)
  | .uuid value => some (.str (Datum.uuidText value))
  | .bytes content => some (.str (Text.decodeLatin1 content))
  | _ => none

def lineStart (layout : Json.Layout) (level : Nat) : String :=
  match layout.indent with
  | none => ""
  | some width => "\n" ++ String.ofList (List.replicate (width * level) ' ')

def separator (layout : Json.Layout) (level : Nat) (isFirst : Bool) : String :=
  if isFirst then lineStart layout level
  else
    match layout.indent with
    | none => ", "
    | some _ => "," ++ lineStart layout level

def printScalar (layout : Json.Layout) (datum : Datum) : PrintM Unit :=
  match datum.document cleanText with
  | .ok document => print (document.print layout)
  | .error error => throw error

mutual

def printValue (layout : Json.Layout) (level : Nat) : Datum → PrintM Unit
  | .list items => printList layout level items
  | .tuple items => printList layout level items
  | .dict entries => do
    if entries.isEmpty then print "\x7b\x7d"
    else
      print "\x7b"
      printEntries layout (level + 1) true entries
      print (lineStart layout level ++ "\x7d")
  | datum => printScalar layout datum

def printList (layout : Json.Layout) (level : Nat) : List Datum → PrintM Unit
  | [] => print "[]"
  | first :: rest => do
    print "["
    print (separator layout (level + 1) true)
    printValue layout (level + 1) first
    printItems layout (level + 1) rest
    print (lineStart layout level ++ "]")

def printItems (layout : Json.Layout) (level : Nat) : List Datum → PrintM Unit
  | [] => pure ()
  | item :: rest => do
    print (separator layout level false)
    printValue layout level item
    printItems layout level rest

def printEntries (layout : Json.Layout) (level : Nat) (isFirst : Bool) :
    List (Datum × Datum) → PrintM Unit
  | [] => pure ()
  | (key, value) :: rest => do
    match key.keyText with
    | .error error => throw error
    | .ok text =>
      print (separator layout level isFirst ++ Json.stringText layout.asciiOnly text ++ ": ")
      printValue layout level value
      printEntries layout level false rest

end

end Avro.Command
