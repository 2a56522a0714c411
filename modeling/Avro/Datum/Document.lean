import Avro.Error

/-!
Contract: values as JSON documents.

Owns: `Datum.document`, the document of a value. Values of classes that JSON does not have are left
to a given conversion; without one they have no document. Keys that are numbers, truth values or
null become texts.
-/

namespace Avro.Datum

def keyText : Datum → Outcome String
  | .str text => .ok text
  | .int value => .ok (integerText value)
  | .float value => .ok (value.text Json.numberTexts)
  | .bool value => .ok (if value then "true" else "false")
  | .null => .ok "null"
  | _ => .error (.wrongType [])

mutual

/-- The document of a value, with a conversion for the classes that JSON does not have. -/
def document (convert : Datum → Option Json) : Datum → Outcome Json
  | .null => .ok .null
  | .bool value => .ok (.bool value)
  | .int value => .ok (.int value)
  | .float value => .ok (.float value)
  | .str text => .ok (.str text)
  | .list items => do return .arr (← documents convert items)
  | .tuple items => do return .arr (← documents convert items)
  | .dict entries => do return .obj (← documentMembers convert entries)
  | datum =>
    match convert datum with
    | some document => .ok document
    | none => .error (.wrongType [])

def documents (convert : Datum → Option Json) : List Datum → Outcome (List Json)
  | [] => .ok []
  | item :: rest => do
    let first ← document convert item
    return first :: (← documents convert rest)

def documentMembers (convert : Datum → Option Json) :
    List (Datum × Datum) → Outcome (List (String × Json))
  | [] => .ok []
  | (key, value) :: rest => do
    let text ← keyText key
    let first ← document convert value
    return (text, first) :: (← documentMembers convert rest)

end

def plainDocument (datum : Datum) : Outcome Json := document (fun _ => none) datum

end Avro.Datum
