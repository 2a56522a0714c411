import Avro.Schema.Parse

/-!
Contract: the canonical form of schemas.

Owns: `Schema.canonicalForm`, a text without blanks that holds only what decides how data is read:
types, full names, fields, symbols and sizes. Schemas with one canonical form have one fingerprint.
-/

namespace Avro.Schema

def inQuotes (text : String) : String := "\"" ++ text ++ "\""

def canonicalEnum (members : List (String × Json)) : Outcome String := do
  let name ← required members "name"
  let symbols ← iterate (← required members "symbols")
  return "\x7b\"name\":" ++ inQuotes name.displayed ++ ",\"type\":\"enum\",\"symbols\":["
    ++ String.intercalate "," (symbols.map fun symbol => inQuotes symbol.displayed) ++ "]\x7d"

def canonicalFixed (members : List (String × Json)) : Outcome String := do
  let name ← required members "name"
  let size ← required members "size"
  return "\x7b\"name\":" ++ inQuotes name.displayed ++ ",\"type\":\"fixed\",\"size\":" ++
    size.displayed ++ "\x7d"

def canonicalRecord (members : List (String × Json)) (fields : Outcome (List String)) :
    Outcome String := do
  let name ← required members "name"
  let fields ← fields
  return "\x7b\"name\":" ++ inQuotes name.displayed ++ ",\"type\":\"record\",\"fields\":["
    ++ String.intercalate "," fields ++ "]\x7d"

mutual

def canonicalNode : Json → Outcome String
  | .arr branches => do return "[" ++ String.intercalate "," (← canonicalBranches branches) ++ "]"
  | .obj members => do
    let type ← required members "type"
    match type with
    | .str "array" =>
      let items ← canonicalUnder "items" members
      return "\x7b\"type\":\"array\",\"items\":" ++ items ++ "\x7d"
    | .str "map" =>
      let values ← canonicalUnder "values" members
      return "\x7b\"type\":\"map\",\"values\":" ++ values ++ "\x7d"
    | .str "enum" => canonicalEnum members
    | .str "fixed" => canonicalFixed members
    | .str "record" => canonicalRecord members (canonicalFieldsIn members)
    | .str "error" => canonicalRecord members (canonicalFieldsIn members)
    | _ => if ← isPrimitive type then return inQuotes type.displayed else return ""
  | reference => .ok (inQuotes reference.displayed)
termination_by structural node => node

def canonicalBranches : List Json → Outcome (List String)
  | [] => .ok []
  | branch :: rest => do
    let text ← canonicalNode branch
    return text :: (← canonicalBranches rest)
termination_by structural branches => branches

def canonicalUnder (key : String) : List (String × Json) → Outcome String
  | [] => .error .missingKey
  | (name, node) :: rest => if name = key then canonicalNode node else canonicalUnder key rest
termination_by structural members => members

def canonicalFieldsIn : List (String × Json) → Outcome (List String)
  | [] => .error .missingKey
  | (name, value) :: rest =>
    if name = "fields" then
      match value with
      | .arr fields => canonicalFields fields
      | .str text => if text.isEmpty then .ok [] else .error (.wrongType [])
      | .obj members => if members.isEmpty then .ok [] else .error (.wrongType [])
      | _ => .error (.wrongType [])
    else canonicalFieldsIn rest
termination_by structural members => members

def canonicalFields : List Json → Outcome (List String)
  | [] => .ok []
  | field :: rest => do
    let text ← canonicalField field
    return text :: (← canonicalFields rest)
termination_by structural fields => fields

def canonicalField : Json → Outcome String
  | .obj members => do
    let name ← required members "name"
    let type ← canonicalUnder "type" members
    return "\x7b\"name\":" ++ inQuotes name.displayed ++ ",\"type\":" ++ type ++ "\x7d"
  | _ => .error (.wrongType [])
termination_by structural field => field

end

def canonicalForm (schema : Json) : Outcome String := do
  let (parsed, _) ← parse {} [] schema
  canonicalNode parsed

end Avro.Schema
