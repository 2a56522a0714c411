import Avro.Schema.Parse

/-!
Contract: replacement of the first reference to a type by its definition.

Owns: `Schema.inject`, which searches a schema in document order. References before the one that is
replaced get their namespace written out; what follows it stays as it is.
-/

namespace Avro.Schema

/-- A schema after a search, and whether the definition has found its place. -/
abbrev Injection := Json × Bool

def injectReference (inner space reference : Json) : Outcome Injection := do
  if ← isPrimitive reference then return (reference, false)
  let name ← qualifyReference reference space
  let target ← attributeOf inner "name"
  if name.same target then return (inner, true) else return (name, false)

def injectRecord (members : List (String × Json)) (searchFields : Json → Outcome (List Json × Bool))
    (space : Json) : Outcome Injection := do
  let (own, _) ← qualifiedName (.obj members) space
  let (fields, found) ← searchFields own
  return (.obj (if fields.isEmpty then members else Members.set members "fields" (.arr fields)),
    found)

mutual

def injectNode (inner space : Json) : Json → Outcome Injection
  | .arr branches => do
    let (searched, found) ← injectBranches inner space branches
    return (.arr searched, found)
  | .obj members => do
    let type ← required members "type"
    match type with
    | .str "array" =>
      let (items, found) ← injectUnder inner space "items" members
      return (.obj (Members.set members "items" items), found)
    | .str "map" =>
      let (values, found) ← injectUnder inner space "values" members
      return (.obj (Members.set members "values" values), found)
    | .str "enum" => return (.obj members, false)
    | .str "fixed" => return (.obj members, false)
    | .str "record" => injectRecord members (fun own => injectFieldsIn inner own members) space
    | .str "error" => injectRecord members (fun own => injectFieldsIn inner own members) space
    | _ => if ← isPrimitive type then return (.obj members, false) else throw .unsearchable
  | reference => injectReference inner space reference
termination_by structural node => node

/-- Searches the branches of a union up to the first one that holds the reference. -/
def injectBranches (inner space : Json) : List Json → Outcome (List Json × Bool)
  | [] => .ok ([], false)
  | branch :: rest => do
    let (searched, found) ← injectNode inner space branch
    if found then return (searched :: rest, true)
    let (others, foundLater) ← injectBranches inner space rest
    return (searched :: others, foundLater)
termination_by structural branches => branches

def injectUnder (inner space : Json) (key : String) : List (String × Json) → Outcome Injection
  | [] => .error .missingKey
  | (name, node) :: rest =>
    if name = key then injectNode inner space node else injectUnder inner space key rest
termination_by structural members => members

def injectFieldsIn (inner space : Json) : List (String × Json) → Outcome (List Json × Bool)
  | [] => .ok ([], false)
  | (name, value) :: rest =>
    if name = "fields" then
      match value with
      | .arr fields => injectFields inner space fields
      | .str text => if text.isEmpty then .ok ([], false) else .error (.wrongType [])
      | .obj members => if members.isEmpty then .ok ([], false) else .error (.wrongType [])
      | _ => .error (.wrongType [])
    else injectFieldsIn inner space rest
termination_by structural members => members

def injectFields (inner space : Json) : List Json → Outcome (List Json × Bool)
  | [] => .ok ([], false)
  | field :: rest => do
    let (searched, found) ← injectField inner space field
    if found then return (searched :: rest, true)
    let (others, foundLater) ← injectFields inner space rest
    return (searched :: others, foundLater)
termination_by structural fields => fields

def injectField (inner space : Json) : Json → Outcome Injection
  | .obj members => do
    let (type, found) ← injectUnder inner space "type" members
    return (.obj (Members.set members "type" type), found)
  | _ => .error (.wrongType [])
termination_by structural field => field

end

/-- Replaces the first reference to a definition, unless that has been done before. -/
def inject (outer inner space : Json) (done : Bool) : Outcome Injection :=
  if done then .ok (outer, true) else injectNode inner space outer

mutual

/-- What a holder of the schema sees after a search. Objects are changed in place; the list of
branches at the top is not, so that a branch that is a plain reference stays. -/
def inPlace : Json → Json → Json
  | .arr branches, .arr searched => .arr (inPlaceBranches branches searched)
  | .obj _, searched => searched
  | outer, _ => outer

def inPlaceBranches : List Json → List Json → List Json
  | branch :: rest, searched :: others => inPlace branch searched :: inPlaceBranches rest others
  | branches, _ => branches

end

end Avro.Schema
