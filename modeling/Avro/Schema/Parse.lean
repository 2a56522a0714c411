import Avro.Schema.Basic

/-!
Contract: parsing of schemas.

Owns: `Schema.parse`, which brings a schema into the form that reading and writing use: names are
full, references are resolved against a registry, attributes without a meaning of their own come
first in their given order. The registry receives every named type as soon as its name is known, so
that a type may refer to itself, and again when its definition is complete. A failure leaves the
registry as it then is.

A record schema given at the top may be marked as parsed. The mark holds the registry, so that the
schema can be used again without parsing.
-/

namespace Avro.Schema

/-- What parsing has met so far: the names defined in this schema, and the registry. -/
structure ParseState where
  defined : List String
  registry : Registry
deriving Repr, Inhabited

abbrev ParseM := EStateM Error ParseState

def ParseM.lift {α : Type} : Outcome α → ParseM α
  | .ok value => pure value
  | .error error => throw error

/-- The attributes that have a meaning of their own. -/
def reservedAttributes : List String :=
  ["type", "name", "namespace", "fields", "items", "size", "symbols", "values", "doc"]

def reservedFieldAttributes : List String := ["type", "name", "doc", "aliases", "default"]

/-- The part of a parsed node that does not depend on its type: other attributes, then type and
documentation. -/
def commonAttributes (members : List (String × Json)) (type : Json) : List (String × Json) :=
  (members.filter fun member => !reservedAttributes.contains member.1) ++ [("type", type)]
    ++ (match Members.get? members "doc" with
      | some doc => [("doc", doc)]
      | none => [])

def commonFieldAttributes (members : List (String × Json)) : List (String × Json) :=
  (members.filter fun member => !reservedFieldAttributes.contains member.1)
    ++ ["doc", "aliases", "default"].filterMap fun key =>
      (Members.get? members key).map fun value => (key, value)

def integer? : Json → Option Int
  | .int value => some value
  | .bool value => some (if value then 1 else 0)
  | _ => none

def log10Of2 : Double := ⟨0x3fd34413509f79ff⟩

/-- The digits of a number of the given bits, sign aside. -/
def digitsOfBits : Option Double → Outcome Int
  | some bits => .ok (log10Of2.mul bits).floor
  | none => .error .overflow

/-- How many decimal digits fit into a two's complement number of the given size in bytes. -/
def digitsFitting : Json → Outcome Int
  | .int size => digitsOfBits (Double.ofInt? (8 * size - 1))
  | .bool size => digitsOfBits (Double.ofInt? (if size then 7 else -1))
  | .float size =>
    if size.isNaN then .error .invalid
    else if size.isInfinite then .error .overflow
    else digitsOfBits (some (((⟨0x4020000000000000⟩ : Double).mul size).sub ⟨0x3ff0000000000000⟩))
  | _ => .error (.wrongType [])

/-- The scale of a decimal has to be a positive integer, if it is given and not zero. -/
def checkScale (scale : Json) : Outcome Unit :=
  if scale.truthy then
    match integer? scale with
    | some value => if value < 0 then .error (.scaleNotPositive scale) else .ok ()
    | none => .error (.scaleNotPositive scale)
  else .ok ()

/-- The precision of a decimal has to be a positive integer, and its digits have to fit into a fixed
size. -/
def checkPrecision (members : List (String × Json)) (type precision : Json) : Outcome Unit :=
  if precision.truthy then
    match integer? precision with
    | none => .error (.precisionNotPositive precision)
    | some digits =>
      if digits ≤ 0 then .error (.precisionNotPositive precision)
      else if type.same (.str "fixed") then do
        let size ← required members "size"
        let fitting ← digitsFitting size
        if digits > fitting then throw (.precisionTooLarge precision size)
      else .ok ()
  else .ok ()

def checkDecimal (members : List (String × Json)) (type : Json) : Outcome Unit :=
  match Members.get? members "logicalType" with
  | some (.str "decimal") => do
    let scale := (Members.get? members "scale").getD .null
    let precision := (Members.get? members "precision").getD .null
    checkScale scale
    checkPrecision members type precision
    match scale.truthy && precision.truthy, integer? scale, integer? precision with
    | true, some places, some digits =>
      if digits < places then throw (.scaleAbovePrecision precision)
    | _, _, _ => pure ()
  | _ => .ok ()

def checkAliases (members : List (String × Json)) : Outcome Unit :=
  match Members.get? members "aliases" with
  | some (.arr _) => .ok ()
  | some aliases => .error (.aliasesNotList aliases)
  | none => .ok ()

def define (name : Json) (members : List (String × Json)) : ParseM String := do
  let key ← ParseM.lift (registryName name)
  let state ← get
  if state.defined.contains key then throw (.redefined name)
  set { state with
    defined := key :: state.defined
    registry := Members.set state.registry key (.obj members) : ParseState }
  return key

def redefine (key : String) (members : List (String × Json)) : ParseM Unit :=
  modify fun state => { state with registry := Members.set state.registry key (.obj members) }

/-- A reference to a named type that is in the registry. In an expanded schema the definition stands
in its place, unless that is not complete yet. -/
def parseReference (expand : Bool) (space reference : Json) : ParseM Json := do
  if ← ParseM.lift (isPrimitive reference) then return reference
  let name ← ParseM.lift (qualifyReference reference space)
  let key ← ParseM.lift (registryName name)
  match Members.get? (← get).registry key with
  | none => throw (.unknownType name)
  | some definition =>
    if expand then
      if ← ParseM.lift (mentions definition "name") then return definition else return name
    else return name

/-- The definition of an enumeration or fixed type, whose one further attribute is kept as it is. -/
def parseLeafDefinition (space : Json) (members common : List (String × Json)) (key : String) :
    ParseM Json := do
  let (_, name) ← ParseM.lift (qualifiedName (.obj members) space)
  let entry ← define name common
  redefine entry (common ++ [("name", name)])
  let value ← ParseM.lift (required members key)
  redefine entry (common ++ [("name", name), (key, value)])
  return .obj (common ++ [("name", name), (key, value)])

/-- The definition of a record, whose fields are read in its own namespace. -/
def parseRecordDefinition (space : Json) (members common : List (String × Json))
    (parseFields : Json → ParseM (List Json)) : ParseM Json := do
  let (inner, name) ← ParseM.lift (qualifiedName (.obj members) space)
  let entry ← define name common
  let fields ← parseFields inner
  redefine entry (common ++ [("name", name), ("fields", .arr fields)])
  return .obj (common ++ [("name", name), ("fields", .arr fields)])

mutual

def parseNode (expand : Bool) (space : Json) : Json → ParseM Json
  | .arr branches => do return .arr (← parseBranches expand space branches)
  | .obj members => do
    let type ← ParseM.lift (required members "type")
    let common := commonAttributes members type
    ParseM.lift (checkDecimal members type)
    match type with
    | .str "array" =>
      let items ← parseUnder expand space "items" members
      return .obj (common ++ [("items", items)])
    | .str "map" =>
      let values ← parseUnder expand space "values" members
      return .obj (common ++ [("values", values)])
    | .str "enum" => parseLeafDefinition space members common "symbols"
    | .str "fixed" => parseLeafDefinition space members common "size"
    | .str "record" =>
      parseRecordDefinition space members common fun inner => parseFieldsIn expand inner members
    | .str "error" =>
      parseRecordDefinition space members common fun inner => parseFieldsIn expand inner members
    | _ =>
      if ← ParseM.lift (isPrimitive type) then return .obj common
      else throw (.unknownType (.obj members))
  | reference => parseReference expand space reference
termination_by structural node => node

def parseBranches (expand : Bool) (space : Json) : List Json → ParseM (List Json)
  | [] => pure []
  | branch :: rest => do
    let parsed ← parseNode expand space branch
    return parsed :: (← parseBranches expand space rest)
termination_by structural branches => branches

def parseUnder (expand : Bool) (space : Json) (key : String) : List (String × Json) → ParseM Json
  | [] => throw .missingKey
  | (name, node) :: rest =>
    if name = key then parseNode expand space node else parseUnder expand space key rest
termination_by structural members => members

/-- Parses the fields among the attributes of a record; a record without that attribute has none. -/
def parseFieldsIn (expand : Bool) (space : Json) : List (String × Json) → ParseM (List Json)
  | [] => pure []
  | (name, value) :: rest =>
    if name = "fields" then
      match value with
      | .arr fields => parseFields expand space fields
      | .str text => if text.isEmpty then pure [] else throw .unsupported
      | .obj members => if members.isEmpty then pure [] else throw .unsupported
      | _ => throw (.wrongType [])
    else parseFieldsIn expand space rest
termination_by structural members => members

def parseFields (expand : Bool) (space : Json) : List Json → ParseM (List Json)
  | [] => pure []
  | field :: rest => do
    let parsed ← parseField expand space field
    return parsed :: (← parseFields expand space rest)
termination_by structural fields => fields

def parseField (expand : Bool) (space : Json) : Json → ParseM Json
  | .obj members => do
    let common := commonFieldAttributes members
    ParseM.lift (checkAliases common)
    let name ← ParseM.lift (required members "name")
    let type ← parseUnder expand space "type" members
    return .obj (common ++ [("name", name), ("type", type)])
  | _ => throw .unsupported
termination_by structural field => field

end

/-- A parsed schema before it is sealed: records that are to be marked as parsed are told apart,
since the mark holds the registry as it is in the end. -/
inductive Draft where
  | plain (schema : Json)
  | marked (members : List (String × Json))
  | branches (drafts : List Draft)
deriving Repr, Inhabited

mutual

/-- The schema of a draft, its marks filled with a registry. -/
def Draft.seal (registry : Registry) : Draft → Json
  | .plain schema => schema
  | .marked members =>
    .obj (Members.set (Members.set members parsedKey (.bool true)) registryKey (.obj registry))
  | .branches drafts => .arr (Draft.sealAll registry drafts)

def Draft.sealAll (registry : Registry) : List Draft → List Json
  | [] => []
  | draft :: rest => draft.seal registry :: Draft.sealAll registry rest

end

structure ParseOptions where
  /-- Replace references by definitions. -/
  expand : Bool := false
  /-- Mark records at the top as parsed. -/
  mark : Bool := true
  /-- Parse also what is marked as parsed. -/
  force : Bool := false

def parseWhole (expand mark : Bool) (schema : Json) :
    EStateM Error Registry Draft := fun registry =>
  match parseNode expand (.str "") schema ⟨[], registry⟩ with
  | .error error state => .error error state.registry
  | .ok parsed state =>
    match mark, schema, parsed with
    | true, .obj _, .obj members =>
      match Members.get? members "type" with
      | some (.str "record") => .ok (.marked members) state.registry
      | some (.str "error") => .ok (.marked members) state.registry
      | _ => .ok (.plain parsed) state.registry
    | _, _, _ => .ok (.plain parsed) state.registry

/-- A schema that is marked as parsed is taken as it is, and its registry is added to the given
one. -/
def adopt (members : List (String × Json)) : EStateM Error Registry Draft := fun registry =>
  match Members.get? members registryKey with
  | none => .error .missingKey registry
  | some (.obj entries) => .ok (.plain (.obj members)) (Members.union registry entries)
  | some _ => .error .unsupported registry

mutual

/-- Parses a schema from the top. The branches of a union are parsed one by one, each with names of
its own. -/
def parseTop (options : ParseOptions) : Json → EStateM Error Registry Draft
  | .obj members =>
    if options.force || options.expand || !Members.has members parsedKey then
      parseWhole options.expand options.mark (.obj members)
    else adopt members
  | .arr branches =>
    if options.force || options.expand then parseWhole options.expand options.mark (.arr branches)
    else do return .branches (← parseTopBranches options branches)
  | schema => parseWhole options.expand options.mark schema

def parseTopBranches (options : ParseOptions) : List Json → EStateM Error Registry (List Draft)
  | [] => pure []
  | branch :: rest => do
    let draft ← parseTop options branch
    return draft :: (← parseTopBranches options rest)

end

/-- Parses a schema against a registry: the parsed schema and the registry after it. -/
def parse (options : ParseOptions) (registry : Registry) (schema : Json) :
    Outcome (Json × Registry) :=
  match parseTop options schema registry with
  | .ok draft after => .ok (draft.seal after, after)
  | .error error _ => .error error

def expand (schema : Json) : Outcome Json :=
  match parse { expand := true, mark := false } [] schema with
  | .ok (expanded, _) => .ok expanded
  | .error error => .error error

end Avro.Schema
