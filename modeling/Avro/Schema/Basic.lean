import Avro.Error

/-!
Contract: what a node of a schema is.

Owns: the kinds of types, the kind of a schema node, the tag of its logical type, full names, and
the registry of named types.

A schema is a JSON document: a name, an object with a `type` attribute, or an array of branches.
Attributes may have any JSON type; every lookup that needs more says so by failing.
-/

namespace Avro

/-- The definitions of named types by full name, in the order in which they were first met. -/
abbrev Registry := List (String × Json)

inductive Kind where
  | null | boolean | string | int | long | float | double | bytes
  | fixed | enum | array | map | union | errorUnion | record | error | request
  /-- A reference to a named type. -/
  | named (name : String)
  /-- A document that is no type at all. -/
  | foreign (value : Json)
deriving Repr, Inhabited

namespace Kind

/-- The kind that a word denotes; a word that is not built in refers to a named type. -/
def ofName : String → Kind
  | "null" => null
  | "boolean" => boolean
  | "string" => string
  | "int" => int
  | "long" => long
  | "float" => float
  | "double" => double
  | "bytes" => bytes
  | "fixed" => fixed
  | "enum" => enum
  | "array" => array
  | "map" => map
  | "union" => union
  | "error_union" => errorUnion
  | "record" => record
  | "error" => error
  | "request" => request
  | name => named name

/-- The kind of a `type` attribute; arrays and objects cannot be looked up as types. -/
def ofType : Json → Outcome Kind
  | .str name => .ok (ofName name)
  | .arr _ => .error (.wrongType [])
  | .obj _ => .error (.wrongType [])
  | value => .ok (foreign value)

def isBuiltIn : Kind → Bool
  | named _ => false
  | foreign _ => false
  | _ => true

end Kind

namespace Schema

def depthLimit : Nat := 1000

def primitiveNames : List String :=
  ["boolean", "bytes", "double", "float", "int", "long", "null", "string"]

def isPrimitive : Json → Outcome Bool
  | .str name => .ok (primitiveNames.contains name)
  | .arr _ => .error (.wrongType [])
  | .obj _ => .error (.wrongType [])
  | _ => .ok false

/-- The marker of a record schema that has been parsed. -/
def parsedKey : String := "__fastavro_parsed"

/-- The attribute under which a parsed record schema holds the types that it names. -/
def registryKey : String := "__named_schemas"

def required (members : List (String × Json)) (key : String) : Outcome Json :=
  match Members.get? members key with
  | some value => .ok value
  | none => .error .missingKey

def attributeOf (schema : Json) (key : String) : Outcome Json :=
  match schema with
  | .obj members => required members key
  | _ => .error (.wrongType [])

/-- The type of a node: the attribute of an object, the word `union` for an array, else the node
itself. -/
def typeOf : Json → Outcome Json
  | .obj members => required members "type"
  | .arr _ => .ok (.str "union")
  | schema => .ok schema

def kindOf (schema : Json) : Outcome Kind :=
  match typeOf schema with
  | .ok type => Kind.ofType type
  | .error error => .error error

def isRecord (schema : Json) : Outcome Bool :=
  match typeOf schema with
  | .ok type => .ok (type.same (.str "record"))
  | .error error => .error error

/-- Underlying type and logical type of an object, joined by a hyphen, if it has a logical type. -/
def logicalTag : Json → Outcome (Option String)
  | .obj members =>
    match required members "type" with
    | .error error => .error error
    | .ok type =>
      match Members.get? members "logicalType" with
      | some logical =>
        .ok (if logical.truthy then some (type.displayed ++ "-" ++ logical.displayed) else none)
      | none => .ok none
  | _ => .ok none

/-- Whether a word occurs in a document: as a key, as an item, or within a text. -/
def mentions (document : Json) (word : String) : Outcome Bool :=
  match document with
  | .obj members => .ok (Members.has members word)
  | .arr items => .ok (items.any fun item => item.same (.str word))
  | .str text => .ok (Text.occursIn word.toList text.toList)
  | _ => .error (.wrongType [])

/-- The items over which an iteration goes: those of an array, the characters of a text, the keys of
an object. -/
def iterate : Json → Outcome (List Json)
  | .arr items => .ok items
  | .str text => .ok (text.toList.map fun character => .str (String.ofList [character]))
  | .obj members => .ok (members.map fun member => .str member.1)
  | _ => .error (.wrongType [])

/-- The namespace in which the parts of a named type are read, and its full name. A namespace that
is empty or absent leaves the name as it is, and so does a name that holds a dot, whose parts have
no namespace. -/
def qualifiedName (schema parentNamespace : Json) : Outcome (Json × Json) :=
  match schema with
  | .obj members =>
    match Members.get? members "name" with
    | none => .error (.nameMissing schema)
    | some name =>
      let space := (Members.get? members "namespace").getD parentNamespace
      if !space.truthy then .ok (space, name)
      else
        match mentions name "." with
        | .error error => .error error
        | .ok true => .ok (.str "", name)
        | .ok false => .ok (space, .str (space.displayed ++ "." ++ name.displayed))
  | _ => .error (.wrongType [])

def fullName (schema : Json) : Outcome Json :=
  match qualifiedName schema (.str "") with
  | .ok (_, name) => .ok name
  | .error error => .error error

def keyOf : Json → Outcome Json
  | .arr _ => .error (.wrongType [])
  | .obj _ => .error (.wrongType [])
  | key => .ok key

/-- The key of a name in the registry. A name that is no text has a key by its value, behind a
character with which no name begins, so that equal numbers have one key and the text of a number has
another. -/
def registryName (name : Json) : Outcome String := do
  match ← keyOf name with
  | .str text => return text
  | value =>
    let shown := match value.integral? with
      | some number => integerText number
      | none => value.displayed
    return "\x00" ++ shown

def resolve (registry : Registry) (name : String) : Outcome Json :=
  match Members.get? registry name with
  | some schema => .ok schema
  | none => .error .missingKey

/-- A reference as seen from a namespace: a name without a dot gets the namespace in front. -/
def qualifyReference (reference space : Json) : Outcome Json :=
  match mentions reference "." with
  | .error error => .error error
  | .ok dotted =>
    if dotted || !space.truthy then .ok reference
    else
      match space, reference with
      | .str prefixText, .str name => .ok (.str (prefixText ++ "." ++ name))
      | _, _ => .error (.wrongType [])

end Schema

end Avro
