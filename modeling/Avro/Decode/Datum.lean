import Avro.Binary.Input
import Avro.Decode.Resolution
import Avro.Logical
import Avro.Schema.Places

/-!
Contract: reading of values.

Owns: `Decode.read`, which reads a value by the schema that it was written with, and brings it into
the form that the reader's schema asks for, and `Decode.skip`, which passes over a value. A reader's
schema of null means none.

A reader who asks for record names gets the records of a union as pairs of a name and the record.
-/

namespace Avro.Decode

variable {σ : Type}

/-- A reader of values: the writer's schema node, the reader's, and whether records of unions are
named. -/
abbrev Reader (σ : Type) := Json → Json → Bool → ReadM σ Datum

/-! ### Skipping -/

def skipFields (skip : Json → ReadM σ Unit) : List Json → ReadM σ Unit
  | [] => pure ()
  | field :: rest => do
    skip (← ReadM.lift (Schema.attributeOf field "type"))
    skipFields skip rest

def fieldsOf (schema : Json) : Outcome (List Json) := do
  Schema.iterate (← Schema.attributeOf schema "fields")

def skipKind [Source σ] (skip : Json → ReadM σ Unit) (schema : Json) : Kind → ReadM σ Unit
  | .null => do let _ ← (Source.readNull : ReadM σ Datum)
  | .boolean => do let _ ← (Source.readBoolean : ReadM σ Datum)
  | .string => do let _ ← (Source.readText : ReadM σ Datum)
  | .int => do let _ ← (Source.readInt : ReadM σ Datum)
  | .long => do let _ ← (Source.readLong : ReadM σ Datum)
  | .float => do let _ ← (Source.readFloat : ReadM σ Datum)
  | .double => do let _ ← (Source.readDouble : ReadM σ Datum)
  | .bytes => do let _ ← (Source.readBytes : ReadM σ Datum)
  | .fixed => do let _ ← Source.readFixed (← ReadM.lift (Schema.attributeOf schema "size"))
  | .enum => do let _ ← (Source.readEnum : ReadM σ Int)
  | .array => do
    Source.readArrayStart
    let _ ← Source.readItems (do skip (← ReadM.lift (Schema.attributeOf schema "items")))
    Source.readArrayEnd
  | .map => do
    Source.readMapStart
    let _ ← Source.readEntries (do
      let _ ← (Source.readText : ReadM σ Datum)
      skip (← ReadM.lift (Schema.attributeOf schema "values")))
    Source.readMapEnd
  | .union | .errorUnion => do
    let index ← Source.readIndex
    skip (← ReadM.lift (Schema.documentItemAt schema index))
  | .record | .error | .request => do
    skipFields skip (← ReadM.lift (fieldsOf schema))
  | .named _ | .foreign _ => throw .missingKey

def skip [Source σ] (registry : Registry) : Nat → Json → ReadM σ Unit
  | 0, _ => throw .tooDeep
  | depth + 1, schema => do
    match ← ReadM.lift (Schema.kindOf schema) with
    | .named name => skip registry depth (← ReadM.lift (Schema.resolve registry name))
    | .foreign _ => throw .missingKey
    | kind => skipKind (skip registry depth) schema kind

/-! ### Reading -/

/-- A symbol as the reader knows it: a symbol that is unknown becomes the reader's default. -/
def resolveSymbol (symbol reader : Json) : Outcome Datum := do
  if !reader.truthy then return Datum.ofJson symbol
  let symbols ← Schema.attributeOf reader "symbols"
  let isKnown ← match symbols, symbol with
    | .arr items, _ => pure (items.any fun item => symbol.same item)
    | .obj members, .str text => pure (Members.has members text)
    | .str text, .str word => pure (Text.occursIn word.toList text.toList)
    | _, _ => throw (.wrongType [])
  if isKnown then return Datum.ofJson symbol
  match reader.get? "default" with
  | some value =>
    if value.truthy then return Datum.ofJson value else throw (.symbolNotFound symbol symbols)
  | none => throw (.symbolNotFound symbol symbols)

def readerPart (reader : Json) (key : String) : Outcome Json :=
  if reader.truthy then Schema.attributeOf reader key else .ok .null

def readArray [Source σ] (read : Reader σ) (writer reader : Json) (named : Bool) :
    ReadM σ Datum := do
  Source.readArrayStart
  let items ← Source.readItems (do
    let item ← ReadM.lift (Schema.attributeOf writer "items")
    read item (← ReadM.lift (readerPart reader "items")) named)
  Source.readArrayEnd
  return .list items

def insertEntry (entries : List (Datum × Datum)) (entry : Datum × Datum) : List (Datum × Datum) :=
  match entry.1 with
  | .str key => Datum.insert entries key entry.2
  | _ => entries ++ [entry]

def readMap [Source σ] (read : Reader σ) (writer reader : Json) (named : Bool) : ReadM σ Datum := do
  Source.readMapStart
  let entries ← Source.readEntries (do
    let key ← Source.readText
    let value ← ReadM.lift (Schema.attributeOf writer "values")
    return (key, ← read value (← ReadM.lift (readerPart reader "values")) named))
  Source.readMapEnd
  return .dict (entries.foldl insertEntry [])

def firstMatching (branch : Json) : List Json → Outcome (Option Json)
  | [] => .ok none
  | schema :: rest => do
    if ← Resolution.matchTypes branch schema then return some schema else firstMatching branch rest

/-- Reads the value of a union branch by the reader's schema, which may itself be a union. -/
def readResolvedBranch (read : Reader σ) (writer branch reader : Json) (named : Bool) :
    ReadM σ Datum := do
  let candidates := match reader with
    | .arr branches => branches
    | single => [single]
  let found ← ReadM.lift (firstMatching branch candidates)
  match found with
  | some schema => read branch schema named
  | none => throw (.branchMismatch writer reader)

def registeredName (registry : Registry) (schema : Json) : Outcome Json := do
  let key ← Schema.registryName schema
  let definition ← Schema.resolve registry key
  match definition with
  | .obj members => Schema.required members "name"
  | _ => throw (.wrongType [])

def readUnion [Source σ] (registry : Registry) (read : Reader σ) (writer reader : Json)
    (named : Bool) : ReadM σ Datum := do
  let index ← Source.readIndex
  let branch ← ReadM.lift (Schema.documentItemAt writer index)
  if reader.truthy then readResolvedBranch read writer branch reader named
  else if named then
    let type ← ReadM.lift (Schema.typeOf branch)
    if type.same (.str "record") then
      let name ← ReadM.lift (Schema.attributeOf branch "name")
      return .tuple [Datum.ofJson name, ← read branch .null true]
    let kind ← ReadM.lift (Kind.ofType type)
    if kind.isBuiltIn then read branch .null false
    else
      let name ← ReadM.lift (registeredName registry branch)
      return .tuple [Datum.ofJson name, ← read branch .null true]
  else read branch .null false

def fieldKey (field : Json) : Outcome Json := do Schema.keyOf (← Schema.attributeOf field "name")

def hasField (record : List (Datum × Datum)) (name : Json) : Bool :=
  record.any fun entry => entry.1.sameAsJson name

/-- Gives a name a value in a record; names compare by value, so a number is never the same as a
text. -/
def insertField (record : List (Datum × Datum)) (name : Json) (value : Datum) :
    List (Datum × Datum) :=
  match name with
  | .str key => Datum.insert record key value
  | _ =>
    if hasField record name then
      record.map fun entry => if entry.1.sameAsJson name then (entry.1, value) else entry
    else record ++ [(Datum.ofJson name, value)]

def readFields (read : Reader σ) (named : Bool) (record : List (Datum × Datum)) :
    List Json → ReadM σ (List (Datum × Datum))
  | [] => pure record
  | field :: rest => do
    let value ← read (← ReadM.lift (Schema.attributeOf field "type")) .null named
    let name ← ReadM.lift (fieldKey field)
    readFields read named (insertField record name value) rest

def fieldUnder? (table : List (Json × Json)) (name : Json) : Option Json :=
  match table with
  | [] => none
  | entry :: rest => if entry.1.same name then some entry.2 else fieldUnder? rest name

def setUnder (table : List (Json × Json)) (name field : Json) : List (Json × Json) :=
  match table with
  | [] => [(name, field)]
  | entry :: rest =>
    if entry.1.same name then (entry.1, field) :: rest else entry :: setUnder rest name field

/-- The reader's fields by name and by alias; of two with one name the last counts. -/
structure FieldIndex where
  byName : List (Json × Json)
  byAlias : List (Json × Json)

def addAliases (field : Json) (index : FieldIndex) : List Json → Outcome FieldIndex
  | [] => .ok index
  | alternative :: rest => do
    let key ← Schema.keyOf alternative
    addAliases field { index with byAlias := setUnder index.byAlias key field } rest

def indexFields (index : FieldIndex) : List Json → Outcome FieldIndex
  | [] => .ok index
  | field :: rest => do
    let name ← fieldKey field
    let aliases ← Schema.iterate ((field.get? "aliases").getD (.arr []))
    let extended ← addAliases field
      { index with byName := setUnder index.byName name field } aliases
    indexFields extended rest

/-- The reader's field for a field of the writer: by name, or else by alias. -/
def FieldIndex.find? (index : FieldIndex) (name : Json) : Option Json :=
  (fieldUnder? index.byName name).or (fieldUnder? index.byAlias name)

def readResolvedFields (read : Reader σ) (skip : Json → ReadM σ Unit) (named : Bool)
    (index : FieldIndex) (record : List (Datum × Datum)) :
    List Json → ReadM σ (List (Datum × Datum))
  | [] => pure record
  | field :: rest => do
    let name ← ReadM.lift (fieldKey field)
    match (index.find? name).filter Json.truthy with
    | some readerField =>
      let type ← ReadM.lift (Schema.attributeOf field "type")
      let readerType ← ReadM.lift (Schema.attributeOf readerField "type")
      let value ← read type readerType named
      let readerName ← ReadM.lift (fieldKey readerField)
      readResolvedFields read skip named index (insertField record readerName value) rest
    | none =>
      skip (← ReadM.lift (Schema.attributeOf field "type"))
      readResolvedFields read skip named index record rest

/-- Gives the reader's fields that were neither written nor read their defaults. -/
def fillDefaults (written : List Json) (record : List (Datum × Datum)) :
    List (Json × Json) → Outcome (List (Datum × Datum))
  | [] => .ok record
  | (name, field) :: rest =>
    if written.any name.same || hasField record name then fillDefaults written record rest
    else
      match field.get? "default" with
      | some value => fillDefaults written (insertField record name (Datum.ofJson value)) rest
      | none => .error (.noDefault name)

def readRecord (read : Reader σ) (skip : Json → ReadM σ Unit) (writer reader : Json)
    (named : Bool) :
    ReadM σ Datum := do
  match reader with
  | .null =>
    let record ← readFields read named [] (← ReadM.lift (fieldsOf writer))
    return .dict record
  | _ =>
    let index ← ReadM.lift (do indexFields ⟨[], []⟩ (← fieldsOf reader))
    let fields ← ReadM.lift (fieldsOf writer)
    let record ← readResolvedFields read skip named index [] fields
    if index.byName.length > record.length then
      let written ← ReadM.lift (fields.mapM fun field => Schema.attributeOf field "name")
      return .dict (← ReadM.lift (fillDefaults written record index.byName))
    else return .dict record

def readKind [Source σ] (registry : Registry) (read : Reader σ) (skip : Json → ReadM σ Unit)
    (writer reader : Json) (named : Bool) : Kind → ReadM σ Datum
  | .null => Source.readNull
  | .boolean => Source.readBoolean
  | .string => Source.readText
  | .int => Source.readInt
  | .long => Source.readLong
  | .float => Source.readFloat
  | .double => Source.readDouble
  | .bytes => Source.readBytes
  | .fixed => do Source.readFixed (← ReadM.lift (Schema.attributeOf writer "size"))
  | .enum => do
    let symbols ← ReadM.lift (Schema.attributeOf writer "symbols")
    let index ← Source.readEnum
    let symbol ← ReadM.lift (Schema.documentItemAt symbols index)
    ReadM.lift (resolveSymbol symbol reader)
  | .array => readArray read writer reader named
  | .map => readMap read writer reader named
  | .union => readUnion registry read writer reader named
  | .errorUnion => readUnion registry read writer reader named
  | .record => readRecord read skip writer reader named
  | .error => readRecord read skip writer reader named
  | .request => readRecord read skip writer reader named
  | .named _ => throw .missingKey
  | .foreign _ => throw .missingKey

/-- Data that ends within a number of fixed width is reported with the type that was being read. -/
def orTruncated {α : Type} (type : Json) (step : ReadM σ α) : ReadM σ α := fun input =>
  match step input with
  | .error .badLayout after => .error (.truncated type) after
  | result => result

/-- The reader's schema for a value of a built-in kind: none if it equals the writer's. -/
def resolveReader (writer reader : Json) : Outcome Json :=
  if !reader.truthy then .ok reader
  else if writer.same reader then .ok .null
  else Resolution.matchSchemas writer reader

/-- The reader's schema behind a name; a reader's schema that is no name cannot be looked up. -/
def resolveReaderName (registry : Registry) : Json → Outcome Json
  | .str name => .ok ((Members.get? registry name).getD .null)
  | .arr _ => .error (.wrongType [])
  | .obj _ => .error (.wrongType [])
  | _ => .ok .null

/-- Converts a value that has been read: by its logical type, or else to the reader's type. -/
def finish (writer reader type : Json) (datum : Datum) : Outcome Datum := do
  let logical ← if ← Schema.mentions writer "logicalType" then Logical.ofSchema writer
    else pure none
  match logical, reader with
  | some logical, _ => logical.restore datum writer
  | none, .null => return datum
  | none, _ => Resolution.promote datum type (← Schema.typeOf reader)

def read [Source σ] (registry : Registry) : Nat → Reader σ
  | 0, _, _, _ => throw .tooDeep
  | depth + 1, writer, reader, named => do
    let type ← ReadM.lift (Schema.typeOf writer)
    let kind ← ReadM.lift (Kind.ofType type)
    match kind with
    | .named name =>
      let definition ← ReadM.lift (Schema.resolve registry name)
      read registry depth definition (← ReadM.lift (resolveReaderName registry reader)) named
    | .foreign _ => throw .missingKey
    | kind =>
      let resolved ← ReadM.lift (resolveReader writer reader)
      let datum ← orTruncated type
        (readKind registry (read registry depth) (skip registry depth) writer resolved named kind)
      ReadM.lift (finish writer resolved type datum)

/-- Reads a single value from bytes by schemas that are parsed first: the value and the bytes after
it. -/
def single (writer reader : Json) (named : Bool) (bytes : Bytes) : Outcome (Datum × Bytes) := do
  let reader := if writer.same reader then .null else reader
  let (parsed, registry) ← Schema.parse {} [] writer
  let parsedReader ← if reader.truthy then do pure (← Schema.parse {} [] reader).1 else pure reader
  match read registry Schema.depthLimit parsed parsedReader named (BinaryInput.ofBytes bytes) with
  | .ok datum input => return (datum, input.rest)
  | .error error _ => throw error

end Avro.Decode
