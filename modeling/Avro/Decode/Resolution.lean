import Avro.Number.Numeral
import Avro.Schema.Basic

/-!
Contract: whether data of one schema can be read by another.

Owns: `Resolution.matchSchemas`, the part of the reader's schema that data of the writer's schema is
read by, and `Resolution.promote`, the conversion of a value between primitive types.

A union on either side matches here; which branch is meant is decided when the data is read.
-/

namespace Avro.Resolution

/-- The pairs of different primitive types that match, writer first. -/
def promotions : List (String × List String) :=
  [("int", ["long", "float", "double"]), ("long", ["float", "double"]), ("float", ["double"]),
    ("string", ["bytes"]), ("bytes", ["string"])]

def matchNames (writer reader : Json) : Bool :=
  writer.same reader ||
    match writer, reader with
    | .str source, .str target =>
      (promotions.lookup source).any fun targets => targets.contains target
    | _, _ => false

def bothAre (word : String) (writerType readerType : Json) : Bool :=
  writerType.same readerType && readerType.same (.str word)

/-- The attribute that holds the parts of a collection, if both types are one collection. -/
def sharedParts? (writerType readerType : Json) : Option String :=
  if bothAre "map" writerType readerType then some "values"
  else if bothAre "array" writerType readerType then some "items"
  else none

def truth : Outcome Json → Outcome Bool
  | .ok schema => .ok schema.truthy
  | .error (.schemaMismatch _ _) => .ok false
  | .error error => .error error

def select (test : Outcome Bool) (writer reader : Json) : Outcome Json := do
  if ← test then return reader else throw (.schemaMismatch writer reader)

mutual

def matchTypes (writer reader : Json) : Outcome Bool :=
  match writer, reader with
  | .arr _, _ => .ok true
  | _, .arr _ => .ok true
  | .obj writerMembers, reader => truth (matchSchemas (.obj writerMembers) reader)
  | writer, .obj readerMembers => truth (matchSchemas writer (.obj readerMembers))
  | writer, reader => .ok (matchNames writer reader)
termination_by (sizeOf writer + sizeOf reader, 1)

/-- The part of the reader's schema by which data of the writer's schema is read. -/
def matchSchemas (writer reader : Json) : Outcome Json :=
  match writer, reader with
  | .arr _, reader => .ok reader
  | writer, .arr branches => matchBranches writer branches (.schemaMismatch writer (.arr branches))
  | .obj writerMembers, .obj readerMembers =>
    match foundWriter : Members.get? writerMembers "type",
      foundReader : Members.get? readerMembers "type" with
    | some writerType, some readerType =>
      match sharedParts? writerType readerType with
      | some key =>
        match foundFirst : Members.get? writerMembers key,
          foundSecond : Members.get? readerMembers key with
        | some first, some second =>
          have := Members.sizeOf_lt_of_get? foundFirst
          have := Members.sizeOf_lt_of_get? foundSecond
          select (matchTypes first second) (.obj writerMembers) (.obj readerMembers)
        | _, _ => .error .missingKey
      | none =>
        have := Members.sizeOf_lt_of_get? foundWriter
        have := Members.sizeOf_lt_of_get? foundReader
        select (matchTypes writerType readerType) (.obj writerMembers) (.obj readerMembers)
    | _, _ => .error .missingKey
  | .obj writerMembers, reader =>
    match foundWriter : Members.get? writerMembers "type" with
    | some writerType =>
      match sharedParts? writerType reader with
      | some key => .error (if Members.has writerMembers key then .wrongType [] else .missingKey)
      | none =>
        have := Members.sizeOf_lt_of_get? foundWriter
        select (matchTypes writerType reader) (.obj writerMembers) reader
    | none => .error .missingKey
  | writer, .obj readerMembers =>
    match foundReader : Members.get? readerMembers "type" with
    | some readerType =>
      match sharedParts? writer readerType with
      | some _ => .error (.wrongType [])
      | none =>
        have := Members.sizeOf_lt_of_get? foundReader
        select (matchTypes writer readerType) writer (.obj readerMembers)
    | none => .error .missingKey
  | writer, reader =>
    match sharedParts? writer reader with
    | some _ => .error (.wrongType [])
    | none => select (.ok (matchNames writer reader)) writer reader
termination_by (sizeOf writer + sizeOf reader, 0)

def matchBranches (writer : Json) (branches : List Json) (mismatch : Error) : Outcome Json :=
  match branches with
  | [] => .error mismatch
  | branch :: rest => do
    if ← matchTypes writer branch then return branch else matchBranches writer rest mismatch
termination_by (sizeOf writer + sizeOf branches, 0)

end

def numberOfInteger (value : Int) : Outcome Datum :=
  match Double.ofInt? value with
  | some number => .ok (.float number)
  | none => .error .overflow

def numberOfText (text : String) : Outcome Datum :=
  match Numeral.read? text with
  | some number => .ok (.float number)
  | none => .error .invalid

def toNumber : Datum → Outcome Datum
  | .int value => numberOfInteger value
  | .bool value => numberOfInteger (if value then 1 else 0)
  | .float value => .ok (.float value)
  | .decimal (.finite negative digits exponent) =>
      .ok (.float (Double.ofDecimal negative digits exponent))
  | .decimal (.infinite negative) => .ok (.float (Double.infinity negative))
  | .decimal (.nan _ signals _) => if signals then .error .invalid else .ok (.float Double.nan)
  | .str text => numberOfText text
  | .bytes content => numberOfText (Text.decodeLatin1 content)
  | .buffer content => numberOfText (Text.decodeLatin1 content)
  | _ => .error (.wrongType [])

def promote (datum : Datum) (writerType readerType : Json) : Outcome Datum :=
  match writerType, readerType with
  | .str "int", .str "float" => toNumber datum
  | .str "int", .str "double" => toNumber datum
  | .str "long", .str "float" => toNumber datum
  | .str "long", .str "double" => toNumber datum
  | .str "string", .str "bytes" =>
    match datum with
    | .str text => .ok (.bytes (Text.encodeUtf8 text))
    | _ => .error .unsupported
  | .str "bytes", .str "string" =>
    match datum.byteContent? with
    | some content =>
      match Text.decodeUtf8? content with
      | some text => .ok (.str text)
      | none => .error .notUtf8
    | none => .error .unsupported
  | _, _ => .ok datum

end Avro.Resolution
