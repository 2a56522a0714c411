import Avro.Datum.Display
import Avro.Json.Printer

/-!
Contract: why an operation fails.

Owns: the causes of failure and the wording of those that have one.

Causes with a wording are failures that this library detects and explains. The others are failures
of an elementary step, such as the lookup of an absent key, and are told apart by their kind alone.
-/

namespace Avro

/-- One place at which a value is refused by a schema; the field is null if it has no name. -/
structure Refusal where
  datum : Datum
  schema : Json
  field : Json
deriving Repr, Inhabited

inductive Error where
  /-- A type name is defined twice in one schema. -/
  | redefined (name : Json)
  /-- A type that has to have a name has none. -/
  | nameMissing (schema : Json)
  | aliasesNotList (aliases : Json)
  | scaleNotPositive (scale : Json)
  | precisionNotPositive (precision : Json)
  /-- The digits of a decimal do not fit into its fixed size. -/
  | precisionTooLarge (precision size : Json)
  | scaleAbovePrecision (precision : Json)
  /-- A name or a type attribute that denotes no type. -/
  | unknownType (name : Json)
  /-- A schema with an unknown type attribute was searched for references. -/
  | unsearchable
  | unknownFingerprint (algorithm : String)
  /-- A value is refused by its schema. -/
  | refused (refusals : List Refusal)
  /-- The branch that a value names is not in the union. -/
  | branchNotFound (name : Datum) (schema field : Json)
  /-- No branch of the union accepts the value. -/
  | noBranch (datum : Datum) (schema field : Json)
  /-- A field has neither a value nor a default. -/
  | noValue (field : Json)
  | decimalTooLong
  | decimalScaleMismatch
  /-- A single mapping was given in place of a list of records. -/
  | recordsAreMapping
  /-- The schemas of writer and reader do not match. -/
  | schemaMismatch (writer reader : Json)
  | symbolNotFound (symbol symbols : Json)
  | branchMismatch (writer reader : Json)
  | noDefault (field : Json)
  /-- The data ends within a value of fixed width. -/
  | truncated (kind : Json)
  | syncNotFound
  | unrecognizedCodec (codec : String)
  | unwritableCodec (codec : String)
  | codecNotInstalled (codec library : String)
  | headerUnreadable
  | notReadable
  | appendMismatch (provided existing : Json)
  /-- A type that has no JSON encoding. -/
  | unhandledType (kind : Json)
  /-- The grammar of the JSON encoding expects another symbol than the one given. -/
  | unexpectedSymbol (symbol : String)
  | unexpectedAction (symbol : String)
  | unwritableAction (symbol : String)
  | keyNotSet
  | valueMissing
  /-- A value is of the wrong type for an operation, on the given fields, innermost first. -/
  | wrongType (fields : List String)
  | missingKey
  | unsupported
  | indexOutOfRange
  /-- The data ends where a value starts. -/
  | exhausted
  /-- The data ends where an iteration needs more of it. -/
  | interrupted
  /-- Data or a value does not have the layout of a fixed-width number. -/
  | badLayout
  | overflow
  /-- A value is outside the domain of an operation. -/
  | invalid
  | notUtf8
  | notLatin1
  | malformedJson
  | tooDeep
  | invalidDecimal
  | decimalOverflow
  | assertion
  | notImplemented
  | fileNotFound
  | isDirectory
  | notDirectory
  /-- The data of a block is not what its codec writes. -/
  | corruptBlock (codec : String)
  /-- A level of compression that does not exist. -/
  | badLevel
deriving Repr, Inhabited

def Refusal.text (refusal : Refusal) : String :=
  let field := match refusal.field with
    | .null => ""
    | name => name.displayed
  match refusal.datum with
  | .null => "Field(" ++ field ++ ") is None expected " ++ refusal.schema.displayed
  | datum =>
    field ++ " is <" ++ datum.text ++ "> of type <class '" ++ datum.className ++ "'> expected "
      ++ refusal.schema.displayed

def Refusal.isPrintable (refusal : Refusal) : Bool :=
  refusal.datum.isPrintable && refusal.schema.isPrintable && refusal.field.isPrintable

/-- A refusal is put into words as soon as it is made, which fails if it has no text. -/
def Refusal.error (refusal : Refusal) : Error :=
  if refusal.isPrintable then .refused [refusal] else .invalid

namespace Error

def fieldSuffix (field : Json) : String :=
  if field.truthy then "on field " ++ field.displayed else ""

def message : Error → String
  | redefined name => "redefined named type: " ++ name.displayed
  | nameMissing schema =>
    "\"name\" is a required field missing from the schema: " ++ schema.displayed
  | aliasesNotList aliases => "aliases must be a list, not " ++ aliases.displayed
  | scaleNotPositive scale => "decimal scale must be a postive integer, not " ++ scale.displayed
  | precisionNotPositive precision =>
    "decimal precision must be a postive integer, not " ++ precision.displayed
  | precisionTooLarge precision size =>
    "decimal precision of " ++ precision.displayed ++ " doesn't fit into array of length " ++
    size.displayed
  | scaleAbovePrecision precision =>
    "decimal scale must be less than or equal to the precision of " ++ precision.displayed
  | unknownType name => name.displayed
  | unsearchable => "Internal error; You should raise an issue in the fastavro github repository"
  | unknownFingerprint algorithm =>
    "Unknown schema fingerprint algorithm " ++ algorithm ++ ". Valid values include:"
  | refused refusals =>
    (Json.arr (refusals.map fun refusal => .str refusal.text)).print ⟨false, some 2⟩
  | branchNotFound name schema field =>
    "provided union type name " ++ name.text ++ " not found in schema " ++ schema.displayed ++
    " " ++ fieldSuffix field
  | noBranch datum schema field =>
    datum.quoted ++ " (type <class '" ++ datum.className ++ "'>) do not match " ++
    schema.displayed ++ " "
      ++ fieldSuffix field
  | noValue field => "no value and no default for " ++ field.displayed
  | decimalTooLong => "The decimal precision is bigger than allowed by schema"
  | decimalScaleMismatch => "Scale provided in schema does not match the decimal"
  | recordsAreMapping => "\"records\" argument should be an iterable, not dict"
  | schemaMismatch writer reader =>
    "Schema mismatch: " ++ writer.displayed ++ " is not " ++ reader.displayed
  | symbolNotFound symbol symbols =>
    symbol.displayed ++ " not found in reader symbol list " ++ symbols.displayed
  | branchMismatch writer reader =>
    "schema mismatch: " ++ writer.displayed ++ " not found in " ++ reader.displayed
  | noDefault field => "No default value for " ++ field.displayed
  | truncated kind => "cannot read " ++ kind.displayed ++ " from <_io.BytesIO object>"
  | syncNotFound => "expected sync marker not found"
  | unrecognizedCodec codec => "Unrecognized codec: " ++ codec
  | unwritableCodec codec => "unrecognized codec: " ++ codec
  | codecNotInstalled codec library =>
    codec ++ " codec is supported but you need to install " ++ library
  | headerUnreadable => "cannot read header - is it an avro file?"
  | notReadable => "When appending to an avro file you must use the 'a+' mode, not just 'a'"
  | appendMismatch provided existing =>
    "Provided schema " ++ provided.displayed ++ " does not match file writer_schema " ++
    existing.displayed
  | unhandledType kind => "Unhandled type: " ++ kind.displayed
  | unexpectedSymbol symbol =>
    "Internal Parser Exception: <fastavro.io.symbols." ++ symbol ++ " object>"
  | unexpectedAction symbol => "cannot handle: <fastavro.io.symbols." ++ symbol ++ " object>"
  | unwritableAction symbol => "Internal Exception: <fastavro.io.symbols." ++ symbol ++ " object>"
  | keyNotSet => "No key was set"
  | valueMissing => "no value and no default"
  | wrongType fields => String.join (fields.map fun field => " on field " ++ field)
  | _ => ""

end Error

abbrev Outcome (α : Type) := Except Error α

end Avro
