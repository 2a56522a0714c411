import Avro.Decode.Datum
import Avro.Proofs.Members

/-!
Contract: schemas without unions, references and logical types, and what resolution does with their
values.

Owns: `Shape`, such a schema reduced to what reading looks at; `HasShape`, the documents in parsed
form that have a shape; `Shape.readEntire`, which reads a value and keeps every entry; and
`resolve`, the projection of a value from the writer's shape to the reader's, which does not read.

A value that has been read entirely may hold a key of a map more than once. `Datum.merged` keeps the
last value of each key, at the place of the first.
-/

namespace Avro

open Members (get?)

/-! ### Shapes -/

inductive Primitive where
  | null | boolean | int | long | float | double | bytes | string
deriving DecidableEq, Repr

def Primitive.word : Primitive → String
  | null => "null"
  | boolean => "boolean"
  | int => "int"
  | long => "long"
  | float => "float"
  | double => "double"
  | bytes => "bytes"
  | string => "string"

mutual

/-- A schema without unions, references and logical types. -/
inductive Shape where
  | primitive (type : Primitive)
  | fixed (size : Int)
  | enum (symbols : List String) (default : Option Json)
  | array (items : Shape)
  | map (values : Shape)
  /-- The document is kept, since a record schema that equals the reader's is not resolved. -/
  | record (schema : Json) (isError : Bool) (fields : List Field)

inductive Field where
  | mk (name : String) (aliases : List String) (default : Option Json) (shape : Shape)

end

namespace Field

def name : Field → String
  | mk name _ _ _ => name

def aliases : Field → List String
  | mk _ aliases _ _ => aliases

def default : Field → Option Json
  | mk _ _ default _ => default

def shape : Field → Shape
  | mk _ _ _ shape => shape

end Field

def Shape.word : Shape → String
  | primitive type => type.word
  | fixed _ => "fixed"
  | enum _ _ => "enum"
  | array _ => "array"
  | map _ => "map"
  | record _ isError _ => if isError then "error" else "record"

mutual

/-- A schema in parsed form has a shape: no logical type, and attributes of the prescribed types. -/
inductive HasShape : Json → Shape → Prop where
  | word {type : Primitive} : HasShape (.str type.word) (.primitive type)
  | primitive {members : List (String × Json)} {type : Primitive}
      (typeIs : get? members "type" = some (.str type.word))
      (plain : get? members "logicalType" = none) : HasShape (.obj members) (.primitive type)
  | fixed {members : List (String × Json)} {size : Int}
      (typeIs : get? members "type" = some (.str "fixed"))
      (plain : get? members "logicalType" = none)
      (sizeIs : get? members "size" = some (.int size)) :
      HasShape (.obj members) (.fixed size)
  | enum {members : List (String × Json)} {symbols : List String}
      (typeIs : get? members "type" = some (.str "enum"))
      (plain : get? members "logicalType" = none)
      (symbolsAre : get? members "symbols" = some (.arr (symbols.map .str))) :
      HasShape (.obj members) (.enum symbols (get? members "default"))
  | array {members : List (String × Json)} {node : Json} {items : Shape}
      (typeIs : get? members "type" = some (.str "array"))
      (plain : get? members "logicalType" = none)
      (itemsAre : get? members "items" = some node) (inner : HasShape node items) :
      HasShape (.obj members) (.array items)
  | map {members : List (String × Json)} {node : Json} {values : Shape}
      (typeIs : get? members "type" = some (.str "map")) (plain : get? members "logicalType" = none)
      (valuesAre : get? members "values" = some node) (inner : HasShape node values) :
      HasShape (.obj members) (.map values)
  | record {members : List (String × Json)} {isError : Bool} {nodes : List Json}
      {fields : List Field}
      (typeIs : get? members "type" = some (.str (if isError then "error" else "record")))
      (plain : get? members "logicalType" = none)
      (fieldsAre : get? members "fields" = some (.arr nodes)) (inner : HaveShapes nodes fields) :
      HasShape (.obj members) (.record (.obj members) isError fields)

inductive HaveShapes : List Json → List Field → Prop where
  | nil : HaveShapes [] []
  | cons {members : List (String × Json)} {node : Json} {rest : List Json} {name : String}
      {aliases : List String}
      {shape : Shape} {fields : List Field} (nameIs : get? members "name" = some (.str name))
      (aliasesAre : (get? members "aliases").getD (.arr []) = .arr (aliases.map .str))
      (typeIs : get? members "type" = some node) (inner : HasShape node shape)
      (others : HaveShapes rest fields) :
      HaveShapes (.obj members :: rest) (.mk name aliases (get? members "default") shape :: fields)

end

/-! ### Reading every entry -/

open BinaryInput

def Primitive.read : Primitive → ReadM BinaryInput Datum
  | null => Source.readNull
  | boolean => Source.readBoolean
  | int => Source.readInt
  | long => Source.readLong
  | float => Source.readFloat
  | double => Source.readDouble
  | bytes => Source.readBytes
  | string => Source.readText

mutual

/-- Reads a value of a shape, and keeps every entry of its maps and records. -/
def Shape.readEntire : Shape → ReadM BinaryInput Datum
  | .primitive type => type.read
  | .fixed size => Source.readFixed (.int size)
  | .enum symbols _ => do
    let index ← Source.readEnum
    return .str (← ReadM.lift (Schema.itemAt symbols index))
  | .array items => do
    readBlockCount
    return .list (← readCollection items.readEntire)
  | .map values => do
    readBlockCount
    return .dict (← readCollection (do
      let key ← Source.readText
      return (key, ← values.readEntire)))
  | .record _ _ fields => do return .dict (← Field.readAll fields)

def Field.readAll : List Field → ReadM BinaryInput (List (Datum × Datum))
  | [] => pure []
  | .mk name _ _ shape :: rest => do
    let value ← shape.readEntire
    return (.str name, value) :: (← Field.readAll rest)

end

namespace Datum

mutual

/-- The value in which every key of a mapping has only the last of its values. -/
def merged : Datum → Datum
  | .list items => .list (mergedItems items)
  | .dict entries => .dict ((mergedEntries entries).foldl Decode.insertEntry [])
  | datum => datum

def mergedItems : List Datum → List Datum
  | [] => []
  | item :: rest => item.merged :: mergedItems rest

def mergedEntries : List (Datum × Datum) → List (Datum × Datum)
  | [] => []
  | (key, value) :: rest => (key, value.merged) :: mergedEntries rest

end

/-- Whether a key is a text that no entry has. -/
def lacks (entries : List (Datum × Datum)) : Datum → Bool
  | .str text => (Datum.lookup entries text).isNone
  | _ => false

mutual

/-- Whether no mapping within a value holds a key more than once. -/
def keysDistinct : Datum → Bool
  | .list items => itemsDistinct items
  | .dict entries => entriesDistinct entries
  | _ => true

def itemsDistinct : List Datum → Bool
  | [] => true
  | item :: rest => item.keysDistinct && itemsDistinct rest

def entriesDistinct : List (Datum × Datum) → Bool
  | [] => true
  | (key, value) :: rest => lacks rest key && value.keysDistinct && entriesDistinct rest

end

end Datum

/-! ### Resolution -/

/-- Why a value cannot be brought from one shape to another. -/
inductive Unresolved where
  /-- The shapes do not match, a symbol is not known, or a field has no default. -/
  | mismatch
  | notUtf8
  | overflow
deriving DecidableEq, Repr

/-- Whether a primitive type is read as another one. -/
def Primitive.matches : Primitive → Primitive → Bool
  | .int, .long | .int, .float | .int, .double | .long, .float | .long, .double
  | .float, .double => true
  | .string, .bytes | .bytes, .string => true
  | writer, reader => writer == reader

/-- Whether the types of two shapes match, through the parts of collections but not the fields of
records. -/
def Shape.matches : Shape → Shape → Bool
  | .primitive writer, .primitive reader => writer.matches reader
  | .fixed _, .fixed _ => true
  | .enum _ _, .enum _ _ => true
  | .array writer, .array reader => writer.matches reader
  | .map writer, .map reader => writer.matches reader
  | .record _ writer _, .record _ reader _ => writer == reader
  | _, _ => false

/-- An integer as a floating-point number. -/
def promoteInteger : Datum → Except Unresolved Datum
  | .int value =>
    match Double.ofInt? value with
    | some number => .ok (.float number)
    | none => .error .overflow
  | _ => .error .mismatch

/-- Converts a value between primitive types that match. -/
def Primitive.promote : Primitive → Primitive → Datum → Except Unresolved Datum
  | .int, .float, datum | .int, .double, datum | .long, .float, datum | .long, .double, datum =>
      promoteInteger datum
  | .string, .bytes, .str text => .ok (.bytes (Text.encodeUtf8 text))
  | .bytes, .string, .bytes content =>
    match Text.decodeUtf8? content with
    | some text => .ok (.str text)
    | none => .error .notUtf8
  | _, _, datum => .ok datum

/-- A symbol that is not known becomes the default, if that is not empty. -/
def resolveSymbol (symbols : List String) (default : Option Json) (symbol : String) :
    Except Unresolved Datum :=
  if symbols.contains symbol then .ok (.str symbol)
  else
    match default with
    | some value => if value.truthy then .ok (Datum.ofJson value) else .error .mismatch
    | none => .error .mismatch

/-- Fields by name; of two with one name the last counts. -/
def Field.byName (fields : List Field) : List (String × Field) :=
  fields.foldl (fun index field => Members.set index field.name field) []

/-- Fields by alias; of two with one alias the last counts. -/
def Field.byAlias (fields : List Field) : List (String × Field) :=
  fields.foldl (fun index field => field.aliases.foldl
    (fun index other => Members.set index other field) index) []

/-- The reader's field for a field of the writer: by name, or else by alias. -/
def Field.find? (fields : List Field) (name : String) : Option Field :=
  (get? (Field.byName fields) name).or (get? (Field.byAlias fields) name)

/-- Gives the fields that have no value their defaults. -/
def fillDefaults (record : List (Datum × Datum)) :
    List (String × Field) → Except Unresolved (List (Datum × Datum))
  | [] => .ok record
  | (name, field) :: rest =>
    if (Datum.lookup record name).isSome then fillDefaults record rest
    else
      match field.default with
      | some value => fillDefaults (Datum.insert record name (Datum.ofJson value)) rest
      | none => .error .mismatch

mutual

/-- The value of the reader's shape that a value of the writer's shape stands for. -/
def resolve : Shape → Shape → Datum → Except Unresolved Datum
  | .primitive writer, .primitive reader, datum =>
    if writer.matches reader then writer.promote reader datum else .error .mismatch
  | .fixed _, .fixed _, datum => .ok datum
  | .enum _ _, .enum symbols default, .str symbol => resolveSymbol symbols default symbol
  | .array writer, .array reader, .list items =>
    if writer.matches reader then do return .list (← items.mapM (resolve writer reader))
    else .error .mismatch
  | .map writer, .map reader, .dict entries =>
    if writer.matches reader then do
      let resolved ← entries.mapM fun entry => do return (entry.1, ← resolve writer reader entry.2)
      return .dict (resolved.foldl Decode.insertEntry [])
    else .error .mismatch
  | .record writer writerIsError fields, .record reader readerIsError readerFields, .dict entries =>
    if writer.same reader then .ok (Datum.dict entries).merged
    else if writerIsError == readerIsError then do
      let record ← resolveFields readerFields [] fields entries
      return .dict (← fillDefaults record (Field.byName readerFields))
    else .error .mismatch
  | _, _, _ => .error .mismatch

/-- Takes over the values of the writer's fields that the reader knows. -/
def resolveFields (readerFields : List Field) (record : List (Datum × Datum)) :
    List Field → List (Datum × Datum) → Except Unresolved (List (Datum × Datum))
  | .mk name _ _ shape :: rest, (_, value) :: entries =>
    match Field.find? readerFields name with
    | some field => do
      let resolved ← resolve shape field.shape value
      resolveFields readerFields (Datum.insert record field.name resolved) rest entries
    | none => resolveFields readerFields record rest entries
  | _, _ => .ok record

end

end Avro
