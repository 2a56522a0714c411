import Avro.Binary.Output
import Avro.Encode.Branch

/-!
Contract: writing of values.

Owns: `Encode.write`, which writes a value by its schema into any output. It follows the schema;
values that the schema would refuse are found only where a step cannot be done.
-/

namespace Avro.Encode

variable {σ : Type}

/-- A writer of values: the value, its schema node, and the name of the field that holds it. -/
abbrev Writer (σ : Type) := Datum → Json → Json → WriteM σ Unit

def writeItems [Sink σ] (write : Writer σ) (schema field : Json) : List Datum → WriteM σ Unit
  | [] => pure ()
  | item :: rest => do
    write item schema field
    Sink.writeItemEnd
    writeItems write schema field rest

def writeArray [Sink σ] (write : Writer σ) (schema field : Json) (datum : Datum) :
    WriteM σ Unit := do
  Sink.writeArrayStart
  let size ← WriteM.size datum
  if size > 0 then
    Sink.writeItemCount (.int size)
    let items ← WriteM.lift (Schema.attributeOf schema "items")
    writeItems write items field (datum.iterated?.getD [])
  Sink.writeArrayEnd

def writeEntries [Sink σ] (write : Writer σ) (schema field : Json) :
    List (Datum × Datum) → WriteM σ Unit
  | [] => pure ()
  | (key, value) :: rest => do
    Sink.writeText key
    write value schema field
    writeEntries write schema field rest

def writeMap [Sink σ] (write : Writer σ) (schema field : Json) (datum : Datum) : WriteM σ Unit := do
  Sink.writeMapStart
  let size ← WriteM.size datum
  if size > 0 then
    Sink.writeItemCount (.int size)
    let values ← WriteM.lift (Schema.attributeOf schema "values")
    match datum with
    | .dict entries => writeEntries write values field entries
    | _ => throw .unsupported
  Sink.writeMapEnd

def writeUnion [Sink σ] (registry : Registry) (depth : Nat) (write : Writer σ) (schema field : Json)
    (datum : Datum) : WriteM σ Unit := do
  let (index, value) ← WriteM.lift (Branch.choose registry depth schema field datum)
  let branch ← WriteM.lift (Schema.documentItemAt schema index)
  Sink.writeIndex (.int index)
  write value branch field

/-- Whether a name is absent from a value: as a key, as an item, or within a text. Arrays and
objects cannot be keys. -/
def isAbsent (name : Json) : Datum → Outcome Bool
  | .dict entries =>
    match name with
    | .arr _ => .error (.wrongType [])
    | .obj _ => .error (.wrongType [])
    | _ => .ok (Validation.valueUnder? entries name).isNone
  | .list items => .ok !(items.any fun item => item.sameAsJson name)
  | .tuple items => .ok !(items.any fun item => item.sameAsJson name)
  | .str text =>
    match name with
    | .str word => .ok !(Text.occursIn word.toList text.toList)
    | _ => .error (.wrongType [])
  | _ => .error (.wrongType [])

/-- A field may be absent if it has a default, or if its type mentions the null type. -/
def checkPresence (members : List (String × Json)) (name : Json) (datum : Datum) :
    Outcome Unit := do
  if ← isAbsent name datum then
    if !Members.has members "default" then
      if !(← Schema.mentions (← Schema.required members "type") "null") then throw (.noValue name)

def writeFields (write : Writer σ) (datum : Datum) : List Json → WriteM σ Unit
  | [] => pure ()
  | .obj members :: rest => do
    let name ← WriteM.lift (Schema.required members "name")
    WriteM.lift (checkPresence members name datum)
    match datum with
    | .dict entries =>
      let value := Validation.fieldValue entries name ((Members.get? members "default").getD .null)
      let type ← WriteM.lift (Schema.required members "type")
      write value type name
    | _ => throw .unsupported
    writeFields write datum rest
  | _ :: _ => throw (.wrongType [])

def writeRecord (write : Writer σ) (schema : Json) (datum : Datum) : WriteM σ Unit := do
  let fields ← WriteM.lift (Schema.attributeOf schema "fields")
  writeFields write datum (← WriteM.lift (Schema.iterate fields))

def writeKind [Sink σ] (registry : Registry) (depth : Nat) (write : Writer σ) (schema field : Json)
    (datum : Datum) :
    Kind → WriteM σ Unit
  | .null => Sink.writeNull
  | .boolean => Sink.writeBoolean datum
  | .string => Sink.writeText datum
  | .int => Sink.writeInt datum
  | .long => Sink.writeLong datum
  | .float => Sink.writeFloat datum
  | .double => Sink.writeDouble datum
  | .bytes => Sink.writeBytes datum
  | .fixed => Sink.writeFixed datum
  | .enum => do
    let symbols ← WriteM.lift (Schema.attributeOf schema "symbols")
    let index ← WriteM.lift (Schema.symbolIndex symbols datum)
    Sink.writeEnum (.int index)
  | .array => writeArray write schema field datum
  | .map => writeMap write schema field datum
  | .union => writeUnion registry depth write schema field datum
  | .errorUnion => writeUnion registry depth write schema field datum
  | .record => writeRecord write schema datum
  | .error => writeRecord write schema datum
  | .request => throw .missingKey
  | .named _ => throw .missingKey
  | .foreign _ => throw .missingKey

/-- A failure by type is told together with the field, if that has a name. -/
def onField (field : Json) (action : WriteM σ Unit) : WriteM σ Unit := fun state =>
  match action state with
  | .error (.wrongType fields) after =>
    .error (.wrongType (if field.truthy then fields ++ [field.displayed] else fields)) after
  | result => result

def write [Sink σ] (registry : Registry) : Nat → Writer σ
  | 0, _, _, _ => throw .tooDeep
  | depth + 1, given, schema, field => do
    let type ← WriteM.lift (Schema.typeOf schema)
    let kind ← WriteM.lift (Kind.ofType type)
    match kind with
    | .named name =>
      write registry depth given (← WriteM.lift (Schema.resolve registry name)) (.str "")
    | .request =>
      write registry depth given (← WriteM.lift (Schema.resolve registry "request")) (.str "")
    | .foreign _ => throw .missingKey
    | kind =>
      let datum ← WriteM.lift (Logical.prepareFor schema given)
      onField field (writeKind registry depth (write registry depth) schema field datum kind)

/-- The bytes of a single value by a schema that is parsed first. -/
def single (schema : Json) (datum : Datum) : Outcome Bytes := do
  let (parsed, registry) ← Schema.parse {} [] schema
  match write registry Schema.depthLimit datum parsed (.str "") BinaryOutput.empty with
  | .ok _ output => return output.written
  | .error error _ => throw error

end Avro.Encode
