import Avro.Decode.Datum
import Avro.Encode.Datum
import Avro.Json.Parser
import Avro.JsonEncoding.Input
import Avro.JsonEncoding.Output
import Avro.Series
import Avro.Text.Basic

/-!
Contract: records as lines of JSON.

Owns: `JsonEncoding.write`, which writes records as lines, and `JsonEncoding.read`, which reads
them.
-/

namespace Avro.JsonEncoding

def writeRecord (validates : Bool) (schema : Json) (registry : Registry) (record : Datum) :
    WriteM Output Unit := do
  if validates then
    let _ ← WriteM.lift (Validation.check registry true Schema.depthLimit record schema .null)
  Encode.write registry Schema.depthLimit record schema (.str "")

def writeRecords (write : Datum → WriteM Output Unit) : List Datum → WriteM Output Unit
  | [] => pure ()
  | record :: rest => do
    write record
    writeRecords write rest

def write (validates : Bool) (schema : Json) (records : Datum) : Outcome String := do
  match records with
  | .dict _ => throw .recordsAreMapping
  | _ =>
    let (parsed, registry) ← Schema.parse {} [] schema
    let start ← grammar registry Schema.depthLimit none parsed
    let steps : WriteM Output Unit := do
      match records.iterated? with
      | some items => writeRecords (writeRecord validates parsed registry) items
      | none => throw (.wrongType [])
      Output.flush
    match steps (Output.ofGrammar start) with
    | .ok _ output => return output.content.text
    | .error error _ => throw error

def document (line : String) : Outcome Json :=
  match Json.parse? (Text.trimmed line) with
  | some value => .ok value
  | none => .error .malformedJson

def documents (text : String) : Outcome (List Json) := (Text.lines text).mapM document

/-- Reads records up to the end of the input. Every record takes a document. -/
def recordsFrom (readRecord : ReadM Input Datum) : Nat → Input → Series Datum
  | 0, _ => .ended
  | fuel + 1, input =>
    if input.content.isDone then .ended
    else
      match readRecord input with
      | .error error _ => .failed error
      | .ok record afterRecord =>
        Series.cons record <|
          match Input.drain afterRecord with
          | .error error _ => .failed error
          | .ok _ afterDrain => recordsFrom readRecord fuel afterDrain

def read (schema : Json) (text : String) : Outcome (Series Datum) := do
  let lines ← documents text
  let (parsed, registry) ← if schema.truthy then Schema.parse { mark := false } [] schema
    else pure (.null, [])
  let start ← grammar registry Schema.depthLimit none parsed
  return recordsFrom (Decode.read registry Schema.depthLimit parsed .null false) (lines.length + 1)
    (Input.ofDocuments start lines)

end Avro.JsonEncoding
