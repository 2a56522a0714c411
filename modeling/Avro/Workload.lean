import Avro.Codec.Installed
import Avro.Container.Writer
import Avro.Validation

/-!
Contract: workloads of a given size.

Owns: runs that put a number of generated records through the library and report on what came back.

A report is made of what was read, never of what was generated, so it shows whether the records have
survived.
-/

namespace Avro.Workload

def recordSchema (name : String) (fields : List Json) : Json :=
  .obj [("type", .str "record"), ("name", .str name), ("fields", .arr fields)]

def plainField (name type : String) : Json := .obj [("name", .str name), ("type", .str type)]

def greetingSchema : Json :=
  recordSchema "Greeting" [plainField "id" "long", plainField "text" "string"]

def greeting (index : Nat) : Datum :=
  .dict [(.str "id", .int index), (.str "text", .str ("hello-" ++ integerText index))]

def greetings (count : Nat) : List Datum := (List.range count).map greeting

def part (record : Datum) (name : String) : Outcome Datum :=
  match record with
  | .dict entries =>
    match Datum.lookup entries name with
    | some value => .ok value
    | none => .error .missingKey
  | _ => .error (.wrongType [])

def recordsIn (file : Bytes) (reader : Json) : Outcome (List Datum) := do
  let (opened, input) ← Container.ofBytes file reader false
  let series := opened.records Codec.installed input
  match series.failure with
  | none => return series.items
  | some error => throw error

def passedThroughFile (writer reader : Json) (records : List Datum) : Outcome (List Datum) := do
  let options : Container.WriterOptions := { sync := List.replicate Container.syncSize 0 }
  let stream ← Container.writeFile Codec.installed options writer (.list records)
    Container.Stream.empty
  recordsIn stream.content reader

def fileReading (count : Nat) : Outcome Datum := do
  let records ← passedThroughFile greetingSchema .null (greetings count)
  let first ← Schema.itemAt records 0
  let last ← Schema.itemAt records (-1)
  return .tuple [.int records.length, ← part first "id", ← part last "text"]

def passedThroughBytes (schema : Json) (record : Datum) : Outcome Datum := do
  return (← Decode.single schema .null false (← Encode.single schema record)).1

def singleValues (count : Nat) : Outcome Datum := do
  let numbers ← (greetings count).mapM fun record => do
    match ← part (← passedThroughBytes greetingSchema record) "id" with
    | .int number => return number
    | _ => throw (.wrongType [])
  return .int (numbers.foldl (· + ·) 0)

def measurementSchema : Json := recordSchema "Measurement" [plainField "level" "int"]

def revisedMeasurementSchema : Json :=
  recordSchema "Measurement" [plainField "level" "double",
    .obj [("name", .str "limit"), ("type", .str "int"), ("default", .int 99)]]

def resolution (count : Nat) : Outcome Datum := do
  let measurements := (List.range count).map fun (index : Nat) =>
    Datum.dict [(.str "level", .int index)]
  let records ← passedThroughFile measurementSchema revisedMeasurementSchema measurements
  let last ← Schema.itemAt records (-1)
  return .tuple [.int records.length, ← part last "limit", ← part last "level"]

def isRefused (checked : Outcome Bool) : Outcome Bool :=
  match checked with
  | .ok _ => .ok false
  | .error (.refused _) => .ok true
  | .error error => .error error

/-- Checks greetings, and a tenth as many records, but at least one, whose number is a text. The
report has whether all greetings pass, and how many strict checks refuse: one for each wrong record,
and one for all of them together. -/
def validation (count : Nat) : Outcome Datum := do
  let passed ← Validation.validateMany greetingSchema (.list (greetings count)) false
  let wrong := List.replicate (max 1 (count / 10))
    (Datum.dict [(.str "id", .str "one"), (.str "text", .str "")])
  let single ← wrong.filterM fun record =>
    isRefused (Validation.validate greetingSchema record .null true)
  let together ← isRefused (Validation.validateMany greetingSchema (.list wrong) true)
  return .tuple [.bool passed, .int (single.length + together.toNat)]

end Avro.Workload
