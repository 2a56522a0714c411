import Avro.Decode.Datum
import Avro.Encode.Datum
import Avro.Json.Parser

/-!
Contract: the head of a container file.

Owns: the magic bytes, the schema of the header, and its reading and writing.

A header holds the magic bytes, a map of metadata, and a marker that closes the header and every
block. The metadata tell the schema of the records, as JSON, and the codec.
-/

namespace Avro.Container

def magic : Bytes := [0x4f, 0x62, 0x6a, 0x01]

def syncSize : Nat := 16

def isContainer (data : Bytes) : Bool := data.take magic.length == magic

def fixedField (name : String) (size : Nat) : Json :=
  .obj [("name", .str name),
    ("type", .obj [("type", .str "fixed"), ("name", .str name), ("size", .int size)])]

def headerSchema : Json :=
  .obj [("type", .str "record"), ("name", .str "org.apache.avro.file.Header"),
    ("fields", .arr [fixedField "magic" magic.length,
      .obj [("name", .str "meta"), ("type", .obj [("type", .str "map"), ("values", .str "bytes")])],
      fixedField "sync" syncSize])]

structure Header where
  /-- Texts by name, in the order of the file. -/
  metadata : List (String × String)
  sync : Bytes
deriving DecidableEq, Repr, Inhabited

namespace Header

def decodeMetadata : List (Datum × Datum) → Outcome (List (String × String))
  | [] => .ok []
  | (.str key, .bytes content) :: rest => do
    match Text.decodeUtf8? content with
    | some text => return (key, text) :: (← decodeMetadata rest)
    | none => throw .notUtf8
  | _ :: _ => .error .missingKey

def ofDatum : Datum → Outcome Header
  | .dict entries =>
    match Datum.lookup entries "meta", Datum.lookup entries "sync" with
    | some (.dict metadata), some (.bytes sync) => do return ⟨← decodeMetadata metadata, sync⟩
    | _, _ => .error .missingKey
  | _ => .error .missingKey

/-- Data that ends where the header needs a value is no container file. -/
def orUnreadable {α : Type} (step : ReadM BinaryInput α) : ReadM BinaryInput α := fun input =>
  match step input with
  | .error .exhausted after => .error .headerUnreadable after
  | result => result

def read : ReadM BinaryInput Header := do
  let datum ← orUnreadable (Decode.read [] Schema.depthLimit headerSchema .null false)
  ReadM.lift (ofDatum datum)

def toDatum (header : Header) : Datum :=
  .dict [(.str "magic", .bytes magic),
    (.str "meta", .dict (header.metadata.map fun (key, text) =>
      (.str key, .bytes (Text.encodeUtf8 text)))),
    (.str "sync", .bytes header.sync)]

def write (header : Header) : WriteM BinaryOutput Unit :=
  Encode.write [] Schema.depthLimit header.toDatum headerSchema (.str "")

def text? (header : Header) (key : String) : Option String := header.metadata.lookup key

/-- The codec's name; a header without one means no compression. -/
def codec (header : Header) : String := (header.text? "avro.codec").getD "null"

def schema (header : Header) : Outcome Json :=
  match header.text? "avro.schema" with
  | none => .error .missingKey
  | some text =>
    match Json.parse? text with
    | some schema => .ok schema
    | none => .error .malformedJson

end Header

end Avro.Container
