import Avro.Datum.Document
import Avro.Encode.Sink
import Avro.JsonEncoding.Grammar
import Avro.Schema.Places

/-!
Contract: the JSON encoding as an output.

Owns: the values under construction, and the lines that are written at the end, one for each record.

Values are taken as they are: that they can be written as JSON shows only at the end.
-/

namespace Avro.JsonEncoding

structure Draft where
  /-- The collections around the current one, innermost first, each with the key that was set in
  it. -/
  enclosing : List (Datum × Datum)
  /-- The collection that is being filled: a mapping, a list, or null outside of both. -/
  current : Datum
  /-- The key that was set last, or null. -/
  key : Datum
  /-- The finished records. -/
  records : List Datum
  text : String
deriving Repr, Inhabited

abbrev Output := Walk Draft

namespace Draft

def empty : Draft := ⟨[], .null, .null, [], ""⟩

def sameKey (left right : Datum) : Bool :=
  match left, right with
  | .str first, .str second => first == second
  | .null, .null => true
  | .bytes first, .bytes second => first == second
  | .float first, .float second => first.same second
  | _, _ => left.integral?.isSome && left.integral? == right.integral?

def setEntry (entries : List (Datum × Datum)) (key value : Datum) : List (Datum × Datum) :=
  match entries with
  | [] => [(key, value)]
  | (own, old) :: rest =>
    if sameKey own key then (own, value) :: rest else (own, old) :: setEntry rest key value

def isKey : Datum → Bool
  | .list _ => false
  | .dict _ => false
  | .buffer _ => false
  | _ => true

/-- A collection after one more value, under a key if it is a mapping. -/
def extend (collection key value : Datum) : Outcome Datum :=
  match collection with
  | .dict entries =>
    if isKey key then .ok (.dict (setEntry entries key value)) else .error (.wrongType [])
  | .list items => .ok (.list (items ++ [value]))
  | _ => .error .assertion

/-- Writes a value into the current collection; outside of collections it is a record. -/
def writeValue (value : Datum) : EStateM Error Draft Unit := do
  let draft ← get
  match draft.current with
  | .null => set { draft with records := draft.records ++ [value] }
  | current =>
    let isMapping := match current with
      | .dict _ => true
      | _ => false
    if isMapping && !draft.key.truthy then throw .keyNotSet
    match extend current draft.key value with
    | .ok extended => set { draft with current := extended }
    | .error error => throw error

def push (collection : Datum) : EStateM Error Draft Unit :=
  modify fun draft =>
    { draft with enclosing := (draft.current, draft.key) :: draft.enclosing, current := collection }

def pop : EStateM Error Draft Unit := do
  let draft ← get
  match draft.enclosing with
  | [] => throw .indexOutOfRange
  | (.null, key) :: rest =>
    set { draft with enclosing := rest }
    match key with
    | .null => set { draft with
        enclosing := rest, records := draft.records ++ [draft.current], current := .null,
        key := .null }
    | _ => throw .assertion
  | (outer, key) :: rest =>
    set { draft with enclosing := rest }
    match extend outer key draft.current with
    | .ok extended => set { draft with enclosing := rest, current := extended }
    | .error error => throw error

def setKey (key : Datum) : EStateM Error Draft Unit := modify fun draft => { draft with key := key }

def writeLines : EStateM Error Draft Unit := do
  let draft ← get
  match draft.records.mapM fun record => do
    return (← record.plainDocument).print Json.Layout.line with
  | .ok lines => set { draft with text := draft.text ++ String.intercalate "\n" lines }
  | .error error => throw error

def perform : Symbol → EStateM Error Draft Unit
  | .recordStart _ => push (.dict [])
  | .recordEnd => pop
  | .unionEnd => pop
  | .fieldStart name => setKey (Datum.ofJson name)
  | .fieldEnd => pure ()
  | .root => writeLines
  | symbol => throw (.unwritableAction symbol.name)

end Draft

namespace Output

def ofGrammar (start : Symbol) : Output := Walk.ofGrammar start Draft.empty

def advance (wanted : Terminal) : WriteM Output Unit := do
  let _ ← WalkM.advance Draft.perform wanted

def writeScalar (kind : Terminal) (value : Datum) : WriteM Output Unit := do
  advance kind
  WalkM.onContent (Draft.writeValue value)

def writeText (value : Datum) : WriteM Output Unit := do
  advance .string
  if ← WalkM.isNext .mapKeyMarker then
    advance .mapKeyMarker
    WalkM.onContent (Draft.setKey value)
  else WalkM.onContent (Draft.writeValue value)

def writeOctets (kind : Terminal) (value : Datum) : WriteM Output Unit := do
  advance kind
  match value.byteContent? with
  | some content => WalkM.onContent (Draft.writeValue (.str (Text.decodeLatin1 content)))
  | none => throw .unsupported

def placeOf : Datum → Outcome Int
  | .int place => .ok place
  | .bool value => .ok (if value then 1 else 0)
  | _ => .error (.wrongType [])

def writeEnum (index : Datum) : WriteM Output Unit := do
  advance .enum
  let labels ← match ← WalkM.next with
    | .enumLabels labels => pure labels
    | .alternative _ labels _ => pure (.arr labels)
    | _ => throw .unsupported
  let place ← WriteM.lift (placeOf index)
  let label ← WriteM.lift (Schema.documentItemAt labels place)
  WalkM.onContent (Draft.writeValue (Datum.ofJson label))

/-- Writes the choice of a union branch: null stands by itself, any other value under the label of
its branch. -/
def writeIndex (index : Datum) : WriteM Output Unit := do
  advance .union
  match ← WalkM.next with
  | .alternative branches labels _ =>
    let place ← WriteM.lift (placeOf index)
    let branch ← WriteM.lift (Schema.itemAt branches place)
    if !branch.isTerminal .null then
      WalkM.onContent (Draft.push (.dict []))
      let label ← WriteM.lift (Schema.itemAt labels place)
      WalkM.onContent (Draft.setKey (Datum.ofJson label))
      WalkM.prepend [.unionEnd]
    WalkM.prepend [branch]
  | _ => throw .unsupported

def flush : WriteM Output Unit := do WalkM.finish Draft.perform (← get).pending

instance : Sink Output where
  writeNull := writeScalar .null .null
  writeBoolean := writeScalar .boolean
  writeInt := writeScalar .int
  writeLong := writeScalar .long
  writeFloat := writeScalar .float
  writeDouble := writeScalar .double
  writeBytes := writeOctets .bytes
  writeText := writeText
  writeFixed := writeOctets .fixed
  writeEnum := writeEnum
  writeArrayStart := do
    advance .arrayStart
    WalkM.onContent (Draft.push (.list []))
  writeItemCount _ := pure ()
  writeItemEnd := advance .itemEnd
  writeArrayEnd := do
    advance .arrayEnd
    WalkM.onContent Draft.pop
  writeMapStart := do
    advance .mapStart
    WalkM.onContent (Draft.push (.dict []))
  writeMapEnd := do
    advance .mapEnd
    WalkM.onContent Draft.pop
  writeIndex := writeIndex

end Output

end Avro.JsonEncoding
