import Avro.Decode.Source
import Avro.JsonEncoding.Grammar
import Avro.Schema.Places

/-!
Contract: the JSON encoding as an input.

Owns: the documents that are read, one for each record, and what is left of them.

Collections are used up while they are read: an array loses its items, a map its entries, an object
the collections that are entered. The default of a field is used up in the same way, and stays so
for all later records.
-/

namespace Avro.JsonEncoding

structure Held where
  value : Json
  /-- The field of which the document is the default, if it is one. -/
  origin : Option Slot
  /-- The keys under which defaults were put into the document. -/
  lent : List (String × Slot)
deriving Repr, Inhabited

/-- A document that is put aside while another one is current. -/
inductive Saved where
  /-- The current document itself. -/
  | same
  | outer (held : Held)
deriving Repr, Inhabited

structure Remainder where
  /-- The documents after the current one. -/
  rest : List Json
  /-- The current document; there is none in an empty input. -/
  current : Option Held
  /-- The key that was set last, or null. -/
  key : Json
  /-- The documents put aside, innermost first, each with the key that was set then. -/
  saved : List (Saved × Json)
  isDone : Bool
  /-- What is left of defaults that have been used. -/
  used : List (Slot × Json)
deriving Repr, Inhabited

abbrev Input := Walk Remainder

abbrev RemainderM := EStateM Error Remainder

namespace Held

def ofJson (value : Json) : Held := ⟨value, none, []⟩

end Held

namespace RemainderM

def lift {α : Type} : Outcome α → RemainderM α
  | .ok value => pure value
  | .error error => throw error

def current : RemainderM Held := do
  match (← get).current with
  | some held => return held
  | none => throw .unsupported

def remember (used : List (Slot × Json)) (slot : Slot) (value : Json) : List (Slot × Json) :=
  match used with
  | [] => [(slot, value)]
  | (own, old) :: rest =>
    if own = slot then (slot, value) :: rest else (own, old) :: remember rest slot value

/-- Notes a change of a document; a default stays changed. -/
def note (held : Held) : RemainderM Unit :=
  match held.origin with
  | some slot =>
    modify fun remainder => { remainder with used := remember remainder.used slot held.value }
  | none => pure ()

def change (held : Held) : RemainderM Unit := do
  note held
  modify fun remainder => { remainder with current := some held }

/-- Goes from a document, in its changed form, to a part of it. If the document has been put aside,
it is the changed form that comes back. -/
def descend (changed part : Held) : RemainderM Unit := do
  note changed
  modify fun remainder =>
    { remainder with
      current := some part
      saved := match remainder.saved with
        | (.same, key) :: rest => (.outer changed, key) :: rest
        | saved => saved }

def useDefault : Option Default → RemainderM Held
  | none => throw .valueMissing
  | some default => do
    match (← get).used.lookup default.slot with
    | some value => return ⟨value, some default.slot, []⟩
    | none => return ⟨default.value, some default.slot, []⟩

def member? (members : List (String × Json)) : Json → Outcome (Option (String × Json))
  | .str key => .ok ((Members.get? members key).map fun value => (key, value))
  | .arr _ => .error (.wrongType [])
  | .obj _ => .error (.wrongType [])
  | _ => .ok none

/-- The value of a scalar: the member under the key, or else the default; outside of objects the
document itself. -/
def readValue (default : Option Default) : RemainderM Json := do
  let held ← current
  match held.value with
  | .obj members =>
    match ← lift (member? members (← get).key) with
    | some (_, value) => return value
    | none => return (← useDefault default).value
  | value => return value

/-- Puts the current document aside. If it is an object and a key is set, the member under the key
is taken out of the object and becomes current; a member that is missing is replaced by the
default. -/
def push (default : RemainderM Held) : RemainderM Unit := do
  let held ← current
  modify fun remainder => { remainder with saved := (.same, remainder.key) :: remainder.saved }
  match held.value, (← get).key with
  | .obj _, .null => pure ()
  | .obj members, key =>
    match ← lift (member? members key) with
    | some (name, value) =>
      descend ⟨.obj (Members.erase members name), held.origin, held.lent⟩
        ⟨value, held.lent.lookup name, []⟩
    | none => descend held (← default)
  | _, _ => pure ()

def pop : RemainderM Unit := do
  let remainder ← get
  match remainder.saved with
  | [] => throw .indexOutOfRange
  | (.same, key) :: rest => set { remainder with saved := rest, key := key }
  | (.outer held, key) :: rest =>
    set { remainder with saved := rest, key := key, current := some held }

def setKey (key : Json) : RemainderM Unit := modify fun remainder => { remainder with key := key }

def perform : Symbol → RemainderM Unit
  | .recordStart default => push (useDefault default)
  | .recordEnd => pop
  | .fieldStart name => setKey name
  | .fieldEnd => pure ()
  | .unionEnd => pure ()
  | symbol => throw (.unexpectedAction symbol.name)

def advanceLine : RemainderM Unit := do
  let remainder ← get
  match remainder.rest with
  | [] => set { remainder with isDone := true }
  | next :: rest =>
    set { remainder with rest := rest, current := some (.ofJson next), key := .null }

def sizeOf : Json → Outcome Nat
  | .arr items => .ok items.length
  | .obj members => .ok members.length
  | .str text => .ok text.length
  | _ => .error (.wrongType [])

def hasMore : RemainderM Bool := do
  return (← lift (sizeOf (← current).value)) > 0

/-- Puts the current array aside and takes its first item. -/
def enterItem : RemainderM Unit := do
  push (throw .unsupported)
  let held ← current
  match held.value with
  | .arr (item :: rest) => descend { held with value := .arr rest } (.ofJson item)
  | .arr [] => throw .indexOutOfRange
  | .obj _ => throw .missingKey
  | _ => throw .unsupported

def withoutItem (items : List Json) (place : Int) : Outcome (List Json) := do
  let _ ← Schema.itemAt items place
  return items.eraseIdx (if place < 0 then place + items.length else place).toNat

def removeEntry : RemainderM Unit := do
  let held ← current
  match held.value, (← get).key with
  | .obj members, key =>
    match ← lift (member? members key) with
    | some (name, _) => change { held with value := .obj (Members.erase members name) }
    | none => throw .missingKey
  | .arr items, .int place => change { held with value := .arr (← lift (withoutItem items place)) }
  | .arr items, .bool value =>
    change { held with value := .arr (← lift (withoutItem items (if value then 1 else 0))) }
  | _, _ => throw (.wrongType [])

def takeKey : RemainderM Unit := do
  match (← current).value with
  | .obj members =>
    match members with
    | (key, _) :: _ => setKey (.str key)
    | [] => pure ()
  | .arr items =>
    match items with
    | item :: _ => setKey item
    | [] => pure ()
  | .str text =>
    match text.toList with
    | character :: _ => setKey (.str (String.ofList [character]))
    | [] => pure ()
  | _ => throw (.wrongType [])

def splitLast : Json → Outcome ((String × Json) × Json)
  | .obj members =>
    match members.getLast? with
    | some member => .ok (member, .obj members.dropLast)
    | none => .error .missingKey
  | _ => .error .unsupported

def lacks (key : Json) : Json → Outcome Bool
  | .obj members => do return (← member? members key).isNone
  | .arr items => .ok !(items.any fun item => item.same key)
  | .str text =>
    match key with
    | .str word => .ok !(Text.occursIn word.toList text.toList)
    | _ => .error (.wrongType [])
  | _ => .error (.wrongType [])

/-- Puts the default of a union under the key of the current document: the label of the first
branch. -/
def lendDefault (labels : List Json) (default : Option Default) : RemainderM String := do
  let label ← lift (Schema.itemAt labels 0)
  let held ← useDefault default
  match label with
  | .arr _ => throw (.wrongType [])
  | .obj _ => throw (.wrongType [])
  | _ =>
    let whole ← current
    match whole.value, (← get).key with
    | .obj members, .str key =>
      let lent := match held.origin with
        | some slot => (key, slot) :: whole.lent
        | none => whole.lent
      change { whole with value := .obj (Members.set members key held.value), lent := lent }
      return label.displayed
    | _, _ => throw (.wrongType [])

/-- The label of a union value that is the current document itself, which is replaced by the
value. -/
def unwrapCurrent : RemainderM (Option String) := do
  let held ← current
  match held.value with
  | .null => return none
  | value =>
    let ((label, content), rest) ← lift (splitLast value)
    descend { held with value := rest } (.ofJson content)
    return some label

/-- The label of a union value under the key, where the value takes its place. -/
def unwrapMember (labels : List Json) (default : Option Default) : RemainderM (Option String) := do
  let whole ← current
  let key := (← get).key
  if ← lift (lacks key whole.value) then return some (← lendDefault labels default)
  else
    match whole.value with
    | .obj members =>
      match ← lift (member? members key) with
      | none => throw .missingKey
      | some (_, .null) => return none
      | some (name, value) =>
        let ((label, content), _) ← lift (splitLast value)
        change { whole with value := .obj (Members.set members name content) }
        return some label
    | _ => throw (.wrongType [])

end RemainderM

namespace Input

def ofDocuments (start : Symbol) (documents : List Json) : Input :=
  Walk.ofGrammar start <| match documents with
    | [] => ⟨[], none, .null, [], true, []⟩
    | first :: rest => ⟨rest, some (.ofJson first), .null, [], false, []⟩

def advance (wanted : Terminal) : ReadM Input (Option Default) :=
  WalkM.advance RemainderM.perform wanted

def readScalar (kind : Terminal) : ReadM Input Datum := do
  let default ← advance kind
  return Datum.ofJson (← WalkM.onContent (RemainderM.readValue default))

def readText : ReadM Input Datum := do
  let default ← advance .string
  if ← WalkM.isNext .mapKeyMarker then
    let _ ← advance .mapKeyMarker
    WalkM.onContent RemainderM.takeKey
    return Datum.ofJson (← get).content.key
  else return Datum.ofJson (← WalkM.onContent (RemainderM.readValue default))

def readOctets (kind : Terminal) : ReadM Input Datum := do
  let default ← advance kind
  match ← WalkM.onContent (RemainderM.readValue default) with
  | .str text =>
    match Text.encodeLatin1? text with
    | some content => return .bytes content
    | none => throw .notLatin1
  | _ => throw .unsupported

def readEnum : ReadM Input Int := do
  let default ← advance .enum
  let symbol ← WalkM.next
  let label ← WalkM.onContent (RemainderM.readValue default)
  match symbol with
  | .enumLabels labels => return (← ReadM.lift (Schema.symbolIndex labels (Datum.ofJson label)))
  | .alternative _ labels _ =>
    return (← ReadM.lift (Schema.symbolIndex (.arr labels) (Datum.ofJson label)))
  | _ => throw .unsupported

def readLabel (labels : List Json) (default : Option Default) : ReadM Input String := do
  let found ← match (← get).content.key with
    | .null => WalkM.onContent RemainderM.unwrapCurrent
    | _ => WalkM.onContent (RemainderM.unwrapMember labels default)
  match found with
  | none => return "null"
  | some label =>
    WalkM.prepend [.unionEnd]
    return label

def readIndex : ReadM Input Int := do
  let _ ← advance .union
  match ← WalkM.next with
  | .alternative branches labels default =>
    let label ← readLabel labels default
    let index ← ReadM.lift (Schema.symbolIndex (.arr labels) (.str label))
    let branch ← ReadM.lift (Schema.itemAt branches index)
    WalkM.prepend [branch]
    return index
  | _ => throw .unsupported

/-- Goes to the next item of an array, after the one before has been read, if there was one: whether
there is one. -/
def nextItem (started : Bool) : ReadM Input Bool := do
  if started then
    WalkM.onContent RemainderM.pop
    let _ ← advance .itemEnd
  let more ← WalkM.onContent RemainderM.hasMore
  if more then WalkM.onContent RemainderM.enterItem
  return more

/-- Goes to the next entry of a map, after the one before has been read, if there was one: whether
there is one. -/
def nextEntry (started : Bool) : ReadM Input Bool := do
  if started then WalkM.onContent RemainderM.removeEntry
  WalkM.onContent RemainderM.hasMore

def collect {α : Type} (next : Bool → ReadM Input Bool) (step : ReadM Input α) (started : Bool) :
    Nat → ReadM Input (List α)
  | 0 => throw .tooDeep
  | fuel + 1 => do
    if ← next started then
      let item ← step
      return item :: (← collect next step true fuel)
    else return []

def currentSize : ReadM Input Nat := do
  match (← get).content.current with
  | some held =>
    match RemainderM.sizeOf held.value with
    | .ok size => return size
    | .error _ => return 0
  | none => return 0

def drain : ReadM Input Unit := do
  WalkM.drain RemainderM.perform
  WalkM.onContent RemainderM.advanceLine

def readStart (kind : Terminal) : ReadM Input Unit := do
  let default ← advance kind
  WalkM.onContent (RemainderM.push (RemainderM.useDefault default))

def readEnd (kind : Terminal) : ReadM Input Unit := do
  let _ ← advance kind
  WalkM.onContent RemainderM.pop

instance : Source Input where
  readNull := readScalar .null
  readBoolean := readScalar .boolean
  readInt := readScalar .int
  readLong := readScalar .long
  readFloat := readScalar .float
  readDouble := readScalar .double
  readBytes := readOctets .bytes
  readText := readText
  readFixed _ := readOctets .fixed
  readEnum := readEnum
  readArrayStart := do
    readStart .arrayStart
    WalkM.onContent (RemainderM.setKey .null)
  readItems step := do collect nextItem step false ((← currentSize) + 1)
  readArrayEnd := readEnd .arrayEnd
  readMapStart := readStart .mapStart
  readEntries step := do collect nextEntry step false ((← currentSize) + 1)
  readMapEnd := readEnd .mapEnd
  readIndex := readIndex

end Input

end Avro.JsonEncoding
