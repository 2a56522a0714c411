import Avro.Calendar
import Avro.Json.Basic
import Avro.Number.Decimal
import Avro.Text.Basic

/-!
Contract: the values that are written and read.

Owns: the value type, the embedding of JSON documents, lookup in mappings, and equality by value.

Values are dynamic: which of them a schema accepts is decided by the schema. A mapping keeps the
order of its entries, and its keys are values themselves, though records and maps have strings as
keys.
-/

namespace Avro

inductive Datum where
  | null
  | bool (value : Bool)
  | int (value : Int)
  | float (value : Double)
  | str (text : String)
  | bytes (content : Bytes)
  /-- A byte string that its holder may change in place. -/
  | buffer (content : Bytes)
  | list (items : List Datum)
  | tuple (items : List Datum)
  | dict (entries : List (Datum × Datum))
  | decimal (value : Decimal)
  /-- A universally unique identifier, as a number of 128 bits. -/
  | uuid (value : Nat)
  | date (value : Date)
  /-- A time of day; `offset` counts the seconds east of universal time, if known. -/
  | time (value : TimeOfDay) (offset : Option Int)
  | dateTime (value : DateTime)
deriving Repr, Inhabited

namespace Datum

mutual

def ofJson : Json → Datum
  | .null => .null
  | .bool value => .bool value
  | .int value => .int value
  | .float value => .float value
  | .str text => .str text
  | .arr items => .list (ofJsonItems items)
  | .obj members => .dict (ofJsonMembers members)

def ofJsonItems : List Json → List Datum
  | [] => []
  | item :: rest => ofJson item :: ofJsonItems rest

def ofJsonMembers : List (String × Json) → List (Datum × Datum)
  | [] => []
  | (key, value) :: rest => (.str key, ofJson value) :: ofJsonMembers rest

end

def lookup (entries : List (Datum × Datum)) (key : String) : Option Datum :=
  match entries with
  | [] => none
  | (.str text, value) :: rest => if text = key then some value else lookup rest key
  | _ :: rest => lookup rest key

/-- Gives a string key a value: a key that is present keeps its place, a new one comes last. -/
def insert (entries : List (Datum × Datum)) (key : String) (value : Datum) : List (Datum × Datum) :=
  match entries with
  | [] => [(.str key, value)]
  | (.str text, old) :: rest =>
    if text = key then (.str key, value) :: rest else (.str text, old) :: insert rest key value
  | entry :: rest => entry :: insert rest key value

/-- Whether the value counts as true in a test: neither null, zero, nor empty. -/
def truthy : Datum → Bool
  | .null => false
  | .bool value => value
  | .int value => value != 0
  | .float value => !value.isZero
  | .str text => text != ""
  | .bytes content | .buffer content => !content.isEmpty
  | .list items | .tuple items => !items.isEmpty
  | .dict entries => !entries.isEmpty
  | .decimal (.finite _ digits _) => digits != 0
  | _ => true

/-- The integer that a value equals as a number; booleans count as zero and one. -/
def integral? : Datum → Option Int
  | .bool value => some (if value then 1 else 0)
  | .int value => some value
  | .float value => value.toInt?
  | .decimal (.finite negative digits exponent) =>
    let sign : Int := if negative then -1 else 1
    if exponent ≥ 0 then some (sign * digits * Nat.pow 10 exponent.toNat)
    else if digits % Nat.pow 10 (-exponent).toNat = 0 then
      some (sign * (digits / Nat.pow 10 (-exponent).toNat : Nat))
    else none
  | _ => none

/-- The items of a value over which an iteration goes: those of a sequence, the bytes of a byte
string, the characters of a text, the keys of a mapping. -/
def iterated? : Datum → Option (List Datum)
  | .list items => some items
  | .tuple items => some items
  | .dict entries => some (entries.map Prod.fst)
  | .bytes content => some (content.map fun byte => .int byte.toNat)
  | .buffer content => some (content.map fun byte => .int byte.toNat)
  | .str text => some (text.toList.map fun character => .str (String.ofList [character]))
  | _ => none

/-- Sizes and places are below this bound: whatever has items is held in memory. -/
def sizeLimit : Nat := 0x8000000000000000

def size? : Datum → Option Nat
  | .str text => some text.length
  | .bytes content => some content.length
  | .buffer content => some content.length
  | .list items => some items.length
  | .tuple items => some items.length
  | .dict entries => some entries.length
  | _ => none

def byteContent? : Datum → Option Bytes
  | .bytes content | .buffer content => some content
  | _ => none

mutual

def sameAsJson : Datum → Json → Bool
  | .null, .null => true
  | .str left, .str right => left == right
  | .float left, .float right => left.same right
  | .list left, .arr right => sameAsItems left right
  | .dict left, .obj right => left.length == right.length && sameAsMembers left right
  | .bool value, right => right.integral? == some (if value then 1 else 0)
  | .int value, right => right.integral? == some value
  | .float value, right => value.toInt?.isSome && right.integral? == value.toInt?
  | .decimal value, right =>
    (Datum.decimal value).integral?.isSome && right.integral? == (Datum.decimal value).integral?
  | _, _ => false

def sameAsItems : List Datum → List Json → Bool
  | [], [] => true
  | left :: lefts, right :: rights => sameAsJson left right && sameAsItems lefts rights
  | _, _ => false

def sameAsMembers : List (Datum × Datum) → List (String × Json) → Bool
  | [], _ => true
  | (.str key, left) :: rest, members =>
    match Members.get? members key with
    | some right => sameAsJson left right && sameAsMembers rest members
    | none => false
  | _ :: _, _ => false

end

end Datum

end Avro
