import Avro.Schema.Basic

/-!
Contract: places in the lists of a schema, which are its branches and symbols.

Owns: the item at a place and the place of an item.
-/

namespace Avro.Schema

/-- An item of a list; a negative place counts from the end. -/
def itemAt {α : Type} (items : List α) (index : Int) : Outcome α :=
  let place := if index < 0 then index + items.length else index
  if place < 0 || place ≥ Datum.sizeLimit then .error .indexOutOfRange
  else
    match items[place.toNat]? with
    | some item => .ok item
    | none => .error .indexOutOfRange

def documentItemAt (document : Json) (index : Int) : Outcome Json :=
  match document with
  | .arr items => itemAt items index
  | .str text => do return .str (String.ofList [← itemAt text.toList index])
  | .obj _ => .error .missingKey
  | _ => .error (.wrongType [])

def isSymbol (symbols : Json) (datum : Datum) : Outcome Bool :=
  match symbols, datum with
  | .arr items, _ => .ok (items.any datum.sameAsJson)
  | .obj members, .str text => .ok (Members.has members text)
  | .obj _, .list _ => .error (.wrongType [])
  | .obj _, .dict _ => .error (.wrongType [])
  | .obj _, .buffer _ => .error (.wrongType [])
  | .obj _, _ => .ok false
  | .str text, .str word => .ok (Text.occursIn word.toList text.toList)
  | _, _ => .error (.wrongType [])

def foundPlace : Option Nat → Outcome Nat
  | some index => if index < Datum.sizeLimit then .ok index else .error .overflow
  | none => .error .invalid

def symbolIndex (symbols : Json) (datum : Datum) : Outcome Nat :=
  match symbols, datum with
  | .arr items, _ => foundPlace (items.findIdx? datum.sameAsJson)
  | .str text, .str word =>
    foundPlace
      ((List.range (text.length + 1)).find? fun index =>
        word.toList.isPrefixOf (text.toList.drop index))
  | .str _, _ => .error (.wrongType [])
  | _, _ => .error .unsupported

end Avro.Schema
