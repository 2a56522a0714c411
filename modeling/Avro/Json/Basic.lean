import Avro.Number.Double

/-!
Contract: JSON documents whose objects keep the order of their members.

Owns: the document type, lookup and update of members, and equality of documents by value.

Schemas are JSON documents, and the order of their members shows in messages and written headers;
hence objects are lists of members. Documents built by this library hold each key of an object once.
-/

namespace Avro

/-- A JSON document. Integers and floating-point numbers are told apart. -/
inductive Json where
  | null
  | bool (value : Bool)
  | int (value : Int)
  | float (value : Double)
  | str (text : String)
  | arr (items : List Json)
  | obj (members : List (String × Json))
deriving Repr, Inhabited

abbrev Members := List (String × Json)

namespace Members

variable {α : Type}

def get? (members : List (String × α)) (key : String) : Option α :=
  match members with
  | [] => none
  | member :: rest => if member.1 = key then some member.2 else get? rest key

theorem sizeOf_lt_of_get? [SizeOf α] {members : List (String × α)} {key : String} {value : α}
    (found : get? members key = some value) : sizeOf value < sizeOf members := by
  induction members with
  | nil => simp [get?] at found
  | cons member rest inductionHypothesis =>
    obtain ⟨name, content⟩ := member
    unfold get? at found
    split at found
    · simp only [Option.some.injEq] at found
      subst found
      simp
      omega
    · have smaller := inductionHypothesis found
      simp
      omega

def has (members : List (String × α)) (key : String) : Bool := (get? members key).isSome

def set (members : List (String × α)) (key : String) (value : α) : List (String × α) :=
  match members with
  | [] => [(key, value)]
  | member :: rest => if member.1 = key then (key, value) :: rest else member :: set rest key value

def erase (members : List (String × α)) (key : String) : List (String × α) :=
  match members with
  | [] => []
  | member :: rest => if member.1 = key then rest else member :: erase rest key

def keys (members : List (String × α)) : List String := members.map Prod.fst

def union (members additions : List (String × α)) : List (String × α) :=
  additions.foldl (fun result member => set result member.1 member.2) members

end Members

namespace Json

def get? : Json → String → Option Json
  | .obj members, key => Members.get? members key
  | _, _ => none

def has (document : Json) (key : String) : Bool := (document.get? key).isSome

def set : Json → String → Json → Json
  | .obj members, key, value => .obj (Members.set members key value)
  | document, _, _ => document

def str? : Json → Option String
  | .str text => some text
  | _ => none

/-- Whether the document counts as true in a test: neither null, zero, nor empty. -/
def truthy : Json → Bool
  | .null => false
  | .bool value => value
  | .int value => value != 0
  | .float value => !value.isZero
  | .str text => text != ""
  | .arr items => !items.isEmpty
  | .obj members => !members.isEmpty

/-- The integer that a document equals as a number; booleans count as zero and one. -/
def integral? : Json → Option Int
  | .bool value => some (if value then 1 else 0)
  | .int value => some value
  | .float value => value.toInt?
  | _ => none

mutual

/-- Equality by value: numbers compare as numbers, and the order of members is immaterial. The
undefined number is one value, which equals itself. -/
def same : Json → Json → Bool
  | .null, .null => true
  | .str left, .str right => left == right
  | .arr left, .arr right => sameItems left right
  | .obj left, .obj right => left.length == right.length && sameMembers left right
  | .float left, .float right => left.same right || (left.isNaN && right.isNaN)
  | .bool left, right => right.integral? == some (if left then 1 else 0)
  | .int left, right => right.integral? == some left
  | .float left, right => left.toInt?.isSome && right.integral? == left.toInt?
  | _, _ => false

def sameItems : List Json → List Json → Bool
  | [], [] => true
  | left :: lefts, right :: rights => same left right && sameItems lefts rights
  | _, _ => false

def sameMembers : List (String × Json) → List (String × Json) → Bool
  | [], _ => true
  | (key, left) :: rest, members =>
    match Members.get? members key with
    | some right => same left right && sameMembers rest members
    | none => false

end

mutual

def allFloats (test : Double → Bool) : Json → Bool
  | .float value => test value
  | .arr items => allItemFloats test items
  | .obj members => allMemberFloats test members
  | _ => true
termination_by structural document => document

def allItemFloats (test : Double → Bool) : List Json → Bool
  | [] => true
  | item :: rest => allFloats test item && allItemFloats test rest
termination_by structural items => items

def allMemberFloats (test : Double → Bool) : List (String × Json) → Bool
  | [] => true
  | member :: rest => memberFloats test member && allMemberFloats test rest
termination_by structural members => members

def memberFloats (test : Double → Bool) : String × Json → Bool
  | (_, value) => allFloats test value
termination_by structural member => member

end

def isDefined (number : Double) : Bool := !number.isNaN

/-- Equality of documents that were read apart: an undefined number of the one is none of the
other. -/
def sameApart (left right : Json) : Bool := left.allFloats isDefined && left.same right

end Json

end Avro
