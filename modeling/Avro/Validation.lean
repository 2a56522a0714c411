import Avro.Logical
import Avro.Schema.Places

/-!
Contract: whether a schema accepts a value.

Owns: `Validation.check`, the check of a value against a parsed schema. It answers with a truth
value, or, in strict mode, fails with the refusals that it has met. Values of logical types are
prepared first, so a preparation that fails makes the check fail in either mode.
-/

namespace Avro.Validation

def allPass {α : Type} (test : α → Outcome Bool) : List α → Outcome Bool
  | [] => .ok true
  | item :: rest => do
    if ← test item then allPass test rest else return false

/-- Tries branches up to the first one that passes, and collects the refusals before it. -/
def firstPass (test : Json → Outcome Bool) (refusals : List Refusal) :
    List Json → Outcome (Bool × List Refusal)
  | [] => .ok (false, refusals)
  | branch :: rest =>
    match test branch with
    | .ok true => .ok (true, refusals)
    | .ok false => firstPass test refusals rest
    | .error (.refused found) => firstPass test (refusals ++ found) rest
    | .error error => .error error

/-- The name by which a value may choose a branch: that of a record, else the branch itself. -/
def branchName (branch : Json) : Outcome Json := do
  if ← Schema.isRecord branch then Schema.attributeOf branch "name" else return branch

def findBranch (name : Datum) : List Json → Outcome (Option (Nat × Json))
  | [] => .ok none
  | branch :: rest => do
    if name.sameAsJson (← branchName branch) then return some (0, branch)
    return (← findBranch name rest).map fun (index, found) => (index + 1, found)

def fitsBits (bits : Nat) (value : Int) : Bool :=
  -(Nat.pow 2 (bits - 1)) ≤ value && value < Nat.pow 2 (bits - 1)

def sequenceItems? : Datum → Option (List Datum)
  | .str _ => none
  | .dict _ => none
  | datum => datum.iterated?

structure FieldView where
  name : Json
  default : Json
  type : Json

def fieldView : Json → Outcome FieldView
  | .obj members => do
    let name ← Schema.keyOf (← Schema.required members "name")
    let type ← Schema.required members "type"
    return ⟨name, (Members.get? members "default").getD .null, type⟩
  | _ => .error (.wrongType [])

/-- The value under the name of a field; a name that is no text is compared by value. -/
def valueUnder? (entries : List (Datum × Datum)) : Json → Option Datum
  | .str key => Datum.lookup entries key
  | name => (entries.find? fun entry => entry.1.sameAsJson name).map Prod.snd

def fieldValue (entries : List (Datum × Datum)) (name default : Json) : Datum :=
  match valueUnder? entries name with
  | some value => value
  | none => Datum.ofJson default

/-- A check of a value against a schema node, at a place that a field names. -/
abbrev Checker := Datum → Json → Json → Outcome Bool

def checkFixed (schema : Json) : Datum → Outcome Bool
  | .bytes content => do return (← Schema.attributeOf schema "size").same (.int content.length)
  | _ => .ok false

def checkArray (checkItem : Checker) (schema field : Json) (datum : Datum) : Outcome Bool :=
  match sequenceItems? datum with
  | some items =>
    allPass (fun item => do checkItem item (← Schema.attributeOf schema "items") field) items
  | none => .ok false

def isText : Datum → Bool
  | .str _ => true
  | _ => false

def checkMap (checkItem : Checker) (schema field : Json) : Datum → Outcome Bool
  | .dict entries =>
    if entries.all fun entry => isText entry.1 then
      allPass (fun entry => do checkItem entry.2 (← Schema.attributeOf schema "values") field)
        entries
    else .ok false
  | _ => .ok false

/-- A union accepts what one of its branches accepts; a pair of a name and a value chooses its
branch. -/
def checkUnion (strict : Bool) (checkItem : Checker) (schema field : Json) (datum : Datum) :
    Outcome Bool := do
  match datum with
  | .tuple [name, value] =>
    match ← findBranch name (← Schema.iterate schema) with
    | some (_, branch) => checkItem value branch field
    | none => return false
  | .tuple _ => throw .invalid
  | _ =>
    let (passed, refusals) ← firstPass (fun branch => checkItem datum branch field) []
      (← Schema.iterate schema)
    if !passed && strict then throw (.refused refusals)
    return passed

/-- A record type accepts mappings in which every field has a value or a default that its type
accepts. -/
def checkRecord (checkItem : Checker) (schema field : Json) (datum : Datum) : Outcome Bool := do
  let (_, name) ← Schema.qualifiedName schema field
  match datum with
  | .dict entries =>
    let fields ← Schema.iterate (← Schema.attributeOf schema "fields")
    allPass (fun node => do
      let view ← fieldView node
      checkItem (fieldValue entries view.name view.default) view.type
        (.str (name.displayed ++ "." ++ view.name.displayed))) fields
  | _ => return false

def checkKind (registry : Registry) (strict : Bool) (checkItem : Checker) (schema field : Json)
    (datum : Datum) :
    Kind → Outcome Bool
  | .null => .ok (match datum with | .null => true | _ => false)
  | .boolean => .ok (match datum with | .bool _ => true | _ => false)
  | .string => .ok (isText datum)
  | .bytes => .ok datum.byteContent?.isSome
  | .int => .ok (match datum with | .int value => fitsBits 32 value | _ => false)
  | .long => .ok (match datum with | .int value => fitsBits 64 value | _ => false)
  | .float => .ok (match datum with | .int _ => true | .float _ => true | _ => false)
  | .double => .ok (match datum with | .int _ => true | .float _ => true | _ => false)
  | .fixed => checkFixed schema datum
  | .enum => do Schema.isSymbol (← Schema.attributeOf schema "symbols") datum
  | .array => checkArray checkItem schema field datum
  | .map => checkMap checkItem schema field datum
  | .union => checkUnion strict checkItem schema field datum
  | .errorUnion => checkUnion strict checkItem schema field datum
  | .record => checkRecord checkItem schema field datum
  | .error => checkRecord checkItem schema field datum
  | .request => checkRecord checkItem schema field datum
  | .named name =>
    match Members.get? registry name with
    | some definition => checkItem datum definition field
    | none => .error (.unknownType (.str name))
  | .foreign value => .error (.unknownType value)

/-- Checks a value against a parsed schema node. The field names the place of the value, or is
null. -/
def check (registry : Registry) (strict : Bool) : Nat → Checker
  | 0, _, _, _ => .error .tooDeep
  | depth + 1, given, schema, field => do
    let type ← Schema.typeOf schema
    let datum ← Logical.prepareFor schema given
    let kind ← Kind.ofType type
    let passed ← checkKind registry strict (check registry strict depth) schema field datum kind
    if strict && !passed then throw (Refusal.error ⟨datum, schema, field⟩)
    return passed

def validate (schema : Json) (datum : Datum) (field : Json) (strict : Bool) : Outcome Bool := do
  let (parsed, registry) ← Schema.parse { force := true } [] schema
  check registry strict Schema.depthLimit datum parsed field

/-- Checks values one by one, and collects the refusals of all of them. -/
def checkAll (test : Datum → Outcome Bool) : List Datum → Outcome (Bool × List Refusal)
  | [] => .ok (true, [])
  | datum :: rest =>
    match test datum with
    | .ok passed => do
      let (others, refusals) ← checkAll test rest
      return (passed && others, refusals)
    | .error (.refused found) => do
      let (others, refusals) ← checkAll test rest
      return (others, found ++ refusals)
    | .error error => .error error

def validateMany (schema : Json) (records : Datum) (strict : Bool) : Outcome Bool := do
  let (parsed, registry) ← Schema.parse { force := true } [] schema
  match records.iterated? with
  | none => throw (.wrongType [])
  | some data =>
    let (passed, refusals) ← checkAll
      (fun datum => check registry strict Schema.depthLimit datum parsed .null) data
    if strict && !refusals.isEmpty then throw (.refused refusals)
    return passed

end Avro.Validation
