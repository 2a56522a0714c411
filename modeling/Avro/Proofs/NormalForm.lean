import Avro.Decode.Datum
import Avro.Encode.Datum
import Avro.Proofs.Depth

/-!
Contract: the form in which a written value comes back.

Owns: `normalForm`, a function of a schema and a value. Sequences become lists, byte strings of
either kind become byte strings, numbers become floating-point numbers of the schema's precision, a
value of a union takes the form of its branch, and a record has all fields of its schema in their
order, defaults in place of absent ones, and no others.

The depth bounds the unfolding of named types. A form that is found at some depth is found at every
greater one.
-/

namespace Avro

/-- Brings a value into the form of a schema node. -/
abbrev Former := Json → Datum → Outcome Datum

namespace Former

/-- A number becomes the nearest one of single precision. -/
def single (datum : Datum) : Outcome Datum := do
  match (← BinaryOutput.doubleOf datum).toBinary32? with
  | some pattern => return .float (Double.ofBinary32 pattern)
  | none => throw (BinaryOutput.singleFault datum)

def double (datum : Datum) : Outcome Datum := do
  return .float (← BinaryOutput.doubleOf datum)

def bytes (datum : Datum) : Outcome Datum :=
  match datum.byteContent? with
  | some content => .ok (.bytes content)
  | none => .error (.wrongType [])

/-- A sequence becomes the list of the forms of its items. -/
def array (form : Former) (schema : Json) (datum : Datum) : Outcome Datum :=
  match Validation.sequenceItems? datum with
  | some items => do
    return .list (← items.mapM fun item => do form (← Schema.attributeOf schema "items") item)
  | none => .error (.wrongType [])

/-- A mapping keeps its keys, and its values take their forms. -/
def map (form : Former) (schema : Json) : Datum → Outcome Datum
  | .dict entries => do
    let forms ← entries.mapM fun entry => do
      return (entry.1, ← form (← Schema.attributeOf schema "values") entry.2)
    return .dict (forms.foldl Decode.insertEntry [])
  | _ => .error (.wrongType [])

/-- A value of a union takes the form of the branch in which it is written. -/
def union (registry : Registry) (depth : Nat) (form : Former) (schema : Json) (datum : Datum) :
    Outcome Datum := do
  let (index, value) ← Branch.choose registry depth schema .null datum
  form (← Schema.documentItemAt schema index) value

/-- The forms of the fields of a record, from the entries of a mapping. -/
def field (form : Former) (entries : List (Datum × Datum)) (node : Json) :
    Outcome (Datum × Datum) := do
  let view ← Validation.fieldView node
  return (Datum.ofJson view.name, ← form view.type
    (Validation.fieldValue entries view.name view.default))

/-- A record has the fields of its schema, in their order. -/
def record (form : Former) (schema : Json) : Datum → Outcome Datum
  | .dict entries => do
    let forms ← (← Decode.fieldsOf schema).mapM (field form entries)
    return .dict (forms.foldl Decode.insertEntry [])
  | _ => .error (.wrongType [])

/-- The form of a value by a node of a built-in kind. -/
def kind (registry : Registry) (depth : Nat) (form : Former) (schema : Json) (datum : Datum) :
    Kind → Outcome Datum
  | .null | .boolean | .string | .int | .long | .enum => .ok datum
  | .float => single datum
  | .double => double datum
  | .bytes | .fixed => bytes datum
  | .array => array form schema datum
  | .map => map form schema datum
  | .union | .errorUnion => union registry depth form schema datum
  | .record | .error => record form schema datum
  | .named name => do form (← Schema.resolve registry name) datum
  | .request | .foreign _ => .error .missingKey

end Former

/-- The form in which a value comes back after it has been written by a schema. -/
def normalForm (registry : Registry) : Nat → Former
  | 0, _, _ => .error .tooDeep
  | depth + 1, schema, datum => do
    Former.kind registry depth (normalForm registry depth) schema datum (← Schema.kindOf schema)

/-! ### More depth -/

namespace Former

variable {form more : Former}

section

variable (deepens : ∀ schema datum, DeepensTo (form schema datum) (more schema datum))
include deepens

private theorem field_deepens (entries : List (Datum × Datum)) (node : Json) :
    DeepensTo (field form entries node) (field more entries node) := by
  apply FailsOr.bind (FailsOr.refl _)
  intro view
  apply FailsOr.bind (deepens view.type _)
  intro value
  exact FailsOr.refl _

private theorem union_deepens (registry : Registry) (depth : Nat) (schema : Json) (datum : Datum) :
    DeepensTo (union registry depth form schema datum)
      (union registry (depth + 1) more schema datum) := by
  apply FailsOr.bind (Branch.choose_deepens registry depth schema .null datum)
  intro chosen
  apply FailsOr.bind (FailsOr.refl _)
  intro branch
  exact deepens branch chosen.2

private theorem record_deepens (schema : Json) (datum : Datum) :
    DeepensTo (record form schema datum) (record more schema datum) := by
  cases datum with
  | dict entries =>
    apply FailsOr.bind (FailsOr.refl _)
    intro nodes
    apply FailsOr.bind (FailsOr.mapM (field_deepens deepens entries) nodes)
    intro forms
    exact FailsOr.refl _
  | _ => exact FailsOr.refl _

private theorem kind_deepens (registry : Registry) (depth : Nat) (schema : Json) (datum : Datum)
    (kind : Kind) :
    DeepensTo (Former.kind registry depth form schema datum kind)
      (Former.kind registry (depth + 1) more schema datum kind) := by
  cases kind with
  | array =>
    simp only [Former.kind, array]
    cases Validation.sequenceItems? datum with
    | none => exact FailsOr.refl _
    | some items =>
      refine FailsOr.bind (FailsOr.mapM ?_ items) fun forms => FailsOr.refl _
      intro item
      exact FailsOr.bind (FailsOr.refl _) fun node => deepens node item
  | map =>
    cases datum with
    | dict entries =>
      refine FailsOr.bind (FailsOr.mapM ?_ entries) fun forms => FailsOr.refl _
      intro entry
      apply FailsOr.bind (FailsOr.refl _)
      intro node
      exact FailsOr.bind (deepens node entry.2) fun value => FailsOr.refl _
    | _ => exact FailsOr.refl _
  | union | errorUnion => exact union_deepens deepens registry depth schema datum
  | record | error => exact record_deepens deepens schema datum
  | named name => exact FailsOr.bind (FailsOr.refl _) fun definition => deepens definition datum
  | _ => exact FailsOr.refl _

end

end Former

/-- One level more changes nothing but a failure for want of depth, by induction on the depth. -/
theorem normalForm_deepens (registry : Registry) (depth : Nat) (schema : Json) (datum : Datum) :
    DeepensTo (normalForm registry depth schema datum)
      (normalForm registry (depth + 1) schema datum) := by
  induction depth generalizing schema datum with
  | zero => exact Or.inl rfl
  | succ depth ih =>
    rw [normalForm, normalForm]
    apply FailsOr.bind (FailsOr.refl _)
    intro kind
    exact Former.kind_deepens ih registry depth schema datum kind

/-- A normal form found within a depth is found within every greater depth. -/
theorem normalForm_of_le {registry : Registry} {depth deeper : Nat} {schema : Json}
    {datum value : Datum} (found : normalForm registry depth schema datum = .ok value)
    (notLess : depth ≤ deeper) : normalForm registry deeper schema datum = .ok value := by
  induction notLess with
  | refl => exact found
  | step notLess ih => exact (normalForm_deepens registry _ schema datum).ok ih

end Avro
