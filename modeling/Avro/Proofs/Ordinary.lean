import Avro.Decode.Datum
import Avro.Proofs.Steps
import Avro.Validation

/-!
Contract: what lookups and conversions do not fail with.

Owns: `Ordinary`, the outcomes that are neither a failure for want of depth nor a refusal, and that
the lookups and conversions which reading and checking make besides their parts are among them. The
lemmas are simplification rules: they take an operation apart into its lookups.
-/

namespace Avro

variable {α β : Type} {error : Error} {first : Outcome α} {writer reader : Json}

/-- A failure that is neither for want of depth nor a refusal. -/
@[simp] def Error.IsOrdinary (error : Error) : Prop :=
  error ≠ .tooDeep ∧ ∀ refusals, error ≠ .refused refusals

/-- An outcome whose failure, if it is one, is ordinary. -/
def Ordinary (outcome : Outcome α) : Prop := ∀ error, outcome = .error error → error.IsOrdinary

namespace Ordinary

@[simp] theorem ok (value : α) : Ordinary (.ok value) := nofun

@[simp] theorem pure (value : α) : Ordinary (Pure.pure value : Outcome α) := nofun

@[simp] theorem error_iff : Ordinary (.error error : Outcome α) ↔ error.IsOrdinary := by
  simp [Ordinary]

@[simp] theorem throw_iff : Ordinary (throw error : Outcome α) ↔ error.IsOrdinary := error_iff

/-- A sequence of steps is ordinary if every step that is reached is. -/
@[simp] theorem bind_iff {next : α → Outcome β} :
    Ordinary (first >>= next) ↔ Ordinary first ∧ ∀ value, first = .ok value →
    Ordinary (next value) := by
  cases first with
  | ok value => simp
  | error error => simp [Ordinary, bind, Except.bind]

@[simp] theorem ite_iff {condition : Prop} [Decidable condition] {second : Outcome α} :
    Ordinary (if condition then first else second) ↔
    (condition → Ordinary first) ∧ (¬ condition → Ordinary second) := by
  split <;> simp [*]

@[simp] theorem map_iff {change : α → β} : Ordinary (change <$> first) ↔ Ordinary first := by
  cases first with
  | ok value => simp
  | error error => simp [Ordinary, Functor.map, Except.map]

/-- A step that is ordinary on every item is ordinary along a list. -/
theorem mapM {form : α → Outcome β} (ordinary : ∀ item, Ordinary (form item)) (items : List α) :
    Ordinary (items.mapM form) := by
  induction items with
  | nil => simp
  | cons item rest ih => simp [ordinary, ih]

/-! ### Lookups in schemas -/

@[simp] theorem required (members : Members) (key : String) :
    Ordinary (Schema.required members key) := by
  unfold Schema.required
  split <;> simp

@[simp] theorem attributeOf (schema : Json) (key : String) :
    Ordinary (Schema.attributeOf schema key) := by
  unfold Schema.attributeOf
  split <;> simp

@[simp] theorem typeOf (schema : Json) : Ordinary (Schema.typeOf schema) := by
  unfold Schema.typeOf
  split <;> simp

@[simp] theorem ofType (type : Json) : Ordinary (Kind.ofType type) := by
  unfold Kind.ofType
  split <;> simp

@[simp] theorem kindOf (schema : Json) : Ordinary (Schema.kindOf schema) := by
  have typed := typeOf schema
  unfold Schema.kindOf
  split <;> simp_all

@[simp] theorem mentions (document : Json) (word : String) :
    Ordinary (Schema.mentions document word) := by
  unfold Schema.mentions
  split <;> simp

@[simp] theorem iterate (document : Json) : Ordinary (Schema.iterate document) := by
  unfold Schema.iterate
  split <;> simp

@[simp] theorem fieldsOf (schema : Json) : Ordinary (Decode.fieldsOf schema) := by
  simp [Decode.fieldsOf]

@[simp] theorem itemAt (items : List α) (index : Int) : Ordinary (Schema.itemAt items index) := by
  unfold Schema.itemAt
  extract_lets place
  repeat' split
  all_goals simp

@[simp] theorem documentItemAt (document : Json) (index : Int) :
    Ordinary (Schema.documentItemAt document index) := by
  unfold Schema.documentItemAt
  split <;> simp

/-- A name that is not known is reported as such, and never for want of depth. -/
@[simp] theorem resolve (registry : Registry) (name : String) :
    Ordinary (Schema.resolve registry name) := by
  unfold Schema.resolve
  split <;> simp

@[simp] theorem keyOf (name : Json) : Ordinary (Schema.keyOf name) := by
  unfold Schema.keyOf
  split <;> simp

@[simp] theorem registryName (name : Json) : Ordinary (Schema.registryName name) := by
  simp only [Schema.registryName, bind_iff, keyOf, true_and]
  intro key _
  split <;> simp

@[simp] theorem registeredName (registry : Registry) (schema : Json) :
    Ordinary (Decode.registeredName registry schema) := by
  simp only [Decode.registeredName, bind_iff, registryName, resolve, true_and]
  intro key _ definition _
  split <;> simp

@[simp] theorem ofSchema (schema : Json) : Ordinary (Logical.ofSchema schema) := by
  have tagged : Ordinary (Schema.logicalTag schema) := by
    unfold Schema.logicalTag
    split
    · rename_i members
      have typed := required members "type"
      repeat' split
      all_goals simp_all
    · simp
  simp [Logical.ofSchema, tagged]

/-! ### The reader's schema -/

@[simp] theorem truth {outcome : Outcome Json} (ordinary : Ordinary outcome) :
    Ordinary (Resolution.truth outcome) := by
  unfold Resolution.truth
  split <;> simp_all

@[simp] theorem select_iff {test : Outcome Bool} :
    Ordinary (Resolution.select test writer reader) ↔ Ordinary test := by
  simp [Resolution.select]

/-- Branches are compared by their types, and a mismatch is an ordinary error. -/
theorem matchBranches {branches : List Json} {mismatch : Error} (other : mismatch.IsOrdinary)
    (parts : ∀ branch ∈ branches, Ordinary (Resolution.matchTypes writer branch)) :
    Ordinary (Resolution.matchBranches writer branches mismatch) := by
  induction branches with
  | nil => simpa [Resolution.matchBranches] using other
  | cons branch rest ih =>
    rw [List.forall_mem_cons] at parts
    simp only [Resolution.matchBranches, bind_iff, parts.1, true_and]
    intro matched _
    split
    · simp
    · exact ih parts.2

theorem matchSchemas_of_parts
    (parts : ∀ first second, sizeOf first + sizeOf second < sizeOf writer + sizeOf reader →
      Ordinary (Resolution.matchTypes first second)) :
      Ordinary (Resolution.matchSchemas writer reader) := by
  unfold Resolution.matchSchemas
  split
  · simp
  · refine matchBranches (by simp) fun branch isBranch => parts _ _ ?_
    have smaller := List.sizeOf_lt_of_mem isBranch
    simp only [Json.arr.sizeOf_spec]
    omega
  all_goals
    repeat' split
    all_goals simp
    all_goals exact parts _ _ (by grind [→ Members.sizeOf_lt_of_get?])

private theorem matchTypes_of_schemas (schemas : Ordinary (Resolution.matchSchemas writer reader)) :
    Ordinary (Resolution.matchTypes writer reader) := by
  unfold Resolution.matchTypes
  split <;> simp [schemas]

/-- The comparison goes down both schemas, by induction on their sizes, and needs no depth. -/
@[simp] theorem matchTypes (writer reader : Json) :
    Ordinary (Resolution.matchTypes writer reader) := by
  induction size : sizeOf writer + sizeOf reader using Nat.strong_induction_on generalizing
    writer reader with
  | _ _ ih =>
    subst size
    exact matchTypes_of_schemas (matchSchemas_of_parts fun first second smaller =>
      ih _ smaller first second rfl)

/-- Schemas are matched with ordinary errors only. -/
@[simp] theorem matchSchemas (writer reader : Json) :
    Ordinary (Resolution.matchSchemas writer reader) :=
  matchSchemas_of_parts fun first second _ => matchTypes first second

@[simp] theorem firstMatching (branch : Json) (candidates : List Json) :
    Ordinary (Decode.firstMatching branch candidates) := by
  induction candidates with
  | nil => simp [Decode.firstMatching]
  | cons candidate rest ih =>
    simp only [Decode.firstMatching, bind_iff, matchTypes, true_and]
    intro matched _
    split <;> simp [ih]

@[simp] theorem resolveReader (writer reader : Json) :
    Ordinary (Decode.resolveReader writer reader) := by
  unfold Decode.resolveReader
  repeat' split
  all_goals simp

@[simp] theorem resolveReaderName (registry : Registry) (reader : Json) :
    Ordinary (Decode.resolveReaderName registry reader) := by
  unfold Decode.resolveReaderName
  split <;> simp

@[simp] theorem readerPart (reader : Json) (key : String) :
    Ordinary (Decode.readerPart reader key) := by
  unfold Decode.readerPart
  split <;> simp

@[simp] theorem resolveSymbol (symbol reader : Json) :
    Ordinary (Decode.resolveSymbol symbol reader) := by
  unfold Decode.resolveSymbol
  split
  · simp
  · simp only [bind_iff, attributeOf, true_and]
    intro symbols _
    cases reader.get? "default" <;> split <;> simp

/-! ### Fields -/

@[simp] theorem fieldKey (field : Json) : Ordinary (Decode.fieldKey field) := by
  simp [Decode.fieldKey]

@[simp] theorem addAliases (field : Json) (index : Decode.FieldIndex) (aliases : List Json) :
    Ordinary (Decode.addAliases field index aliases) := by
  induction aliases generalizing index with
  | nil => simp [Decode.addAliases]
  | cons alternative rest ih => simp [Decode.addAliases, ih]

@[simp] theorem indexFields (index : Decode.FieldIndex) (fields : List Json) :
    Ordinary (Decode.indexFields index fields) := by
  induction fields generalizing index with
  | nil => simp [Decode.indexFields]
  | cons field rest ih => simp [Decode.indexFields, ih]

/-- A missing field is filled by its default or refused with an ordinary error. -/
@[simp] theorem fillDefaults (written : List Json) (record : List (Datum × Datum))
    (table : List (Json × Json)) : Ordinary (Decode.fillDefaults written record table) := by
  induction table generalizing record with
  | nil => simp [Decode.fillDefaults]
  | cons entry rest ih =>
    unfold Decode.fillDefaults
    repeat' split
    all_goals simp [ih]

/-! ### Logical types and promotions -/

@[simp] theorem countOf (datum : Datum) : Ordinary (Logical.countOf datum) := by
  unfold Logical.countOf
  split <;> simp

@[simp] theorem truncatedQuotient (count : Logical.Count) (divisor : Nat) :
    Ordinary (Logical.truncatedQuotient count divisor) := by
  unfold Logical.truncatedQuotient
  repeat' split
  all_goals simp

@[simp] theorem timeOfParts (hour minute second micros : Int) :
    Ordinary (Logical.timeOfParts hour minute second micros) := by
  unfold Logical.timeOfParts
  repeat' split
  all_goals simp

@[simp] theorem readTimestamp (factor : Nat) (datum : Datum) :
    Ordinary (Logical.readTimestamp factor datum) := by
  simp only [Logical.readTimestamp, bind_iff, countOf, true_and]
  intro count _
  split
  · simp only [pure_bind]
    split <;> simp
  · repeat' split
    all_goals simp
    all_goals split <;> simp

@[simp] theorem readDate (datum : Datum) : Ordinary (Logical.readDate datum) := by
  simp only [Logical.readDate, bind_iff, countOf, true_and]
  intro count _
  repeat' split
  all_goals simp

@[simp] theorem readTimeMillis (datum : Datum) : Ordinary (Logical.readTimeMillis datum) := by
  simp [Logical.readTimeMillis]

@[simp] theorem readTimeMicros (datum : Datum) : Ordinary (Logical.readTimeMicros datum) := by
  simp only [Logical.readTimeMicros, bind_iff, countOf, truncatedQuotient, true_and]
  intro count _ hour _ _ _ _ _
  split
  · simp
  · split <;> simp

@[simp] theorem readUuid (datum : Datum) : Ordinary (Logical.readUuid datum) := by
  unfold Logical.readUuid
  repeat' split
  all_goals simp

@[simp] theorem bytesOfItems (items : List Datum) : Ordinary (Logical.bytesOfItems items) := by
  induction items with
  | nil => simp [Logical.bytesOfItems]
  | cons item rest ih =>
    unfold Logical.bytesOfItems
    dsimp only
    repeat' split
    all_goals simp [ih]

@[simp] theorem numberBytes (datum : Datum) : Ordinary (Logical.numberBytes datum) := by
  unfold Logical.numberBytes
  split <;> simp

@[simp] theorem ofFault (result : Except Decimal.Fault α) : Ordinary (Logical.ofFault result) := by
  unfold Logical.ofFault
  split <;> simp

@[simp] theorem precisionOf (schema : Json) : Ordinary (Logical.precisionOf schema) := by
  simp only [Logical.precisionOf, bind_iff, attributeOf, true_and]
  intro precision _
  repeat' split
  all_goals simp

@[simp] theorem readDecimal (datum : Datum) (schema : Json) :
    Ordinary (Logical.readDecimal datum schema) := by
  simp only [Logical.readDecimal, bind_iff, attributeOf, numberBytes, precisionOf,
    ofFault, true_and]
  intro _ _ bytes _ precision _ number _
  split <;> simp

/-- The value of a logical type is restored or refused with an ordinary error. -/
@[simp] theorem restore (logical : Logical) (datum : Datum) (schema : Json) :
    Ordinary (logical.restore datum schema) := by
  unfold Logical.restore
  split <;> simp

@[simp] theorem toNumber (datum : Datum) : Ordinary (Resolution.toNumber datum) := by
  unfold Resolution.toNumber Resolution.numberOfInteger Resolution.numberOfText
  repeat' split
  all_goals simp

@[simp] theorem promote (datum : Datum) (writerType readerType : Json) :
    Ordinary (Resolution.promote datum writerType readerType) := by
  unfold Resolution.promote
  repeat' split
  all_goals simp

/-- What stands between a decoded value and the answer raises ordinary errors only. -/
@[simp] theorem finish (writer reader type : Json) (datum : Datum) :
    Ordinary (Decode.finish writer reader type datum) := by
  simp only [Decode.finish, bind_iff, mentions, true_and]
  intro hasLogical _
  split
  · simp only [bind_iff, ofSchema, true_and]
    intro logical _
    split <;> simp
  · cases reader <;> simp

/-! ### Checks -/

@[simp] theorem qualifiedName (schema space : Json) :
    Ordinary (Schema.qualifiedName schema space) := by
  unfold Schema.qualifiedName
  split
  · split
    · simp
    · rename_i name _
      have found := mentions name "."
      repeat' split
      all_goals simp_all
  · simp

@[simp] theorem exceeds (count : Nat) (bound : Json) : Ordinary (Logical.exceeds count bound) := by
  unfold Logical.exceeds
  repeat' split
  all_goals simp

@[simp] theorem prepareBytesDecimal (number : Decimal) (schema : Json) :
    Ordinary (Logical.prepareBytesDecimal number schema) := by
  simp only [Logical.prepareBytesDecimal, bind_iff, attributeOf, exceeds, true_and]
  intro precision _ tooLong _
  repeat' split
  all_goals simp

@[simp] theorem prepareFixedDecimal (number : Decimal) (schema : Json) :
    Ordinary (Logical.prepareFixedDecimal number schema) := by
  simp only [Logical.prepareFixedDecimal, bind_iff, attributeOf, exceeds, true_and]
  intro size _ precision _ tooLong _
  repeat' split
  all_goals simp

/-- The value of a logical type is prepared or refused with an ordinary error. -/
theorem prepareFor (schema : Json) (datum : Datum) :
    Ordinary (Logical.prepareFor schema datum) := by
  simp only [Logical.prepareFor, bind_iff, ofSchema, true_and]
  intro logical _
  cases logical with
  | none => simp
  | some logical =>
    dsimp only
    unfold Logical.prepare
    repeat' split
    all_goals simp

theorem findBranch (name : Datum) (branches : List Json) :
    Ordinary (Validation.findBranch name branches) := by
  induction branches with
  | nil => simp [Validation.findBranch]
  | cons branch rest ih =>
    have typed := typeOf branch
    have isRecord : Ordinary (Schema.isRecord branch) := by
      unfold Schema.isRecord
      split <;> simp_all
    simp [Validation.findBranch, Validation.branchName, isRecord, ih]

theorem fieldView (node : Json) : Ordinary (Validation.fieldView node) := by
  unfold Validation.fieldView
  split <;> simp

theorem isSymbol (symbols : Json) (datum : Datum) : Ordinary (Schema.isSymbol symbols datum) := by
  unfold Schema.isSymbol
  split <;> simp

end Ordinary
end Avro
