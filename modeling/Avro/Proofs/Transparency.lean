import Avro.Encode.Datum
import Avro.Proofs.Preparsing
import Avro.Proofs.Wording

/-!
Contract: a schema may be parsed before it is used.

Owns: `OutcomesAlike`, outcomes that are equal up to the schemas which failures show; that values
are checked alike against schemas that differ in the marks of records; and that a schema and what it
is parsed to are written by, read by and checked against alike.

A value may choose a branch of a union by a pair of a name and a value. A branch that is no record
has no name here but itself, as a document, and its marks are part of that document. A value that
gives such a branch as a mapping therefore chooses another branch, or none, once the schema has been
parsed.
-/

namespace Avro

open Logical (ofTag? prepareFor)
open Members (get?)

variable {α β γ δ : Type} {lefts rights : List Json} {strict : Bool} {field : Json}
  {members : Members} {word : String} {name : Datum}
variable {registry : Registry} {schema parsed : Json}

/-! ### Outcomes alike -/

/-- Failures of one kind, which differ at most in the schemas that they show. -/
inductive Error.SameKind : Error → Error → Prop where
  | refl (error : Error) : SameKind error error
  | refused (left right : List Refusal) : SameKind (.refused left) (.refused right)
  | nameMissing (left right : Json) : SameKind (.nameMissing left) (.nameMissing right)

/-- Outcomes that are related values, or failures of one kind. -/
inductive OutcomesAlike (related : α → β → Prop) : Outcome α → Outcome β → Prop where
  | ok {left : α} {right : β} (values : related left right) :
      OutcomesAlike related (.ok left) (.ok right)
  | error {left right : Error} (sameKind : Error.SameKind left right) :
      OutcomesAlike related (.error left) (.error right)

namespace OutcomesAlike

variable {leftNext : α → Outcome γ} {next : γ → δ → Prop}

theorem refl (outcome : Outcome α) : OutcomesAlike Eq outcome outcome := by
  cases outcome with
  | ok value => exact .ok rfl
  | error error => exact .error (.refl error)

theorem bind {related : α → β → Prop} {left : Outcome α} {right : Outcome β}
    {rightNext : β → Outcome δ}
    (first : OutcomesAlike related left right)
    (second : ∀ leftValue rightValue, related leftValue rightValue →
      OutcomesAlike next (leftNext leftValue) (rightNext rightValue)) :
    OutcomesAlike next (left >>= leftNext) (right >>= rightNext) := by
  cases first with
  | ok values => exact second _ _ values
  | error sameKind => exact .error sameKind

theorem andThen (outcome : Outcome α) {rightNext : α → Outcome δ}
    (second : ∀ value, outcome = .ok value →
      OutcomesAlike next (leftNext value) (rightNext value)) :
    OutcomesAlike next (outcome >>= leftNext) (outcome >>= rightNext) := by
  cases outcome with
  | ok value => exact second value rfl
  | error error => exact .error (.refl error)

end OutcomesAlike

open Schema (NodeTwins Twins BranchTwins RegistriesAlike attributeOf hasFields kindOf marks parse
  qualifiedName required typeOf)

namespace Validation

variable {leftRegistry rightRegistry : Registry}

/-! ### Checks against schemas that differ in marks -/

/-- The first branch that passes is found alike; the refusals before it may differ. -/
theorem firstPass_alike {left right : Json → Outcome Bool}
    (alike : List.Forall₂ (fun branch other => OutcomesAlike Eq (left branch) (right other))
      lefts rights) :
    ∀ refusals others, OutcomesAlike (fun found other => found.1 = other.1)
      (firstPass left refusals lefts)
      (firstPass right others rights) := by
  induction alike with
  | nil => exact fun _ _ => .ok rfl
  | @cons branch other _ _ first _ ih =>
    intro refusals others
    unfold firstPass
    generalize left branch = leftOutcome at first
    generalize right other = rightOutcome at first
    cases first with
    | @ok passed _ same =>
      subst same
      cases passed with
      | true => exact .ok rfl
      | false => exact ih _ _
    | @error cause _ sameKind =>
      cases sameKind with
      | refl =>
        cases cause with
        | refused found => exact ih _ _
        | _ => exact .error (.refl _)
      | refused => exact ih _ _
      | nameMissing left right => exact .error (.nameMissing left right)

/-- Checks that agree on nodes that are the same up to the marks of records. -/
def CheckersAlike (left right : Checker) : Prop :=
  ∀ datum node other field, NodeTwins node other →
    OutcomesAlike Eq (left datum node field) (right datum other field)

section Kinds

variable {left right : Checker} {leftRegistry rightRegistry : Registry}
variable {node other : Json}

/-- A union is left alike once its branches have been tried alike. -/
theorem firstPass_end_alike {leftFound rightFound : Outcome (Bool × List Refusal)} (strict : Bool)
    (alike : OutcomesAlike (fun found other => found.1 = other.1) leftFound rightFound) :
    OutcomesAlike Eq
      (do
        let (passed, refusals) ← leftFound
        if !passed && strict then throw (.refused refusals)
        return passed)
      (do
        let (passed, refusals) ← rightFound
        if !passed && strict then throw (.refused refusals)
        return passed) := by
  refine alike.bind fun left right same => ?_
  obtain ⟨passed, refusals⟩ := left
  obtain ⟨_, others⟩ := right
  cases same
  dsimp only
  split
  · exact .error (.refused refusals others)
  · exact .ok rfl

theorem answering_alike (strict : Bool) : Answering strict strict (OutcomesAlike Eq) where
  same _ := .refl _
  after _ alike := .andThen _ alike
  andThen first next := by
    refine first.bind fun passed _ same => same ▸ ?_
    cases passed with
    | true => exact next
    | false => exact .refl _
  firstPass alike := firstPass_end_alike strict
    (firstPass_alike (List.forall₂_same.mpr alike) [] [])

private theorem qualifiedName_alike (twins : NodeTwins node other) (space : Json) :
    OutcomesAlike Eq (qualifiedName node space) (qualifiedName other space) := by
  cases twins with
  | refl => exact .refl _
  | @record node other twins =>
    simp only [qualifiedName, ← twins.same "name" (by decide), ← twins.same "namespace" (by decide)]
    cases get? node "name" with
    | none => exact .error (.nameMissing _ _)
    | some name => exact .refl _

theorem attributeOf_twins (twins : NodeTwins node other) {key : String} (notMark : key ∉ marks) :
    attributeOf node key = attributeOf other key := by
  cases twins with
  | refl => rfl
  | record twins => simp only [attributeOf, required, twins.same key notMark]

theorem checkRecord_alike (checkers : CheckersAlike left right) (twins : NodeTwins node other)
    (field : Json) (datum : Datum) :
    OutcomesAlike Eq (checkRecord left node field datum) (checkRecord right other field datum) := by
  unfold checkRecord
  refine (qualifiedName_alike twins field).bind fun found _ same => ?_
  subst same
  obtain ⟨space, name⟩ := found
  dsimp only
  split
  · rw [attributeOf_twins twins (show "fields" ∉ marks by decide)]
    refine .andThen _ fun fields _ => .andThen _ fun nodes _ =>
      (answering_alike false).allPass fun node _ => ?_
    exact .andThen _ fun view _ => checkers _ _ _ _ (.refl _)
  · exact .refl _

private theorem checkKind_alike (registries : RegistriesAlike leftRegistry rightRegistry)
    (checkers : CheckersAlike left right) (strict : Bool) (schema field : Json) (datum : Datum)
    (kind : Kind) :
    OutcomesAlike Eq (checkKind leftRegistry strict left schema field datum kind)
      (checkKind rightRegistry strict right schema field datum kind) := by
  refine (answering_alike strict).checkKind
    (fun value node _ => checkers value node node field (.refl node))
    (fun _ => checkRecord_alike checkers (.refl schema) field datum) fun name _ => ?_
  have known := registries name
  simp only [checkKind]
  generalize get? leftRegistry name = leftFound at known
  generalize get? rightRegistry name = rightFound at known
  cases known with
  | none => exact .refl _
  | some twins => exact checkers _ _ _ _ twins

end Kinds

theorem check_level_alike {depth : Nat} {node other : Json} {given : Datum}
    (sameType : typeOf node = typeOf other)
    (samePrepared : prepareFor node given = prepareFor other given)
    (kindsAlike : ∀ kind datum, kindOf node = .ok kind → prepareFor node given = .ok datum →
      OutcomesAlike Eq (checkKind leftRegistry strict (checkUnworded leftRegistry strict depth) node
        field datum kind)
        (checkKind rightRegistry strict (checkUnworded rightRegistry strict depth) other field
          datum kind)) :
    OutcomesAlike Eq (checkUnworded leftRegistry strict (depth + 1) given node field)
      (checkUnworded rightRegistry strict (depth + 1) given other field) := by
  unfold checkUnworded
  rw [← sameType, ← samePrepared]
  refine .andThen _ fun type typeIs => .andThen _ fun datum prepared =>
    .andThen _ fun kind kindIs => ?_
  have isKind : kindOf node = .ok kind := by rw [kindOf, typeIs]; exact kindIs
  refine (kindsAlike kind datum isKind prepared).bind fun passed _ same => same ▸ ?_
  split
  · exact .error (.refused _ _)
  · exact .refl _

/-- The first letters of the types on which logical types have a meaning. -/
theorem initial_of_ofTag? {tag : String} {logical : Logical} (found : ofTag? tag = some logical) :
    tag.toList.head? ∈ [some 'l', some 'i', some 'b', some 'f', some 's'] := by
  unfold ofTag? at found
  split at found
  case h_9 => cases found
  all_goals decide

/-- No logical type is based on records or collections. -/
theorem ofSchema_of_word (isWord : word ∈ ["record", "error", "array", "map"])
    (typeIs : get? members "type" = some (.str word)) :
    Logical.ofSchema (.obj members) = .ok none := by
  have noTag (logical : String) : ofTag? (word ++ "-" ++ logical) = none := by
    cases found : ofTag? (word ++ "-" ++ logical) with
    | none => rfl
    | some meaning =>
      have starts := initial_of_ofTag? found
      simp only [List.mem_cons, List.not_mem_nil, or_false] at isWord
      rcases isWord with rfl | rfl | rfl | rfl <;> simp at starts
  simp only [Logical.ofSchema, Schema.logicalTag, required, typeIs]
  cases get? members "logicalType" with
  | none => rfl
  | some logical =>
    dsimp only
    split
    · exact congrArg Except.ok (noTag _)
    · rfl

private theorem prepareFor_record (fielded : hasFields word = true)
    (typeIs : get? members "type" = some (.str word)) (datum : Datum) :
    prepareFor (.obj members) datum = .ok datum := by
  have isWord : word ∈ ["record", "error", "array", "map"] := by
    simp only [hasFields, Bool.or_eq_true, beq_iff_eq] at fielded
    rcases fielded with rfl | rfl <;> simp
  rw [prepareFor, ofSchema_of_word isWord typeIs]
  rfl

private theorem check_alike (registries : RegistriesAlike leftRegistry rightRegistry)
    (strict : Bool) (depth : Nat) :
    CheckersAlike (checkUnworded leftRegistry strict depth)
      (checkUnworded rightRegistry strict depth) := by
  induction depth with
  | zero => exact fun _ _ _ _ _ => .refl _
  | succ depth ih =>
    intro datum node other field twins
    cases twins with
    | refl =>
      exact check_level_alike rfl rfl fun kind prepared _ _ =>
        checkKind_alike registries ih strict node field prepared kind
    | @record node other twins =>
      obtain ⟨word, fielded, typeIs⟩ := twins.isRecord
      have typeAgain := twins.same "type" (by decide) ▸ typeIs
      refine check_level_alike ?_ ?_ fun kind prepared kindIs _ => ?_
      · simp only [typeOf, required, typeIs, typeAgain]
      · rw [prepareFor_record fielded typeIs, prepareFor_record fielded typeAgain]
      · have kindAs : kind = Kind.ofName word := by
          simp only [kindOf, typeOf, required, typeIs, Kind.ofType, Except.ok.injEq] at kindIs
          exact kindIs.symm
        simp only [hasFields, Bool.or_eq_true, beq_iff_eq] at fielded
        rcases fielded with rfl | rfl
        · rw [kindAs]
          exact checkRecord_alike ih (.record twins) field prepared
        · rw [kindAs]
          exact checkRecord_alike ih (.record twins) field prepared

/-! ### Unions at the top -/

end Validation

/-- Whether a value is neither a list nor a mapping. -/
def Datum.isName : Datum → Bool
  | .list _ => false
  | .dict _ => false
  | _ => true

/-- Whether the pairs by which a value chooses branches do so by names, and not by lists or
mappings. -/
def Datum.choosesByName : Datum → Bool
  | .tuple [name, value] => name.isName && value.choosesByName
  | _ => true

theorem Datum.sameAsJson_of_isName (isName : name.isName = true) {document : Json}
    (isStructured : (∃ members, document = .obj members) ∨ ∃ items, document = .arr items) :
    name.sameAsJson document = false := by
  have noNumber : document.integral? = none := by
    rcases isStructured with ⟨members, rfl⟩ | ⟨items, rfl⟩
    · rfl
    · rfl
  cases name with
  | list items => cases isName
  | dict entries => cases isName
  | float value =>
    rcases isStructured with ⟨members, rfl⟩ | ⟨items, rfl⟩
    · cases found : value.toInt? <;> simp [sameAsJson, found, noNumber]
    · cases found : value.toInt? <;> simp [sameAsJson, found, noNumber]
  | decimal value =>
    cases found : (Datum.decimal value).integral? <;> simp [sameAsJson, found, noNumber]
  | bool value | int value => simp [sameAsJson, noNumber]
  | _ =>
    rcases isStructured with ⟨members, rfl⟩ | ⟨items, rfl⟩
    · simp [sameAsJson]
    · simp [sameAsJson]

namespace Validation

variable {datum : Datum}

/-- Branches that differ in the marks of records have names that are equal to the same names. -/
theorem branchName_alike (isName : name.isName = true) {node other : Json}
    (twins : Twins node other) :
    OutcomesAlike (fun left right => name.sameAsJson left = name.sameAsJson right) (branchName node)
      (branchName other) := by
  cases twins with
  | union =>
    refine .ok ?_
    rw [Datum.sameAsJson_of_isName isName (.inr ⟨_, rfl⟩),
      Datum.sameAsJson_of_isName isName (.inr ⟨_, rfl⟩)]
  | node twins =>
    have sameName : ∀ outcome : Outcome Json,
      OutcomesAlike (fun left right => name.sameAsJson left = name.sameAsJson right) outcome
        outcome := by
      intro outcome
      cases outcome with
      | ok value => exact .ok rfl
      | error error => exact .error (.refl error)
    cases twins with
    | refl => exact sameName _
    | @record node other twins =>
      have sameRecord : Schema.isRecord (.obj node) = Schema.isRecord (.obj other) := by
        simp only [Schema.isRecord, typeOf, required, twins.same "type" (by decide)]
      unfold branchName
      rw [sameRecord, attributeOf_twins (.record twins) (show "name" ∉ marks by decide)]
      refine .andThen _ fun isRecord _ => ?_
      split
      · exact sameName _
      · refine .ok ?_
        rw [Datum.sameAsJson_of_isName isName (.inl ⟨_, rfl⟩),
          Datum.sameAsJson_of_isName isName (.inl ⟨_, rfl⟩)]

private theorem findBranch_alike (isName : name.isName = true) (twins : BranchTwins lefts rights) :
    OutcomesAlike (Option.Rel fun left right => left.1 = right.1 ∧ Twins left.2 right.2)
      (findBranch name lefts)
      (findBranch name rights) := by
  induction lefts generalizing rights with
  | nil =>
    cases twins
    exact .ok .none
  | cons node rest ih =>
    obtain _ | ⟨first, others⟩ := twins
    unfold findBranch
    refine (branchName_alike isName first).bind fun left right same => ?_
    rw [same]
    split
    · exact .ok (.some ⟨rfl, first⟩)
    · refine (ih others).bind fun left right found => .ok ?_
      cases found with
      | none => exact .none
      | some found => exact .some ⟨congrArg (· + 1) found.1, found.2⟩

private theorem forall₂_of_branchTwins {relation : Json → Json → Prop}
    (related : ∀ node other, Twins node other → relation node other)
    (twins : BranchTwins lefts rights) : List.Forall₂ relation lefts rights := by
  induction lefts generalizing rights with
  | nil =>
    cases twins
    exact .nil
  | cons node rest ih =>
    obtain _ | ⟨first, others⟩ := twins
    exact .cons (related _ _ first) (ih others)

private theorem checkUnion_twins {left right : Checker} (byName : datum.choosesByName = true)
    (twins : BranchTwins lefts rights)
    (checkers : ∀ given node other field, given.choosesByName = true → Twins node other →
      OutcomesAlike Eq (left given node field) (right given other field)) :
    OutcomesAlike Eq (checkUnion strict left (.arr lefts) field datum)
      (checkUnion strict right (.arr rights) field datum) := by
  unfold checkUnion
  split
  · rename_i name value
    rw [Datum.choosesByName, Bool.and_eq_true] at byName
    change OutcomesAlike Eq (findBranch name lefts >>= _) (findBranch name rights >>= _)
    refine (findBranch_alike byName.1 twins).bind fun leftFound rightFound found => ?_
    cases found with
    | none => exact .refl _
    | some found => exact checkers _ _ _ _ byName.2 found.2
  · exact .refl _
  · refine firstPass_end_alike strict (firstPass_alike ?_ [] [])
    exact forall₂_of_branchTwins (fun node other twins => checkers _ _ _ _ byName twins) twins

/-- A value that chooses branches by names is checked alike against schemas that differ in the marks
of records. -/
theorem check_twins {leftRegistry rightRegistry : Registry}
    (registries : RegistriesAlike leftRegistry rightRegistry) (strict : Bool) (depth : Nat) :
    ∀ datum node other field, datum.choosesByName = true → Twins node other →
      OutcomesAlike Eq (checkUnworded leftRegistry strict depth datum node field)
        (checkUnworded rightRegistry strict depth datum other field) := by
  induction depth with
  | zero => exact fun _ _ _ _ _ _ => .refl _
  | succ depth ih =>
    intro datum node other field byName twins
    cases twins with
    | node twins => exact check_alike registries strict (depth + 1) datum node other field twins
    | @union lefts rights twins =>
      refine check_level_alike rfl rfl fun kind prepared kindIs isPrepared => ?_
      cases kindIs
      cases isPrepared
      exact checkUnion_twins byName twins ih

/-- A value that chooses branches by names is accepted by what a schema is parsed to just as by the
schema. Refusals are compared if there are words for them. -/
theorem validate_parsed {schema parsed : Json} {registry : Registry}
    (accepted : parse {} [] schema = .ok (parsed, registry)) (byName : datum.choosesByName = true)
    {strict : Bool} (worded : strict = true →
      schema.Printable ∧ datum.isBounded = true ∧ field.isPrintable = true) :
    OutcomesAlike Eq (validate schema datum field strict) (validate parsed datum field strict) := by
  -- Once parsed, schemas are checked against without words.
  have unworded {schema parsed : Json} {known : Registry}
      (forced : parse { force := true } [] schema = .ok (parsed, known))
      (printable : strict = true → schema.Printable) :
      check known strict Schema.depthLimit datum parsed field =
        checkUnworded known strict Schema.depthLimit datum parsed field := by
    cases strict with
    | false => rw [check_lenient]
    | true =>
      obtain ⟨parsedPrintable, knownPrintable⟩ :=
        Schema.good_parse Json.hereditary_printable (printable rfl) ⟨rfl, rfl⟩ forced
      exact check_eq_unworded knownPrintable.2 true Schema.depthLimit (worded rfl).2.1
        parsedPrintable.2 (worded rfl).2.2
  have parsedPrintable (isStrict : strict = true) : parsed.Printable :=
    (Schema.good_parse Json.hereditary_printable (worded isStrict).1 ⟨rfl, rfl⟩ accepted).1
  obtain ⟨draft, derivation, rfl⟩ := Schema.parse_ok.mp accepted
  unfold validate
  rcases (derivation.runsAlike registry).forced with
    ⟨error, failed, otherFailed⟩ |
    ⟨left, right, leftRegistry, rightRegistry, forced, otherForced, twins, registries⟩
  · rw [failed, otherFailed]
    exact .error (.refl error)
  · rw [forced, otherForced, outcome_ok_bind, outcome_ok_bind]
    dsimp only
    rw [unworded forced fun isStrict => (worded isStrict).1, unworded otherForced parsedPrintable]
    exact check_twins registries strict Schema.depthLimit datum left right field byName twins

end Validation

theorem Encode.single_parsed (accepted : parse {} [] schema = .ok (parsed, registry))
    (datum : Datum) : Encode.single parsed datum = Encode.single schema datum := by
  rw [Encode.single, Encode.single, accepted, Schema.parse_parse accepted]

theorem Decode.single_parsed (accepted : parse {} [] schema = .ok (parsed, registry)) (named : Bool)
    (bytes : Bytes) :
    Decode.single parsed .null named bytes = Decode.single schema .null named bytes := by
  simp only [Decode.single, ite_self, accepted, Schema.parse_parse accepted]

/-- A schema may be parsed before it is used. What it is parsed to is parsed to itself, with the
same registry, and it is written and read by alike. It accepts the same values, if these choose the
branches of unions by names; and it refuses the same, if there are words for a refusal. -/
theorem preparsed_used_alike {schema parsed : Json} {registry : Registry}
    (accepted : Schema.parse {} [] schema = .ok (parsed, registry)) :
    (∃ plain, Schema.parse { mark := false } [] schema = .ok (plain, registry) ∧
      Schema.parse { mark := false } [] plain = .ok (plain, registry)) ∧
    Schema.parse {} [] parsed = .ok (parsed, registry) ∧
    (∀ datum, Encode.single parsed datum = Encode.single schema datum) ∧
    (∀ named bytes, Decode.single parsed .null named bytes =
      Decode.single schema .null named bytes) ∧
    ∀ datum field strict, datum.choosesByName = true →
      (strict = true → schema.Printable ∧ datum.isBounded = true ∧ field.isPrintable = true) →
      OutcomesAlike Eq (Validation.validate schema datum field strict)
        (Validation.validate parsed datum field strict) := by
  obtain ⟨plain, unhinted⟩ := Schema.parse_unhinted accepted
  refine ⟨⟨plain, unhinted, Schema.parse_parse unhinted⟩, Schema.parse_parse accepted, ?_, ?_, ?_⟩
  · exact Encode.single_parsed accepted
  · exact Decode.single_parsed accepted
  · exact fun datum field strict byName worded => Validation.validate_parsed accepted byName worded

/-- The error type of an alarm without content. -/
def alarmType : List (String × Json) :=
  [("type", .str "error"), ("name", .str "Alarm"), ("fields", .arr [])]

def gaugeType : List (String × Json) :=
  [("type", .str "record"), ("name", .str "Gauge"),
    ("fields", .arr [.obj [("name", .str "level"), ("type", .str "int")]])]

def reportTypes : Registry := [("Alarm", .obj alarmType), ("Gauge", .obj gaugeType)]

/-- A union of both types, as it is given and as it is parsed. -/
def reports : Json := .arr [.obj alarmType, .obj gaugeType]

def parsedReports : Json :=
  .arr [.obj (Schema.sealedMembers reportTypes alarmType),
    .obj (Schema.sealedMembers reportTypes gaugeType)]

theorem preparsed_used_alike_reports :
    Schema.parse {} [] reports = .ok (parsedReports, reportTypes) ∧
    (∃ plain, Schema.parse { mark := false } [] plain = .ok (plain, reportTypes)) ∧
    (∀ named bytes, Decode.single parsedReports .null named bytes =
      Decode.single reports .null named bytes) ∧
    Encode.single parsedReports (.tuple [.str "Gauge", .dict [(.str "level", .int 7)]]) =
      Encode.single reports (.tuple [.str "Gauge", .dict [(.str "level", .int 7)]]) ∧
    OutcomesAlike Eq (Validation.validate reports
      (.tuple [.str "Gauge", .dict [(.str "level", .int 7)]]) .null true)
      (Validation.validate parsedReports (.tuple [.str "Gauge", .dict [(.str "level", .int 7)]])
        .null true) := by
  have accepted : Schema.parse {} [] reports = .ok (parsedReports, reportTypes) := rfl
  obtain ⟨⟨plain, -, again⟩, -, written, read, checked⟩ := preparsed_used_alike accepted
  refine ⟨accepted, ⟨plain, again⟩, read, written _, checked _ _ _ rfl fun _ => ⟨⟨?_, ?_⟩, ?_, rfl⟩⟩
  · decide
  · decide
  · decide

/-- A pair that gives the type of an alarm as a mapping. -/
def chosenAlarm : Datum :=
  .tuple [.dict [(.str "type", .str "error"), (.str "name", .str "Alarm"),
    (.str "fields", .list [])], .dict []]

/-- Such a pair is accepted by a union as it is given, and refused by the same union once that has
been parsed. -/
theorem parsed_refuses_chosen_alarm :
    Schema.parse {} [] reports = .ok (parsedReports, reportTypes) ∧
    Validation.validate reports chosenAlarm .null false = .ok true ∧
    Validation.validate parsedReports chosenAlarm .null false = .ok false :=
  ⟨rfl, rfl, rfl⟩

end Avro
