import Avro.Proofs.Wording

/-!
Contract: the two modes of a check agree.

Owns: `ModesAgree`, how an outcome of the lenient mode stands to one of the strict mode; that the
outcomes of a check stand to each other so, at every depth; and what a series of values comes to in
either mode.

A value that the lenient mode answers with false is one that the strict mode refuses. Any other
failure comes from a step that knows nothing of the modes, so both have it. The steps are shown once
not to fail with a refusal. The strict mode puts its refusals into words, which fails for integers
that have no text; the modes agree where there are none.
-/

namespace Avro

variable {α β : Type}

namespace Validation

/-! ### The two modes of a check -/

/-- How an outcome of the lenient mode stands to one of the strict mode. Within a check, what is
still to be refused is false in both. -/
inductive ModesAgree : Outcome Bool → Outcome Bool → Prop where
  | accepted : ModesAgree (.ok true) (.ok true)
  | declined : ModesAgree (.ok false) (.ok false)
  | refused (refusals : List Refusal) : ModesAgree (.ok false) (.error (.refused refusals))
  | failed {error : Error} (other : ∀ refusals, error ≠ .refused refusals) :
      ModesAgree (.error error) (.error error)

namespace ModesAgree

theorem same {outcome : Outcome Bool} (ordinary : Ordinary outcome) :
    ModesAgree outcome outcome := by
  match outcome with
  | .ok true => exact .accepted
  | .ok false => exact .declined
  | .error error => exact .failed (Ordinary.error_iff.mp ordinary).2

theorem after {first : Outcome α} {lenient strict : α → Outcome Bool} (ordinary : Ordinary first)
    (agree : ∀ value, first = .ok value → ModesAgree (lenient value) (strict value)) :
    ModesAgree (first >>= lenient) (first >>= strict) := by
  cases first with
  | ok value => exact agree value rfl
  | error error => exact .failed (Ordinary.error_iff.mp ordinary).2

/-- Branches are left at the same one, whatever refusals have been met before it. -/
theorem firstPass {lenient strict : Json → Outcome Bool} {branches : List Json}
    (agree : ∀ branch ∈ branches, ModesAgree (lenient branch) (strict branch)) : ∀ others refusals,
    (∃ passed others' refusals', firstPass lenient others branches = .ok (passed, others') ∧
      firstPass strict refusals branches = .ok (passed, refusals')) ∨
    ∃ error, (∀ refusals, error ≠ .refused refusals) ∧
      firstPass lenient others branches = .error error ∧
      firstPass strict refusals branches = .error error := by
  induction branches with
  | nil => exact fun others refusals => .inl ⟨false, others, refusals, rfl, rfl⟩
  | cons branch rest ih =>
    intro others refusals
    rw [List.forall_mem_cons] at agree
    have first := agree.1
    have ih := ih agree.2
    unfold Validation.firstPass
    generalize lenient branch = left at first
    generalize strict branch = right at first
    cases first with
    | accepted => exact .inl ⟨true, others, refusals, rfl, rfl⟩
    | declined => exact ih others refusals
    | refused found => exact ih others (refusals ++ found)
    | @failed error other =>
      refine .inr ⟨error, other, ?_⟩
      cases error with
      | refused found => exact absurd rfl (other found)
      | _ => exact ⟨rfl, rfl⟩

theorem answering : Answering false true ModesAgree where
  same := same
  after := after
  andThen first next := by
    cases first with
    | accepted => exact next
    | declined => exact .declined
    | refused refusals => exact .refused refusals
    | failed other => exact .failed other
  firstPass agree := by
    obtain ⟨passed, others, refusals, left, right⟩ | ⟨error, other, left, right⟩ :=
      firstPass agree [] []
    · rw [left, right]
      cases passed with
      | true => exact .accepted
      | false => exact .refused refusals
    · rw [left, right]
      exact .failed other

theorem unworded (registry : Registry) (depth : Nat) : ∀ datum schema field,
    ModesAgree (checkUnworded registry false depth datum schema field)
      (checkUnworded registry true depth datum schema field) := by
  induction depth with
  | zero => exact fun _ _ _ => .failed (by rintro _ ⟨⟩)
  | succ depth ih =>
    intro given schema field
    unfold checkUnworded
    refine .after (.typeOf schema) fun type _ => .after (.prepareFor schema given) fun datum _ =>
      .after (.ofType type) fun kind _ => ?_
    have inner : ModesAgree
        (checkKind registry false (checkUnworded registry false depth) schema field datum kind)
        (checkKind registry true (checkUnworded registry true depth) schema field datum kind) :=
      answering.checkKind_of_parts fun value node _ place _ => ih value node place
    generalize checkKind registry false _ schema field datum kind = left at inner
    generalize checkKind registry true _ schema field datum kind = right at inner
    cases inner with
    | accepted => exact .accepted
    | declined => exact .refused _
    | refused refusals => exact .refused refusals
    | failed other => exact .failed other

/-- The modes agree on values whose refusals have words. -/
theorem check {registry : Registry} {datum : Datum} {schema field : Json}
    (registryPrintable : (Json.obj registry).isPrintable = true) (depth : Nat)
    (bounded : datum.isBounded = true) (printable : schema.isPrintable = true)
    (fieldPrintable : field.isPrintable = true) :
    ModesAgree (check registry false depth datum schema field)
      (check registry true depth datum schema field) := by
  rw [check_lenient,
    check_eq_unworded registryPrintable true depth bounded printable fieldPrintable]
  exact unworded registry depth datum schema field

end ModesAgree

/-- A strict check that ends without a failure has accepted the value. -/
theorem check_strict_ne_false (registry : Registry) (depth : Nat) (given : Datum)
    (schema field : Json) : check registry true depth given schema field ≠ .ok false := by
  cases depth with
  | zero => exact nofun
  | succ depth =>
    intro declined
    unfold check at declined
    obtain ⟨type, -, declined⟩ := outcome_bind_ok.mp declined
    obtain ⟨datum, -, declined⟩ := outcome_bind_ok.mp declined
    obtain ⟨kind, -, declined⟩ := outcome_bind_ok.mp declined
    obtain ⟨passed, -, declined⟩ := outcome_bind_ok.mp declined
    cases passed with
    | true | false => cases declined

/-! ### A series of values -/

/-- The failure of a check that is no refusal. -/
def fault? : Outcome Bool → Option Error
  | .ok _ => none
  | .error (.refused _) => none
  | .error error => some error

def refusalsOf : Outcome Bool → List Refusal
  | .error (.refused found) => found
  | _ => []

/-- Whether a check has not answered with false. -/
def undeclined : Outcome Bool → Bool
  | .ok passed => passed
  | .error _ => true

/-- A series is checked up to the first failure that is no refusal. Without one, all answers and all
refusals are collected. -/
theorem checkAll_eq (test : Datum → Outcome Bool) (data : List Datum) :
    checkAll test data =
      match data.findSome? fun datum => fault? (test datum) with
      | some error => .error error
      | none => .ok (data.all fun datum => undeclined (test datum), data.flatMap fun datum =>
          refusalsOf (test datum)) := by
  induction data with
  | nil => rfl
  | cons datum rest ih =>
    unfold checkAll
    simp only [List.findSome?_cons, List.all_cons, List.flatMap_cons]
    rw [ih]
    generalize test datum = outcome
    generalize rest.findSome? (fun datum => fault? (test datum)) = later
    cases outcome with
    | ok passed => cases later <;> rfl
    | error error =>
      cases error with
      | refused found => cases later <;> rfl
      | _ => rfl

namespace ModesAgree

variable {lenient strict : Outcome Bool}

section

variable (agree : ModesAgree lenient strict)
include agree

private theorem fault?_eq : fault? lenient = fault? strict := by
  cases agree <;> rfl

private theorem undeclined_strict (ended : strict ≠ .ok false) : undeclined strict = true := by
  cases agree with
  | declined => exact absurd rfl ended
  | _ => rfl

/-- Without another failure, the lenient mode answers with a truth value. -/
theorem undeclined_lenient (noFault : fault? strict = none) :
    undeclined lenient = true ↔ lenient = .ok true := by
  cases agree with
  | @failed error other =>
    cases error with
    | refused found => exact absurd rfl (other found)
    | _ => cases noFault
  | _ => simp [undeclined]

end

end ModesAgree

section Series

private theorem findSome?_of_forall_mem {items : List α} {first second : α → Option β}
    (same : ∀ item ∈ items, first item = second item) :
    items.findSome? first = items.findSome? second := by
  induction items with
  | nil => rfl
  | cons item rest ih =>
    rw [List.forall_mem_cons] at same
    rw [List.findSome?_cons, List.findSome?_cons, same.1, ih same.2]

variable {schema parsed : Json} {registry : Registry} {records : Datum} {data : List Datum}

theorem validate_eq (parses : Schema.parse { force := true } [] schema = .ok (parsed, registry))
    (datum : Datum) (strict : Bool) :
    validate schema datum .null strict =
      check registry strict Schema.depthLimit datum parsed .null := by
  rw [validate, parses]
  rfl

private theorem validate_agree (printable : schema.Printable)
    (parses : Schema.parse { force := true } [] schema = .ok (parsed, registry)) {datum : Datum}
    (bounded : datum.isBounded = true) :
    ModesAgree (validate schema datum .null false) (validate schema datum .null true) := by
  obtain ⟨parsedPrintable, registryPrintable⟩ :=
    Schema.good_parse Json.hereditary_printable printable ⟨rfl, rfl⟩ parses
  rw [validate_eq parses, validate_eq parses]
  exact ModesAgree.check registryPrintable.2 _ bounded parsedPrintable.2 rfl

/-- What a series of values comes to, by what each of them comes to alone. -/
theorem validateMany_eq (parses : Schema.parse { force := true } [] schema = .ok (parsed, registry))
    (iterated : records.iterated? = some data) (strict : Bool) :
    validateMany schema records strict =
      match data.findSome? fun datum => fault? (validate schema datum .null strict) with
      | some error => .error error
      | none =>
        let refusals := data.flatMap fun datum => refusalsOf (validate schema datum .null strict)
        if strict && !refusals.isEmpty then .error (.refused refusals)
        else .ok (data.all fun datum => undeclined (validate schema datum .null strict)) := by
  rw [validateMany, parses]
  simp only [outcome_ok_bind, iterated, checkAll_eq, validate_eq parses _ strict]
  cases data.findSome? fun datum =>
      fault? (check registry strict Schema.depthLimit datum parsed .null) with
  | some error => rfl
  | none =>
    simp only [outcome_ok_bind]
    split <;> rfl

end Series

/-- The two modes of a check agree on every value for whose refusals there are words: accepted in
one means accepted in the other, false in the lenient mode means refused in the strict one, and any
other failure is the failure of both. A series of such values is accepted by the lenient mode if
each of them is. The strict mode refuses it with the refusals of all its values in order, and
accepts it if there are none, unless a value alone fails otherwise: then the first such failure is
that of the series, in both modes. -/
theorem modes_agree :
    (∀ (registry : Registry) (depth : Nat) (datum : Datum) (schema field : Json),
      (Json.obj registry).isPrintable = true → datum.isBounded = true →
      schema.isPrintable = true → field.isPrintable = true →
      (check registry false depth datum schema field = .ok true ↔
        check registry true depth datum schema field = .ok true) ∧
      (check registry false depth datum schema field = .ok false ↔
        ∃ refusals, check registry true depth datum schema field = .error (.refused refusals)) ∧
      ∀ error, check registry false depth datum schema field = .error error ↔
        check registry true depth datum schema field = .error error ∧
          ∀ refusals, error ≠ .refused refusals) ∧
    ∀ (schema parsed : Json) (registry : Registry) (records : Datum) (data : List Datum),
      schema.Printable → Schema.parse { force := true } [] schema = .ok (parsed, registry) →
      records.iterated? = some data → (∀ datum ∈ data, datum.isBounded = true) →
      (validateMany schema records false = .ok true ↔
        ∀ datum ∈ data, validate schema datum .null false = .ok true) ∧
      match data.findSome? fun datum => fault? (validate schema datum .null true) with
      | some error =>
        validateMany schema records false = .error error ∧
        validateMany schema records true = .error error
      | none =>
        (∃ passed, validateMany schema records false = .ok passed) ∧
        validateMany schema records true =
          match data.flatMap fun datum => refusalsOf (validate schema datum .null true) with
          | [] => .ok true
          | refusals => .error (.refused refusals) := by
  constructor
  · intro registry depth datum schema field registryPrintable bounded printable fieldPrintable
    have agree := ModesAgree.check registryPrintable depth bounded printable fieldPrintable
    have ended := check_strict_ne_false registry depth datum schema field
    generalize check registry false depth datum schema field = lenient at agree
    generalize check registry true depth datum schema field = strict at agree ended
    cases agree with
    | accepted => simp
    | declined => exact absurd rfl ended
    | refused refusals => simp
    | failed other => simp_all
  · intro schema parsed registry records data printable parses iterated bounded
    have agree (datum : Datum) (isIn : datum ∈ data) :=
      validate_agree printable parses (bounded datum isIn)
    have undeclined (datum : Datum) (isIn : datum ∈ data) :
        undeclined (validate schema datum .null true) = true := by
      refine (agree datum isIn).undeclined_strict ?_
      rw [validate_eq parses]
      exact check_strict_ne_false _ _ _ _ _
    have sameFaults : (data.findSome? fun datum => fault? (validate schema datum .null false)) =
        data.findSome? fun datum => fault? (validate schema datum .null true) :=
      findSome?_of_forall_mem fun datum isIn => (agree datum isIn).fault?_eq
    rw [validateMany_eq parses iterated false, validateMany_eq parses iterated true, sameFaults]
    cases faults : data.findSome? fun datum => fault? (validate schema datum .null true) with
    | some error =>
      obtain ⟨before, datum, after, rfl, faulty, -⟩ := List.findSome?_eq_some_iff.mp faults
      refine ⟨⟨nofun, fun allPassed => ?_⟩, rfl, rfl⟩
      have isIn : datum ∈ before ++ datum :: after := by simp
      rw [← (agree datum isIn).fault?_eq, allPassed datum isIn] at faulty
      cases faulty
    | none =>
      have noFault (datum : Datum) (isIn : datum ∈ data) :=
        List.findSome?_eq_none_iff.mp faults datum isIn
      refine ⟨?_, ⟨_, rfl⟩, ?_⟩
      · simp only [Bool.false_and, Bool.false_eq_true, if_false, Except.ok.injEq, List.all_eq_true]
        exact forall₂_congr fun datum isIn =>
          (agree datum isIn).undeclined_lenient (noFault datum isIn)
      · rw [List.all_eq_true.mpr undeclined]
        simp only [Bool.true_and]
        cases data.flatMap fun datum => refusalsOf (validate schema datum .null true) with
        | nil => simp
        | cons refusal rest => rfl

theorem modes_agree_words :
    validateMany (.str "string") (.list [.str "one", .int 2, .null]) true =
      .error (.refused [⟨.int 2, .str "string", .null⟩, ⟨.null, .str "string", .null⟩]) := by
  have parses : Schema.parse { force := true } [] (.str "string") = .ok (.str "string", []) := by
    cbv
  have one : validate (.str "string") (.str "one") .null true = .ok true := by cbv
  have two : validate (.str "string") (.int 2) .null true =
      .error (.refused [⟨.int 2, .str "string", .null⟩]) := by cbv
  have three : validate (.str "string") .null .null true =
      .error (.refused [⟨.null, .str "string", .null⟩]) := by cbv
  have series := (modes_agree.2 _ _ _ (.list [.str "one", .int 2, .null]) _ ⟨rfl, rfl⟩ parses rfl
    (by decide)).2
  simp only [List.findSome?_cons, List.findSome?_nil, List.flatMap_cons, List.flatMap_nil, one, two,
    three, fault?, refusalsOf] at series
  exact series.2

/-- An integer that has no text is declined by the lenient mode, and cannot be refused by the strict
one: there are no words for it. -/
theorem check_of_no_words (registry : Registry) (depth : Nat) {value : Int}
    (long : 10 ^ Datum.digitLimit ≤ value.natAbs) (field : Json) :
    check registry false (depth + 1) (.int value) (.str "int") field = .ok false ∧
      check registry true (depth + 1) (.int value) (.str "int") field = .error .invalid := by
  have tooLarge : fitsBits 32 value = false := by
    have huge : 2 ^ 32 ≤ value.natAbs := by
      refine le_trans ?_ long
      calc 2 ^ 32 ≤ 10 ^ 32 := Nat.pow_le_pow_left (by decide) 32
        _ ≤ 10 ^ Datum.digitLimit := Nat.pow_le_pow_right (by decide) (by decide)
    simp only [fitsBits, Nat.pow_eq, Bool.and_eq_false_iff, decide_eq_false_iff_not]
    omega
  have noText : Datum.isPrintable (.int value) = false := by
    have notShort := (Nat.length_toDigits_le_iff (b := 10) (by decide)
      (show 0 < Datum.digitLimit by decide)).not.mpr (not_lt.mpr long)
    exact decide_eq_false notShort
  have unworded : Refusal.error ⟨.int value, .str "int", field⟩ = .invalid := by
    simp [Refusal.error, Refusal.isPrintable, noText]
  have answer (strict : Bool) : check registry strict (depth + 1) (.int value) (.str "int") field =
      (do
        let passed ← Except.ok (fitsBits 32 value)
        if strict && !passed then throw (Refusal.error ⟨.int value, .str "int", field⟩)
        return passed) := rfl
  rw [answer false, answer true, tooLarge, unworded]
  exact ⟨rfl, rfl⟩

/-- A value that fails otherwise is refused by no place of the schema, and yet its series is not
accepted. -/
theorem faulty_series_not_accepted :
    refusalsOf (validate (.arr [.str "int"]) (.tuple [.int 1, .int 2, .int 3]) .null true) = [] ∧
      validateMany (.arr [.str "int"]) (.list [.tuple [.int 1, .int 2, .int 3]]) true =
        .error .invalid := by
  constructor <;> cbv

end Validation

end Avro
