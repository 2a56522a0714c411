import Avro.Proofs.Ordinary

/-!
Contract: checks that treat the parts of a value alike treat the value alike.

Owns: `Inspects`, the parts of a value that a check goes on to, with their nodes; `Answering`, the
relations between the outcomes of two checks that are kept where the checks go on from one part to
the next; and that under such a relation of the parts each kind of value is checked alike.

The two checks may differ in their mode, in their place, in the registry and in how they check
parts.
-/

namespace Avro.Validation

open Schema (attributeOf iterate)

variable {leftStrict rightStrict : Bool} {related : Outcome Bool → Outcome Bool → Prop}
  {left right : Checker} {place other : Json}

/-- Where the check of a value by a node of a kind goes on: a value and the node that it is checked
by. -/
inductive Inspects (registry : Registry) (datum : Datum) (schema : Json) :
    Kind → Datum → Json → Prop where
  | item {items : List Datum} {item : Datum} {node : Json}
      (itemsAre : sequenceItems? datum = some items) (isItem : item ∈ items)
      (nodeIs : attributeOf schema "items" = .ok node) :
      Inspects registry datum schema .array item node
  | entry {entries : List (Datum × Datum)} {entry : Datum × Datum} {node : Json}
      (datumIs : datum = .dict entries) (isEntry : entry ∈ entries)
      (nodeIs : attributeOf schema "values" = .ok node) :
      Inspects registry datum schema .map entry.2 node
  | branch {kind : Kind} {branches : List Json} {node : Json}
      (isUnion : kind = .union ∨ kind = .errorUnion)
      (branchesAre : iterate schema = .ok branches) (isBranch : node ∈ branches) :
      Inspects registry datum schema kind datum node
  | chosen {kind : Kind} {branches : List Json} {node : Json} {name value : Datum}
      (isUnion : kind = .union ∨ kind = .errorUnion) (datumIs : datum = .tuple [name, value])
      (branchesAre : iterate schema = .ok branches) (isBranch : node ∈ branches) :
      Inspects registry datum schema kind value node
  | field {kind : Kind} {entries : List (Datum × Datum)} {fields node : Json} {nodes : List Json}
      {view : FieldView} (isRecord : kind = .record ∨ kind = .error ∨ kind = .request)
      (datumIs : datum = .dict entries) (fieldsAre : attributeOf schema "fields" = .ok fields)
      (nodesAre : iterate fields = .ok nodes) (isNode : node ∈ nodes)
      (viewIs : fieldView node = .ok view) :
      Inspects registry datum schema kind (fieldValue entries view.name view.default) view.type
  | definition {name : String} {node : Json} (found : Members.get? registry name = some node) :
      Inspects registry datum schema (.named name) datum node

/-- The branch that a name chooses is one of the branches. -/
theorem mem_of_findBranch {name : Datum} {branches : List Json} {index : Nat} {branch : Json}
    (found : findBranch name branches = .ok (some (index, branch))) : branch ∈ branches := by
  induction branches generalizing index with
  | nil => cases found
  | cons first rest ih =>
    obtain ⟨own, -, found⟩ := outcome_bind_ok.mp found
    split at found
    · cases found
      exact List.mem_cons_self
    · obtain ⟨later, isLater, found⟩ := outcome_bind_ok.mp found
      cases later with
      | none => cases found
      | some later =>
        cases found
        exact List.mem_cons_of_mem _ (ih isLater)

/-- Outcomes of two checks in given modes that stay related if a lookup goes before, if another part
follows, and if the branches of a union are tried. -/
structure Answering (leftStrict rightStrict : Bool)
    (related : Outcome Bool → Outcome Bool → Prop) : Prop where
  same : ∀ {outcome}, Ordinary outcome → related outcome outcome
  after : ∀ {α : Type} {first : Outcome α} {next second : α → Outcome Bool}, Ordinary first →
    (∀ value, first = .ok value → related (next value) (second value)) →
    related (first >>= next) (first >>= second)
  andThen : ∀ {first second next nextSecond}, related first second → related next nextSecond →
    related (do if ← first then next else return false)
      (do if ← second then nextSecond else return false)
  firstPass : ∀ {test second : Json → Outcome Bool} {branches : List Json},
    (∀ branch ∈ branches, related (test branch) (second branch)) →
    related
      (do
        let (passed, refusals) ← firstPass test [] branches
        if !passed && leftStrict then throw (.refused refusals)
        return passed)
      (do
        let (passed, refusals) ← firstPass second [] branches
        if !passed && rightStrict then throw (.refused refusals)
        return passed)

namespace Answering

variable (answering : Answering leftStrict rightStrict related)
variable {registry : Registry} {schema : Json} {datum : Datum} {kind : Kind}

include answering

theorem allPass {α : Type} {test second : α → Outcome Bool} {items : List α}
    (parts : ∀ item ∈ items, related (test item) (second item)) :
    related (allPass test items) (allPass second items) := by
  induction items with
  | nil => exact answering.same (by simp [Validation.allPass])
  | cons item rest ih =>
    rw [List.forall_mem_cons] at parts
    exact answering.andThen parts.1 (ih parts.2)

theorem checkUnion (isUnion : kind = .union ∨ kind = .errorUnion)
    (parts : ∀ value node, Inspects registry datum schema kind value node →
      related (left value node place) (right value node other)) :
    related (checkUnion leftStrict left schema place datum)
      (checkUnion rightStrict right schema other datum) := by
  unfold Validation.checkUnion
  split
  · refine answering.after (.iterate schema) fun branches branchesAre =>
      answering.after (.findBranch _ branches) fun found isFound => ?_
    cases found with
    | none => exact answering.same (by simp)
    | some branch =>
      exact parts _ _ (.chosen isUnion rfl branchesAre (mem_of_findBranch isFound))
  · exact answering.same (by simp)
  · exact answering.after (.iterate schema) fun branches branchesAre =>
      answering.firstPass fun branch isBranch => parts _ _ (.branch isUnion branchesAre isBranch)

/-- The fields of a record are checked alike if parts are, at every place. -/
theorem checkRecord (isRecord : kind = .record ∨ kind = .error ∨ kind = .request)
    (parts : ∀ value node text, Inspects registry datum schema kind value node →
      related (left value node (.str text)) (right value node (.str text))) (field : Json) :
    related (checkRecord left schema field datum) (checkRecord right schema field datum) := by
  refine answering.after (.qualifiedName schema field) fun found _ => ?_
  dsimp only
  split
  · refine answering.after (.attributeOf schema "fields") fun fields fieldsAre =>
      answering.after (.iterate fields) fun nodes nodesAre => ?_
    exact answering.allPass fun node isNode => answering.after (.fieldView node) fun view viewIs =>
      parts _ _ _ (.field isRecord rfl fieldsAre nodesAre isNode viewIs)
  · exact answering.same (by simp)

/-- A value of any kind is checked alike if its parts are, if it is where it is taken as a record,
and if names are known alike. -/
theorem checkKind {leftRegistry rightRegistry : Registry}
    (parts : ∀ value node, Inspects leftRegistry datum schema kind value node →
      related (left value node place) (right value node other))
    (record : kind = .record ∨ kind = .error ∨ kind = .request →
      related (Validation.checkRecord left schema place datum)
        (Validation.checkRecord right schema other datum))
    (named : ∀ name, kind = .named name →
      related (checkKind leftRegistry leftStrict left schema place datum (.named name))
        (checkKind rightRegistry rightStrict right schema other datum (.named name))) :
    related (checkKind leftRegistry leftStrict left schema place datum kind)
      (checkKind rightRegistry rightStrict right schema other datum kind) := by
  cases kind with
  | array =>
    simp only [Validation.checkKind, checkArray]
    split
    · rename_i items itemsAre
      exact answering.allPass fun item isItem =>
        answering.after (.attributeOf schema "items") fun node nodeIs =>
          parts _ _ (.item itemsAre isItem nodeIs)
    · exact answering.same (by simp)
  | map =>
    simp only [Validation.checkKind, checkMap]
    split
    · split
      · exact answering.allPass fun entry isEntry =>
          answering.after (.attributeOf schema "values") fun node nodeIs =>
            parts _ _ (.entry rfl isEntry nodeIs)
      · exact answering.same (by simp)
    · exact answering.same (by simp)
  | union => exact answering.checkUnion (.inl rfl) parts
  | errorUnion => exact answering.checkUnion (.inr rfl) parts
  | record => exact record (.inl rfl)
  | error => exact record (.inr (.inl rfl))
  | request => exact record (.inr (.inr rfl))
  | named name => exact named name rfl
  | fixed =>
    simp only [Validation.checkKind, checkFixed]
    split
    · exact answering.same (by simp)
    · exact answering.same (by simp)
  | enum =>
    exact answering.after (.attributeOf schema "symbols") fun symbols _ =>
      answering.same (.isSymbol symbols datum)
  | _ => exact answering.same (by simp [Validation.checkKind])

/-- A name is looked up alike in one registry. -/
theorem named {name : String}
    (parts : ∀ value node, Inspects registry datum schema (.named name) value node →
      related (left value node place) (right value node other)) :
    related (Validation.checkKind registry leftStrict left schema place datum (.named name))
      (Validation.checkKind registry rightStrict right schema other datum (.named name)) := by
  simp only [Validation.checkKind]
  split
  · rename_i node found
    exact parts _ _ (.definition found)
  · exact answering.same (by simp)

/-- A value of any kind is checked alike in one registry and at one place if its parts are checked
alike, at that place and at those that fields name. -/
theorem checkKind_of_parts {field : Json}
    (parts : ∀ value node, Inspects registry datum schema kind value node → ∀ inner,
      inner = field ∨ (∃ text, inner = .str text) →
        related (left value node inner) (right value node inner)) :
    related (Validation.checkKind registry leftStrict left schema field datum kind)
      (Validation.checkKind registry rightStrict right schema field datum kind) := by
  refine answering.checkKind (fun value node inspects => parts value node inspects field (.inl rfl))
    (fun isRecord => answering.checkRecord isRecord (fun value node text inspects =>
      parts value node inspects _ (.inr ⟨text, rfl⟩)) field) fun name kindIs => ?_
  subst kindIs
  exact answering.named fun value node inspects => parts value node inspects field (.inl rfl)

end Answering

/-! ### Equal outcomes -/

private theorem firstPass_congr {test second : Json → Outcome Bool} {branches : List Json}
    (same : ∀ branch ∈ branches, test branch = second branch) (refusals : List Refusal) :
    firstPass test refusals branches = firstPass second refusals branches := by
  induction branches generalizing refusals with
  | nil => rfl
  | cons branch rest ih =>
    rw [List.forall_mem_cons] at same
    have ih := ih same.2
    rw [firstPass, firstPass, same.1]
    simp only [ih]

theorem answering_eq (strict : Bool) : Answering strict strict Eq where
  same _ := rfl
  after {_ first _ _} _ next := by
    cases first with
    | ok value => exact next value rfl
    | error error => rfl
  andThen first next := by rw [first, next]
  firstPass same := by rw [firstPass_congr same]

end Avro.Validation
