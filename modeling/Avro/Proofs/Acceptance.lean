import Avro.Decode.Datum
import Avro.Encode.Datum
import Avro.Proofs.WellTyped

/-!
Contract: what the acceptance of a value says about its parts.

Owns: sizes, the places of branches and symbols, and the elimination rules for a value that a
well-typed schema accepts. A well-typed schema has no logical types, so values are neither prepared
before writing nor converted after reading.
-/

namespace Avro

open Datum (iterated? sameAsJson size? sizeLimit)
open Logical (ofSchema prepareFor)
open Schema (documentItemAt itemAt kindOf wellTyped)
open Validation (allPass check checkKind checkUnion findBranch)

variable {count depth index level : Nat} {datum given : Datum}
  {schema field writer place branch : Json} {registry : Registry} {branches : List Json} {α : Type}
  {items : List α}

/-! ### Sizes -/

theorem iterated?_of_size? (sized : datum.size? = some count) :
    ∃ items, datum.iterated? = some items ∧ items.length = count := by
  cases datum with
  | str text => simp_all [size?, iterated?, String.length_toList]
  | bytes content | buffer content => simp_all [size?, iterated?]
  | list items | tuple items => simp_all [size?, iterated?]
  | dict entries => simp_all [size?, iterated?]
  | _ => cases sized

theorem size_ok {σ : Type} {state after : σ} :
    WriteM.size datum state = .ok count after ↔
    datum.size? = some count ∧ count < sizeLimit ∧ state = after := by
  cases isSize : datum.size? with
  | none => simp [WriteM.size, isSize]
  | some size =>
    by_cases small : size < sizeLimit
    · simp only [WriteM.size, isSize, if_pos small, step_pure_ok, Option.some.injEq]
      constructor
      · rintro ⟨rfl, rfl⟩
        exact ⟨rfl, small, rfl⟩
      · rintro ⟨rfl, -, rfl⟩
        exact ⟨rfl, rfl⟩
    · simp only [WriteM.size, isSize, if_neg small, step_throw_ok, Option.some.injEq, false_iff]
      rintro ⟨rfl, isSmall, -⟩
      exact small isSmall

/-! ### Places of branches and symbols -/

theorem itemAt_ok {place : Nat} {item : α} :
    itemAt items place = .ok item ↔ place < sizeLimit ∧ items[place]? = some item := by
  have notNegative : ¬ (place : Int) < 0 := by omega
  simp only [itemAt, if_neg notNegative, Int.toNat_natCast]
  by_cases small : place < sizeLimit
  · have inRange : ¬ (decide ((place : Int) < 0) || decide ((place : Int) ≥ sizeLimit)) = true := by
      simp only [Bool.or_eq_true, decide_eq_true_eq]
      omega
    rw [if_neg inRange]
    cases items[place]? with
    | none => simp
    | some found => simp [small]
  · have outOfRange : (decide ((place : Int) < 0) || decide ((place : Int) ≥ sizeLimit)) =
        true := by
      simp only [Bool.or_eq_true, decide_eq_true_eq]
      omega
    rw [if_pos outOfRange]
    simp [small]

/-- What stands at a place of a document is the item at that place of its iteration. -/
theorem documentItemAt_ok {document item : Json} {place : Nat}
    (found : documentItemAt document place = .ok item) :
    place < sizeLimit ∧ ∃ items, Schema.iterate document = .ok items ∧
    items[place]? = some item := by
  cases document with
  | arr items =>
    obtain ⟨small, itemIs⟩ := itemAt_ok.mp found
    exact ⟨small, items, rfl, itemIs⟩
  | str text =>
    obtain ⟨character, found, itemIs⟩ := outcome_bind_ok.mp found
    obtain ⟨small, characterIs⟩ := itemAt_ok.mp found
    cases itemIs
    refine ⟨small, _, rfl, ?_⟩
    rw [List.getElem?_map, characterIs]
    rfl
  | _ => simp [documentItemAt] at found

theorem choose_ok_field {chosen : Nat × Datum}
    (done : Branch.choose registry depth schema field datum = .ok chosen) (other : Json) :
    Branch.choose registry depth schema other datum = .ok chosen := by
  obtain ⟨branches, branchesAre, done⟩ := outcome_bind_ok.mp done
  refine outcome_bind_ok.mpr ⟨branches, branchesAre, ?_⟩
  split at done
  · obtain ⟨found, foundIs, done⟩ := outcome_bind_ok.mp done
    cases found with
    | none => simp at done
    | some place => exact outcome_bind_ok.mpr ⟨some place, foundIs, done⟩
  · simp at done
  · obtain ⟨found, foundIs, done⟩ := outcome_bind_ok.mp done
    cases found with
    | none => simp at done
    | some place => exact outcome_bind_ok.mpr ⟨some place, foundIs, done⟩

theorem eq_of_sameAsJson_str {text : String} (same : datum.sameAsJson (.str text) = true) :
    datum = .str text := by
  cases datum with
  | str found =>
    rw [sameAsJson, beq_iff_eq] at same
    rw [same]
  | float value =>
    cases whole : value.toInt? <;> simp [sameAsJson, Json.integral?, whole] at same
  | decimal value =>
    cases whole : (Datum.decimal value).integral? <;>
      simp [sameAsJson, Json.integral?, whole] at same
  | _ => simp [sameAsJson, Json.integral?] at same

theorem symbolIndex_ok {symbols : Json} (texts : Schema.isTextList symbols = true)
    (found : Schema.symbolIndex symbols datum = .ok index) :
    index < sizeLimit ∧ ∃ text, datum = .str text ∧
    documentItemAt symbols index = .ok (.str text) := by
  cases symbols with
  | arr items =>
    simp only [Schema.symbolIndex] at found
    cases place : items.findIdx? datum.sameAsJson with
    | none => simp [place, Schema.foundPlace] at found
    | some position =>
      rw [place] at found
      simp only [Schema.foundPlace] at found
      split at found
      · rename_i small
        cases found
        obtain ⟨inRange, same, -⟩ := List.findIdx?_eq_some_iff_getElem.mp place
        have isText := List.all_eq_true.mp texts _ (List.getElem_mem inRange)
        cases symbol : items[index] with
        | str text =>
          rw [symbol] at same
          refine ⟨small, text, eq_of_sameAsJson_str same, itemAt_ok.mpr ⟨small, ?_⟩⟩
          rw [List.getElem?_eq_getElem inRange, symbol]
        | _ => simp [symbol, Schema.isText] at isText
      · simp at found
  | _ => simp [Schema.isTextList] at texts

/-! ### Schemas without logical types -/

private theorem logicalTag_of_wellTyped (typed : wellTyped schema = true) :
    Schema.logicalTag schema = .ok none := by
  cases schema with
  | obj members =>
    obtain ⟨word, typeIs, -, membersTyped⟩ := Schema.wellTyped_obj_iff.mp typed
    have absent : Members.get? members "logicalType" = none := by
      cases found : Members.get? members "logicalType" with
      | none => rfl
      | some logical =>
        have memberTyped := membersTyped _ (Members.mem_of_get? found)
        simp [Schema.memberWellTyped] at memberTyped
    simp [Schema.logicalTag, Schema.required, typeIs, absent]
  | _ => rfl

theorem ofSchema_of_wellTyped (typed : wellTyped schema = true) : ofSchema schema = .ok none := by
  rw [ofSchema, logicalTag_of_wellTyped typed]
  rfl

theorem prepareFor_of_plain (plain : ofSchema schema = .ok none) (datum : Datum) :
    prepareFor schema datum = .ok datum := by
  rw [prepareFor, plain]
  rfl

theorem prepareFor_of_wellTyped (typed : wellTyped schema = true) (datum : Datum) :
    prepareFor schema datum = .ok datum :=
  prepareFor_of_plain (ofSchema_of_wellTyped typed) datum

/-- Without a reader's schema and without a logical type, a value stays as it was read. -/
theorem finish_of_plain {answer : Bool} (plain : ofSchema writer = .ok none)
    (mentioned : Schema.mentions writer "logicalType" = .ok answer) (type : Json) (datum : Datum) :
    Decode.finish writer .null type datum = .ok datum := by
  rw [Decode.finish, mentioned]
  cases answer with
  | false => rfl
  | true =>
    rw [outcome_ok_bind, if_pos rfl, plain]
    rfl

/-- Without a reader's schema, a value of a well-typed schema stays as it was read. -/
theorem finish_of_wellTyped (typed : wellTyped writer = true) (type : Json) (datum : Datum) :
    Decode.finish writer .null type datum = .ok datum := by
  have plain := ofSchema_of_wellTyped typed
  cases writer with
  | str text => exact finish_of_plain plain rfl type datum
  | arr branches => exact finish_of_plain plain rfl type datum
  | obj members => exact finish_of_plain plain rfl type datum
  | _ => simp [wellTyped] at typed

/-! ### Accepted values -/

theorem allPass_ok {test : α → Outcome Bool} :
    allPass test items = .ok true ↔ ∀ item ∈ items, test item = .ok true := by
  induction items with
  | nil => simp [allPass]
  | cons item rest ih =>
    rw [List.forall_mem_cons, ← ih, allPass]
    cases test item with
    | error error => simp [bind, Except.bind]
    | ok passed => cases passed <;> simp

theorem check_prepared_ok (valid : check registry false level given schema place = .ok true) :
    ∃ below kind datum, kindOf schema = .ok kind ∧ prepareFor schema given = .ok datum ∧
      checkKind registry false (check registry false below) schema place datum kind = .ok true := by
  cases level with
  | zero => simp [check] at valid
  | succ below =>
    rw [check] at valid
    obtain ⟨type, typeIs, valid⟩ := outcome_bind_ok.mp valid
    obtain ⟨datum, prepared, valid⟩ := outcome_bind_ok.mp valid
    obtain ⟨kind, kindIs, valid⟩ := outcome_bind_ok.mp valid
    obtain ⟨passed, passedIs, valid⟩ := outcome_bind_ok.mp valid
    refine ⟨below, kind, datum, by simp [kindOf, typeIs, kindIs], prepared, ?_⟩
    cases valid
    exact passedIs

theorem check_ok (typed : wellTyped schema = true)
    (valid : check registry false level given schema place = .ok true) :
    ∃ below kind, kindOf schema = .ok kind ∧
      checkKind registry false (check registry false below) schema place given kind = .ok true := by
  obtain ⟨below, kind, datum, kindIs, prepared, valid⟩ := check_prepared_ok valid
  rw [prepareFor_of_wellTyped typed] at prepared
  cases prepared
  exact ⟨below, kind, kindIs, valid⟩

/-- A branch that a search finds accepts the value, unless it was the best one before. -/
theorem search_ok {accepts : Json → Outcome Bool} {best : Option Branch.Candidate} {found : Nat}
    (done : Branch.search accepts datum best index branches = .ok (some found)) :
    best.map Branch.Candidate.index = some found ∨
      ∃ offset branch, branches[offset]? = some branch ∧ found = index + offset ∧
        accepts branch = .ok true := by
  induction branches generalizing best index with
  | nil => exact Or.inl (Except.ok.inj done)
  | cons branch rest ih =>
    obtain ⟨accepted, acceptedIs, done⟩ := outcome_bind_ok.mp done
    have later : ∀ {candidates : Option Branch.Candidate},
        Branch.search accepts datum candidates (index + 1) rest = .ok (some found) →
        candidates.map Branch.Candidate.index = some found ∨
          ∃ offset other, (branch :: rest)[offset]? = some other ∧ found = index + offset ∧
            accepts other = .ok true := by
      intro candidates restDone
      rcases ih restDone with before | ⟨offset, other, otherIs, foundIs, otherAccepts⟩
      · exact Or.inl before
      · exact Or.inr ⟨offset + 1, other, otherIs, by omega, otherAccepts⟩
    cases accepted with
    | false => exact later done
    | true =>
      obtain ⟨isRecord, -, done⟩ := outcome_bind_ok.mp done
      cases isRecord with
      | false =>
        cases done
        exact Or.inr ⟨0, branch, rfl, rfl, acceptedIs⟩
      | true =>
        obtain ⟨shared, -, done⟩ := outcome_bind_ok.mp done
        rcases later done with before | found
        · -- The best record is now this branch, or still the one before.
          cases best with
          | none => exact Or.inr ⟨0, branch, rfl, (Option.some.inj before).symm, acceptedIs⟩
          | some candidate =>
            by_cases better : candidate.shared < shared
            · simp only [better, decide_true, if_true] at before
              exact Or.inr ⟨0, branch, rfl, (Option.some.inj before).symm, acceptedIs⟩
            · simp only [better, decide_false] at before
              exact Or.inl before
        · exact Or.inr found

theorem findBranch_ok {name : Datum}
    (done : findBranch name branches = .ok (some (index, branch))) :
    branches[index]? = some branch := by
  induction branches generalizing index with
  | nil => simp [findBranch] at done
  | cons head rest ih =>
    obtain ⟨headName, -, done⟩ := outcome_bind_ok.mp done
    split at done
    · cases done
      rfl
    · obtain ⟨found, foundIs, done⟩ := outcome_bind_ok.mp done
      cases found with
      | none => simp at done
      | some place =>
        cases done
        exact ih foundIs

/-- The branch in which an accepted value is written accepts the value that is written there. -/
theorem choose_accepts {below : Nat} {value : Datum}
    (valid : checkUnion false (check registry false below) schema place datum = .ok true)
    (chosen : Branch.choose registry depth schema field datum = .ok (index, value))
    (branchIs : documentItemAt schema index = .ok branch) :
    ∃ level spot, check registry false level value branch spot = .ok true := by
  obtain ⟨-, branches, branchesAre, branchAt⟩ := documentItemAt_ok branchIs
  unfold Branch.choose at chosen
  rw [branchesAre, outcome_ok_bind] at chosen
  split at chosen
  · rename_i name written
    obtain ⟨found, foundIs, chosen⟩ := outcome_bind_ok.mp chosen
    cases found with
    | none => simp at chosen
    | some result =>
      obtain ⟨position, selected⟩ := result
      cases chosen
      have selectedAt := findBranch_ok foundIs
      rw [branchAt] at selectedAt
      cases selectedAt
      simp only [checkUnion, branchesAre, outcome_ok_bind, foundIs] at valid
      exact ⟨below, place, valid⟩
  · simp at chosen
  · obtain ⟨found, foundIs, chosen⟩ := outcome_bind_ok.mp chosen
    cases found with
    | none => simp at chosen
    | some position =>
      cases chosen
      rcases search_ok foundIs with before | ⟨offset, other, otherAt, positionIs, accepted⟩
      · simp at before
      · rw [Nat.zero_add] at positionIs
        rw [← positionIs, branchAt] at otherAt
        cases otherAt
        exact ⟨depth, .null, accepted⟩

theorem wellTyped_documentItemAt (typed : wellTyped schema = true)
    (branchIs : documentItemAt schema index = .ok branch) : wellTyped branch = true := by
  cases schema with
  | arr branches =>
    rw [wellTyped] at typed
    have branchAt := (itemAt_ok.mp branchIs).2
    exact Schema.branchesWellTyped_iff.mp typed branch (List.mem_of_getElem? branchAt)
  | str text =>
    obtain ⟨character, -, branchIs⟩ := outcome_bind_ok.mp branchIs
    cases branchIs
    rfl
  | _ => simp [documentItemAt] at branchIs

/-- The view of a field shows its attributes. -/
theorem fieldView_ok {members : Members} {view : Validation.FieldView}
    (viewIs : Validation.fieldView (.obj members) = .ok view) :
    Schema.required members "name" = .ok view.name ∧
    Schema.required members "type" = .ok view.type ∧
      view.default = (Members.get? members "default").getD .null := by
  obtain ⟨name, nameIs, viewIs⟩ := outcome_bind_ok.mp viewIs
  obtain ⟨key, keyIs, viewIs⟩ := outcome_bind_ok.mp viewIs
  obtain ⟨type, typeIs, viewIs⟩ := outcome_bind_ok.mp viewIs
  cases Schema.eq_of_keyOf keyIs
  cases viewIs
  exact ⟨nameIs, typeIs, rfl⟩

/-- What is looked up in a mapping can be a key. -/
theorem keyOf_of_checkPresence {members : Members} {name : Json} {entries : List (Datum × Datum)}
    (present : Encode.checkPresence members name (.dict entries) = .ok ()) :
    Schema.keyOf name = .ok name := by
  obtain ⟨absent, absentIs, -⟩ := outcome_bind_ok.mp present
  cases name with
  | arr items => cases absentIs
  | obj others => cases absentIs
  | _ => rfl

/-- The fields of a well-typed record have texts as names and well-typed types. -/
theorem wellTyped_fieldView {node : Json} {kind : Kind} {nodes : List Json}
    {view : Validation.FieldView} (typed : wellTyped schema = true)
    (kindIs : kindOf schema = .ok kind) (fielded : Schema.hasFields kind.word = true)
    (nodesAre : Decode.fieldsOf schema = .ok nodes) (isNode : node ∈ nodes)
    (viewIs : Validation.fieldView node = .ok view) :
    Schema.isText view.name = true ∧ wellTyped view.type = true := by
  obtain ⟨fields, fieldsAre, nodesAre⟩ := outcome_bind_ok.mp nodesAre
  have fieldsTyped := Schema.fieldListWellTyped_fields typed kindIs fielded fieldsAre
  cases fields with
  | arr items =>
    cases nodesAre
    have nodeTyped := Schema.fieldsWellTyped_iff.mp fieldsTyped node isNode
    cases node with
    | obj members =>
      obtain ⟨nameIs, typeIs, -⟩ := fieldView_ok viewIs
      have membersTyped := Schema.fieldMembersWellTyped_iff.mp nodeTyped
      have nameTyped := membersTyped _ (Members.mem_of_get? (Schema.required_ok.mp nameIs))
      have typeTyped := membersTyped _ (Members.mem_of_get? (Schema.required_ok.mp typeIs))
      exact ⟨nameTyped, Schema.fieldMemberWellTyped_type.mp typeTyped⟩
    | _ => simp [Schema.fieldWellTyped] at nodeTyped
  | _ => simp [Schema.fieldListWellTyped] at fieldsTyped

end Avro
