import Avro.Proofs.Forms
import Avro.Proofs.ParsedShape

/-!
Contract: which schemas have a form, and which one.

Owns: that a schema has one form at most, and that a well-typed schema has one if it has a canonical
form.
-/

namespace Avro.Schema

open Members (get? get?_cons sizeOf_lt_of_get?)

variable {members : Members} {text word : String} {texts : List String}

/-! ### One form for a schema -/

/-- The word that stands for a form in its text; a form that is a word has none. -/
def Form.heading : Form → String
  | .word _ => ""
  | .array _ => "array"
  | .map _ => "map"
  | .enum _ _ => "enum"
  | .fixed _ _ => "fixed"
  | .record _ _ => "record"
  | .union _ => "union"

/-- The word that stands for a type in a text: errors are written as records. -/
def headingOf (word : String) : String :=
  if word = "error" then "record" else if primitiveNames.contains word then "" else word

theorem HasForm.heading {members : Members} {form : Form} (hasForm : HasForm (.obj members) form) :
    ∃ word, get? members "type" = some (.str word) ∧ headingOf word = form.heading := by
  cases hasForm with
  | @primitive _ word typeIs _ isPrimitive =>
    refine ⟨word, typeIs, ?_⟩
    have notError : word ≠ "error" := by
      rintro rfl
      exact absurd isPrimitive (by decide)
    rw [headingOf, if_neg notError, if_pos (by simpa using isPrimitive)]
    rfl
  | @record _ word _ _ _ typeIs isRecord =>
    refine ⟨word, typeIs, ?_⟩
    rcases List.mem_pair.mp isRecord with rfl | rfl <;> rfl
  | array typeIs | map typeIs | enum typeIs | fixed typeIs => exact ⟨_, typeIs, rfl⟩

theorem HasForm.heading_eq {form other : Form} (hasForm : HasForm (.obj members) form)
    (hasOther : HasForm (.obj members) other) : form.heading = other.heading := by
  obtain ⟨word, typeIs, headingIs⟩ := hasForm.heading
  obtain ⟨otherWord, otherType, otherHeading⟩ := hasOther.heading
  rw [typeIs] at otherType
  cases otherType
  rw [← headingIs, otherHeading]

mutual

/-- A node has at most one form. -/
theorem HasForm.unique {node : Json} {form : Form} :
    HasForm node form → ∀ other, HasForm node other → form = other
  | .word name, other, hasOther => by
    cases hasOther
    rfl
  | .primitive typeIs plain isPrimitive, other, hasOther => by
    have sameHeading := (HasForm.primitive typeIs plain isPrimitive).heading_eq hasOther
    cases hasOther with
    | primitive otherType _ _ =>
      rw [typeIs] at otherType
      cases otherType
      rfl
    | _ => simp [Form.heading] at sameHeading
  | .array typeIs plain itemsAre inner, other, hasOther => by
    have sameHeading := (HasForm.array typeIs plain itemsAre inner).heading_eq hasOther
    cases hasOther with
    | array _ _ otherItems otherInner =>
      rw [itemsAre] at otherItems
      cases otherItems
      rw [inner.unique _ otherInner]
    | _ => simp [Form.heading] at sameHeading
  | .map typeIs plain valuesAre inner, other, hasOther => by
    have sameHeading := (HasForm.map typeIs plain valuesAre inner).heading_eq hasOther
    cases hasOther with
    | map _ _ otherValues otherInner =>
      rw [valuesAre] at otherValues
      cases otherValues
      rw [inner.unique _ otherInner]
    | _ => simp [Form.heading] at sameHeading
  | .enum typeIs plain nameIs symbolsAre, other, hasOther => by
    have sameHeading := (HasForm.enum typeIs plain nameIs symbolsAre).heading_eq hasOther
    cases hasOther with
    | enum _ _ otherName otherSymbols =>
      rw [nameIs] at otherName
      cases otherName
      rw [symbolsAre, Option.some.injEq, Json.arr.injEq] at otherSymbols
      rw [List.map_injective_iff.mpr (fun _ _ => Json.str.inj) otherSymbols]
    | _ => simp [Form.heading] at sameHeading
  | .fixed typeIs plain nameIs sizeIs, other, hasOther => by
    have sameHeading := (HasForm.fixed typeIs plain nameIs sizeIs).heading_eq hasOther
    cases hasOther with
    | fixed _ _ otherName otherSize =>
      rw [nameIs] at otherName
      rw [sizeIs] at otherSize
      cases otherName
      cases otherSize
      rfl
    | _ => simp [Form.heading] at sameHeading
  | .record typeIs isRecord plain nameIs fieldsAre inner, other, hasOther => by
    have sameHeading := (HasForm.record typeIs isRecord plain nameIs fieldsAre inner).heading_eq
      hasOther
    cases hasOther with
    | record _ _ _ otherName otherFields otherInner =>
      rw [nameIs] at otherName
      rw [fieldsAre] at otherFields
      cases otherName
      cases otherFields
      rw [inner.unique _ otherInner]
    | _ => simp [Form.heading] at sameHeading
  | .union inner, other, hasOther => by
    cases hasOther with
    | union otherInner => rw [inner.unique _ otherInner]

theorem BranchesHaveForm.unique {branches : List Json} {forms : List Form} :
    BranchesHaveForm branches forms →
    ∀ others, BranchesHaveForm branches others → forms = others
  | .nil, others, haveOthers => by
    cases haveOthers
    rfl
  | .cons first rest, others, haveOthers => by
    cases haveOthers with
    | cons otherFirst otherRest => rw [first.unique _ otherFirst, rest.unique _ otherRest]

theorem FieldsHaveForm.unique {nodes : List Json} {fields : List (String × Form)} :
    FieldsHaveForm nodes fields →
    ∀ others, FieldsHaveForm nodes others → fields = others
  | .nil, others, haveOthers => by
    cases haveOthers
    rfl
  | .cons nameIs typeIs inner rest, others, haveOthers => by
    cases haveOthers with
    | cons otherName otherType otherInner otherRest =>
      rw [nameIs] at otherName
      rw [typeIs] at otherType
      cases otherName
      cases otherType
      rw [inner.unique _ otherInner, rest.unique _ otherRest]

end

/-! ### Schemas with a canonical form -/

theorem canonicalUnder_ok {key : String} (done : canonicalUnder key members = .ok text) :
    ∃ node, get? members key = some node ∧ canonicalNode node = .ok text := by
  rw [canonicalUnder_eq] at done
  cases found : get? members key with
  | none => simp [found] at done
  | some node => exact ⟨node, rfl, by simpa [found] using done⟩

private theorem canonicalBranches_ok {branches : List Json}
    (done : canonicalBranches branches = .ok texts)
    (each : ∀ branch ∈ branches, ∀ text, canonicalNode branch = .ok text →
      ∃ form, HasForm branch form) :
    ∃ forms, BranchesHaveForm branches forms := by
  induction branches generalizing texts with
  | nil => exact ⟨[], .nil⟩
  | cons branch rest ih =>
    rw [List.forall_mem_cons] at each
    rw [canonicalBranches] at done
    obtain ⟨text, branchDone, done⟩ := outcome_bind_ok.mp done
    obtain ⟨others, restDone, -⟩ := outcome_bind_ok.mp done
    obtain ⟨form, hasForm⟩ := each.1 text branchDone
    obtain ⟨forms, haveForms⟩ := ih restDone each.2
    exact ⟨form :: forms, .cons hasForm haveForms⟩

/-- Fields whose texts can be written have forms, if their types have. -/
theorem canonicalFields_ok {nodes : List Json} (typed : fieldsWellTyped nodes = true)
    (done : canonicalFields nodes = .ok texts)
    (each : ∀ members, .obj members ∈ nodes → ∀ type, get? members "type" = some type →
      wellTyped type = true →
      ∀ text, canonicalNode type = .ok text → ∃ form, HasForm type form) :
    ∃ fields, FieldsHaveForm nodes fields := by
  induction nodes generalizing texts with
  | nil => exact ⟨[], .nil⟩
  | cons node rest ih =>
    rw [fieldsWellTyped, Bool.and_eq_true] at typed
    rw [canonicalFields] at done
    obtain ⟨text, fieldDone, done⟩ := outcome_bind_ok.mp done
    obtain ⟨others, restDone, -⟩ := outcome_bind_ok.mp done
    obtain ⟨fields, haveForms⟩ :=
      ih typed.2 restDone fun members isField => each members (by simp [isField])
    cases node with
    | obj members =>
      have membersTyped := fieldMembersWellTyped_iff.mp typed.1
      rw [canonicalField] at fieldDone
      obtain ⟨name, nameDone, fieldDone⟩ := outcome_bind_ok.mp fieldDone
      obtain ⟨typeText, underDone, -⟩ := outcome_bind_ok.mp fieldDone
      have nameIs := required_ok.mp nameDone
      obtain ⟨type, typeIs, typeDone⟩ := canonicalUnder_ok underDone
      have nameTyped : isText name = true := membersTyped _ (Members.mem_of_get? nameIs)
      have typeTyped := fieldMemberWellTyped_type.mp (membersTyped _ (Members.mem_of_get? typeIs))
      obtain ⟨form, hasForm⟩ := each members (by simp) type typeIs typeTyped typeText typeDone
      cases name with
      | str word => exact ⟨(word, form) :: fields, .cons nameIs typeIs hasForm haveForms⟩
      | _ => cases nameTyped
    | _ => cases typed.1

theorem exists_name {name : Json} (typed : wellTyped (.obj members) = true)
    (typeIs : get? members "type" = some (.str word)) (hasNames : hasName word = true)
    (nameDone : required members "name" = .ok name) :
    ∃ text, get? members "name" = some (.str text) := by
  have nameIs := required_ok.mp nameDone
  have nameTyped := memberWellTyped_of_get? typed typeIs nameIs
  cases name with
  | str text => exact ⟨text, nameIs⟩
  | _ => simp [memberWellTyped, hasNames, isText] at nameTyped

theorem hasName_of_isRecord (isRecord : word ∈ ["record", "error"]) :
    hasName word = true ∧ hasFields word = true := by
  rcases List.mem_pair.mp isRecord with rfl | rfl <;> exact ⟨rfl, rfl⟩

section Objects

variable {members : Members} {text : String} (typed : wellTyped (.obj members) = true)
  (each : ∀ part text, sizeOf part < sizeOf members → wellTyped part = true →
    canonicalNode part = .ok text → ∃ form, HasForm part form)
include typed each

private theorem exists_form_record {word : String} (typeIs : get? members "type" = some (.str word))
    (isRecord : word ∈ ["record", "error"])
    (done : canonicalRecord members (canonicalFieldsIn members) = .ok text) :
    ∃ form, HasForm (.obj members) form := by
  obtain ⟨hasNames, hasParts⟩ := hasName_of_isRecord isRecord
  obtain ⟨name, nameDone, done⟩ := outcome_bind_ok.mp done
  obtain ⟨texts, fieldsDone, -⟩ := outcome_bind_ok.mp done
  obtain ⟨name, nameIs⟩ := exists_name typed typeIs hasNames nameDone
  cases found : get? members "fields" with
  | none =>
    rw [canonicalFieldsIn_eq, found] at fieldsDone
    cases fieldsDone
  | some value =>
    have listTyped := memberWellTyped_of_get? typed typeIs found
    cases value with
    | arr nodes =>
      rw [canonicalFieldsIn_of_get? found] at fieldsDone
      have nodesTyped : fieldsWellTyped nodes = true := by
        simpa [memberWellTyped, hasParts, fieldListWellTyped] using listTyped
      have listSmaller := sizeOf_lt_of_get? found
      rw [Json.arr.sizeOf_spec] at listSmaller
      obtain ⟨fields, haveForms⟩ :=
        canonicalFields_ok nodesTyped fieldsDone fun inner isField type inside => by
        have fieldSmaller := List.sizeOf_lt_of_mem isField
        have typeSmaller := sizeOf_lt_of_get? inside
        rw [Json.obj.sizeOf_spec] at fieldSmaller
        exact fun typeTyped text => each type text (by omega) typeTyped
      exact ⟨.record name fields, .record typeIs isRecord (get?_logicalType typed) nameIs
        found haveForms⟩
    | _ => simp [memberWellTyped, hasParts, fieldListWellTyped] at listTyped

/-- A well-typed object that has a canonical form has a form if its parts have. -/
theorem exists_form_obj (done : canonicalNode (.obj members) = .ok text) :
    ∃ form, HasForm (.obj members) form := by
  obtain ⟨word, typeIs, isWord, -⟩ := wellTyped_obj_iff.mp typed
  have plain := get?_logicalType typed
  rw [canonicalNode, required_ok.mpr typeIs] at done
  rw [typeWords, List.mem_append] at isWord
  rcases isWord with isPrimitive | isComposite
  · exact ⟨.word word, .primitive typeIs plain isPrimitive⟩
  · simp only [List.mem_cons, List.not_mem_nil, or_false] at isComposite
    rcases isComposite with rfl | rfl | rfl | rfl | rfl | rfl
    · obtain ⟨name, nameDone, rest⟩ :=
        outcome_bind_ok.mp (show canonicalFixed members = .ok text from done)
      obtain ⟨size, sizeDone, -⟩ := outcome_bind_ok.mp rest
      obtain ⟨name, nameIs⟩ := exists_name typed typeIs rfl nameDone
      have sizeIs := required_ok.mp sizeDone
      have sizeTyped := memberWellTyped_of_get? typed typeIs sizeIs
      cases size with
      | int count => exact ⟨.fixed name count, .fixed typeIs plain nameIs sizeIs⟩
      | _ => simp [memberWellTyped, isInteger] at sizeTyped
    · obtain ⟨name, nameDone, rest⟩ :=
        outcome_bind_ok.mp (show canonicalEnum members = .ok text from done)
      obtain ⟨symbols, symbolsDone, -⟩ := outcome_bind_ok.mp rest
      obtain ⟨name, nameIs⟩ := exists_name typed typeIs rfl nameDone
      have symbolsAre := required_ok.mp symbolsDone
      have symbolsTyped : isTextList symbols = true := by
        simpa [memberWellTyped] using memberWellTyped_of_get? typed typeIs symbolsAre
      obtain ⟨texts, rfl⟩ := exists_texts symbolsTyped
      exact ⟨.enum name texts, .enum typeIs plain nameIs symbolsAre⟩
    · obtain ⟨_, underDone, -⟩ :=
        outcome_bind_ok.mp (show canonicalUnder "items" members >>= _ = .ok text from done)
      obtain ⟨part, found, partDone⟩ := canonicalUnder_ok underDone
      have partTyped : wellTyped part = true := by
        simpa [memberWellTyped] using memberWellTyped_of_get? typed typeIs found
      obtain ⟨items, hasForm⟩ := each part _ (sizeOf_lt_of_get? found) partTyped partDone
      exact ⟨.array items, .array typeIs plain found hasForm⟩
    · obtain ⟨_, underDone, -⟩ :=
        outcome_bind_ok.mp (show canonicalUnder "values" members >>= _ = .ok text from done)
      obtain ⟨part, found, partDone⟩ := canonicalUnder_ok underDone
      have partTyped : wellTyped part = true := by
        simpa [memberWellTyped] using memberWellTyped_of_get? typed typeIs found
      obtain ⟨values, hasForm⟩ := each part _ (sizeOf_lt_of_get? found) partTyped partDone
      exact ⟨.map values, .map typeIs plain found hasForm⟩
    · exact exists_form_record typed each typeIs (by decide) done
    · exact exists_form_record typed each typeIs (by decide) done

end Objects

/-- A well-typed node has a form wherever its text can be written. -/
theorem exists_form_of_canonicalNode {node : Json} (typed : wellTyped node = true)
    (done : canonicalNode node = .ok text) : ∃ form, HasForm node form := by
  -- Parts are found by their keys, so the induction is on the size of the node.
  induction sizeIs : sizeOf node using Nat.strong_induction_on generalizing node text with
  | _ size ih =>
    cases node with
    | str name => exact ⟨.word name, .word name⟩
    | arr branches =>
      rw [wellTyped, branchesWellTyped_iff] at typed
      rw [canonicalNode] at done
      rw [Json.arr.sizeOf_spec] at sizeIs
      obtain ⟨texts, branchesDone, -⟩ := outcome_bind_ok.mp done
      obtain ⟨forms, haveForms⟩ :=
        canonicalBranches_ok branchesDone fun branch isBranch text branchDone => by
        have smaller := List.sizeOf_lt_of_mem isBranch
        exact ih (sizeOf branch) (by omega) (typed branch isBranch) branchDone rfl
      exact ⟨.union forms, .union haveForms⟩
    | obj members =>
      rw [Json.obj.sizeOf_spec] at sizeIs
      refine exists_form_obj typed (fun part _ smaller partTyped partDone => ?_) done
      exact ih (sizeOf part) (by omega) partTyped partDone rfl
    | _ => cases typed

end Avro.Schema
