import Avro.Proofs.Acceptance
import Avro.Proofs.ParsedForms
import Avro.Proofs.ReadingLevel

/-!
Contract: what is read depends on the form of a schema alone.

Owns: that two schemas of one form read the same values from every source, failures included, if the
definitions behind the names are those of the form; and that schemas with one canonical form
therefore decode alike.

The one thing that the form of a node leaves open is whether a record is called an error. The word
matters for a failure within a number only, and such a failure has its report by the time it reaches
a record: no step of a formed node leaves it unreported.
-/

namespace Avro

open Decode (Reader readArray readFields readKind readMap readRecord readUnion)
open Kind (ofName)
open Members (get?)

open Schema (Form HasForm BranchesHaveForm FieldsHaveForm Grounded mentions primitiveNames typeOf)

variable {σ α β : Type}
variable {form : Form} {node : Json}

/-! ### Reported failures -/

/-- A step that does not fail within a number without a report. -/
def Reported (step : ReadM σ α) : Prop := ∀ state after, step state ≠ .error .badLayout after

namespace Reported

variable {step : ReadM σ α}

theorem pure (value : α) : Reported (Pure.pure value : ReadM σ α) := by
  rintro state after ⟨⟩

theorem bind {next : α → ReadM σ β} (reported : Reported step)
    (nextReported : ∀ value, Reported (next value)) : Reported (step >>= next) := by
  intro state after failed
  cases started : step state with
  | ok value between =>
    rw [step_bind_of_ok started] at failed
    exact nextReported value between after failed
  | error error between =>
    rw [step_bind_of_error started] at failed
    cases failed
    exact reported state after started

theorem orTruncated (type : Json) (step : ReadM σ α) : Reported (Decode.orTruncated type step) := by
  intro state after failed
  unfold Decode.orTruncated at failed
  split at failed
  · cases failed
  · rename_i notLayout
    exact notLayout after failed

private theorem orTruncated_eq (reported : Reported step) (type : Json) :
    Decode.orTruncated type step = step := by
  funext state
  unfold Decode.orTruncated
  split
  · rename_i after failed
    exact absurd failed (reported state after)
  · rfl

end Reported

/-! ### Kinds -/

private theorem finish_of_hasForm (hasForm : HasForm node form) (type : Json) (datum : Datum) :
    Decode.finish node .null type datum = .ok datum := by
  have ofObject {members : Members} (plain : get? members "logicalType" = none) :
      Decode.finish (.obj members) .null type datum = .ok datum := by
    rw [Decode.finish, mentions, Members.has, plain]
    rfl
  cases hasForm with
  | word name => exact finish_of_wellTyped rfl type datum
  | @union branches _ inner =>
    rw [Decode.finish, mentions, outcome_ok_bind]
    cases branches.any fun item => item.same (.str "logicalType") with
    | true | false => rfl
  | primitive _ plain _ => exact ofObject plain
  | array _ plain _ _ | map _ plain _ _ | enum _ plain _ _ | fixed _ plain _ _ =>
    exact ofObject plain
  | record _ _ plain _ _ _ => exact ofObject plain

theorem Schema.HasForm.kind (hasForm : HasForm node form) :
    (∃ name, node = .str name ∧ form = .word name ∧ ofName name = .named name) ∨
      ∃ word, typeOf node = .ok (.str word) ∧ (ofName word).isBuiltIn = true := by
  have ofObject {members : Members} {word : String}
    (typeIs : get? members "type" = some (.str word)) :
      typeOf (.obj members) = .ok (.str word) := attributeOf_obj typeIs
  cases hasForm with
  | word name =>
    cases builtIn : (ofName name).isBuiltIn with
    | true => exact .inr ⟨name, rfl, builtIn⟩
    | false => exact .inl ⟨name, rfl, rfl, ofName_of_isBuiltIn_false builtIn⟩
  | union inner => exact .inr ⟨"union", rfl, rfl⟩
  | primitive typeIs _ isPrimitive =>
    have builtIn : ∀ word ∈ primitiveNames, (ofName word).isBuiltIn = true := by decide
    exact .inr ⟨_, ofObject typeIs, builtIn _ isPrimitive⟩
  | array typeIs _ _ _ | map typeIs _ _ _ | enum typeIs _ _ _ | fixed typeIs _ _ _ =>
    exact .inr ⟨_, ofObject typeIs, rfl⟩
  | record typeIs isRecord _ _ _ _ =>
    have builtIn : ∀ word ∈ ["record", "error"], (ofName word).isBuiltIn = true := by decide
    exact .inr ⟨_, ofObject typeIs, builtIn _ isRecord⟩

/-- A level of a built-in kind is the step of its kind, with its failures reported. -/
theorem read_of_hasForm [Source σ] {registry : Registry} {depth : Nat} {word : String}
    (hasForm : HasForm node form) (typeIs : typeOf node = .ok (.str word))
    (builtIn : (ofName word).isBuiltIn = true) :
    (Decode.read registry (depth + 1) node .null false : ReadM σ Datum) =
      Decode.orTruncated (.str word)
        (readKind registry (Decode.read registry depth) (Decode.skip registry depth) node .null
        false (ofName word)) := by
  rw [read_of_isBuiltIn typeIs rfl builtIn, resolveReader_null, readLift_ok_bind]
  simp only [finish_of_hasForm hasForm]
  exact bind_pure _

/-- A word is read alike: as a built-in type, or by the definitions behind it. A word for unions is
read as the union of its letters. -/
theorem readName_congr [Source σ] {registry otherRegistry : Registry} {depth : Nat} {text : String}
    (letters : ofName text = .union ∨ ofName text = .errorUnion → ∀ letter ∈ text.toList,
      (Decode.read registry depth (.str (String.ofList [letter])) .null false : ReadM σ Datum) =
        Decode.read otherRegistry depth (.str (String.ofList [letter])) .null false)
    (behind : ofName text = .named text →
      Option.Rel (fun definition other =>
        (Decode.read registry depth definition .null false : ReadM σ Datum) =
        Decode.read otherRegistry depth other .null false) (get? registry text)
        (get? otherRegistry text)) :
    (Decode.read registry (depth + 1) (.str text) .null false : ReadM σ Datum) =
      Decode.read otherRegistry (depth + 1) (.str text) .null false := by
  cases builtIn : (ofName text).isBuiltIn with
  | true =>
    have branches (isUnion : ofName text = .union ∨ ofName text = .errorUnion) :
        readUnion registry (Decode.read registry depth) (.str text) .null false =
          (readUnion otherRegistry (Decode.read otherRegistry depth) (.str text) .null false :
            ReadM σ Datum) := by
      unfold readUnion
      refine step_bind_congr fun _ index after _ => congrFun ?_ after
      refine step_bind_congr fun _ branch after branchIs => congrFun ?_ after
      obtain ⟨letter, found, isText⟩ := outcome_bind_ok.mp (readLift_ok.mp branchIs).1
      cases isText
      exact letters isUnion letter (mem_of_itemAt found)
    rw [read_of_hasForm (.word text) rfl builtIn, read_of_hasForm (.word text) rfl builtIn]
    refine congrArg (Decode.orTruncated _) ?_
    cases kindIs : ofName text with
    | union => exact branches (.inl kindIs)
    | errorUnion => exact branches (.inr kindIs)
    | named name =>
      rw [kindIs] at builtIn
      cases builtIn
    | foreign value =>
      rw [kindIs] at builtIn
      cases builtIn
    | _ => rfl
  | false =>
    have isName := ofName_of_isBuiltIn_false builtIn
    have related := behind isName
    rw [read_of_named isName, read_of_named isName]
    unfold Schema.resolve
    generalize get? registry text = known at related ⊢
    generalize get? otherRegistry text = otherKnown at related ⊢
    cases related with
    | none => rfl
    | some same => exact same

/-! ### One level -/

/-- Two readers read by the same form alike, if it looks up some names only. -/
def ReadsByForm (names : List String) (read other : Reader σ) : Prop :=
  ∀ ⦃left right : Json⦄ ⦃form : Form⦄, HasForm left form → HasForm right form →
    form.references ⊆ names →
    read left .null false = other right .null false

/-- A reader reports the failures of formed nodes, if they look up some names only. -/
def Reports (names : List String) (read : Reader σ) : Prop :=
  ∀ ⦃node : Json⦄ ⦃form : Form⦄, HasForm node form → form.references ⊆ names →
    Reported (read node .null false)

section Level

variable {names : List String} {read other : Reader σ}
variable {members : Members} {fields : List (String × Form)} {left right nodes : List Json}
  {leftNode rightNode : Json} {forms : List Form}

theorem readFields_cons {name : String} {node : Json}
    (nameIs : get? members "name" = some (.str name)) (typeIs : get? members "type" = some node)
    (record : List (Datum × Datum)) (rest : List Json) :
    readFields read false record (.obj members :: rest) =
      (read node .null false >>= fun value =>
        readFields read false (Decode.insertField record (.str name) value) rest) := by
  rw [readFields, attributeOf_obj typeIs, readLift_ok_bind]
  simp only [fieldKey_of_named nameIs, readLift_ok_bind]

private theorem readFields_congr (below : ReadsByForm names read other)
    (leftForms : FieldsHaveForm left fields) (rightForms : FieldsHaveForm right fields)
    (within : Form.fieldReferences fields ⊆ names) (record : List (Datum × Datum)) :
    readFields read false record left = readFields other false record right := by
  induction fields generalizing left right record with
  | nil =>
    cases leftForms
    cases rightForms
    rfl
  | cons field rest ih =>
    rw [Form.fieldReferences, List.append_subset] at within
    cases leftForms with
    | cons leftName leftType leftInner leftOthers =>
      cases rightForms with
      | cons rightName rightType rightInner rightOthers =>
        rw [readFields_cons leftName leftType, readFields_cons rightName rightType,
          below leftInner rightInner within.1]
        exact step_bind_congr fun _ _ after _ =>
          congrFun (ih leftOthers rightOthers within.2 _) after

private theorem reported_readFields (reports : Reports names read)
    (haveForms : FieldsHaveForm nodes fields) (within : Form.fieldReferences fields ⊆ names)
    (record : List (Datum × Datum)) : Reported (readFields read false record nodes) := by
  induction fields generalizing nodes record with
  | nil =>
    cases haveForms
    exact .pure record
  | cons field rest ih =>
    rw [Form.fieldReferences, List.append_subset] at within
    cases haveForms with
    | cons nameIs typeIs inner others =>
      rw [readFields_cons nameIs typeIs]
      exact (reports inner within.1).bind fun _ => ih others within.2 _

private theorem readRecord_of_fields (fieldsAre : get? members "fields" = some (.arr nodes))
    (skip : Json → ReadM σ Unit) :
    readRecord read skip (.obj members) .null false =
      (readFields read false [] nodes >>= fun record => pure (.dict record)) := by
  rw [readRecord, Decode.fieldsOf, attributeOf_obj fieldsAre]
  rfl

private theorem readArray_congr [Source σ] {left right : Members}
    (leftItems : get? left "items" = some leftNode)
    (rightItems : get? right "items" = some rightNode)
    (same : read leftNode .null false = other rightNode .null false) :
    readArray read (.obj left) .null false = readArray other (.obj right) .null false := by
  have partIs : Decode.readerPart .null "items" = .ok .null := rfl
  unfold readArray
  simp only [attributeOf_obj leftItems, attributeOf_obj rightItems, partIs, readLift_ok_bind, same]

private theorem readMap_congr [Source σ] {left right : Members}
    (leftValues : get? left "values" = some leftNode)
    (rightValues : get? right "values" = some rightNode)
    (same : read leftNode .null false = other rightNode .null false) :
    readMap read (.obj left) .null false = readMap other (.obj right) .null false := by
  have partIs : Decode.readerPart .null "values" = .ok .null := rfl
  unfold readMap
  simp only [attributeOf_obj leftValues, attributeOf_obj rightValues, partIs,
    readLift_ok_bind, same]

/-- The branches of two unions of one form are of the same forms, one by one. -/
theorem forall₂_of_branchesHaveForm (leftForms : BranchesHaveForm left forms)
    (rightForms : BranchesHaveForm right forms) (within : Form.branchReferences forms ⊆ names) :
    List.Forall₂ (fun branch other => ∃ form, HasForm branch form ∧ HasForm other form ∧
      form.references ⊆ names) left right := by
  induction forms generalizing left right with
  | nil =>
    cases leftForms
    cases rightForms
    exact .nil
  | cons form rest ih =>
    rw [Form.branchReferences, List.append_subset] at within
    cases leftForms with
    | cons leftFirst leftOthers =>
      cases rightForms with
      | cons rightFirst rightOthers =>
        exact .cons ⟨form, leftFirst, rightFirst, within.1⟩ (ih leftOthers rightOthers within.2)

private theorem itemAt_congr {next other : Json → ReadM σ α} {left right : List Json}
    {relation : Json → Json → Prop} (items : List.Forall₂ relation left right) (index : Int)
    (agree : ∀ item otherItem, relation item otherItem → next item = other otherItem) :
    ReadM.lift (Schema.itemAt left index) >>= next =
      ReadM.lift (Schema.itemAt right index) >>= other := by
  obtain ⟨sameLength, related⟩ := List.forall₂_iff_get.mp items
  unfold Schema.itemAt
  rw [← sameLength]
  dsimp only
  generalize (if index < 0 then index + (left.length : Int) else index) = place
  split
  · rfl
  · by_cases inside : place.toNat < left.length
    · rw [List.getElem?_eq_getElem inside, List.getElem?_eq_getElem (sameLength ▸ inside)]
      exact agree _ _ (related place.toNat inside (sameLength ▸ inside))
    · rw [List.getElem?_eq_none (Nat.le_of_not_lt inside),
        List.getElem?_eq_none (sameLength ▸ Nat.le_of_not_lt inside)]
      rfl

private theorem readUnion_congr [Source σ] {registry otherRegistry : Registry}
    (below : ReadsByForm names read other) (leftForms : BranchesHaveForm left forms)
    (rightForms : BranchesHaveForm right forms) (within : Form.branchReferences forms ⊆ names) :
    readUnion registry read (.arr left) .null false =
      readUnion otherRegistry other (.arr right) .null false := by
  unfold readUnion
  refine step_bind_congr fun _ index after _ => congrFun ?_ after
  refine itemAt_congr (forall₂_of_branchesHaveForm leftForms rightForms within) index ?_
  rintro branch otherBranch ⟨form, hasForm, otherHasForm, branchWithin⟩
  exact below hasForm otherHasForm branchWithin

end Level

/-! ### All levels -/

section Depth

variable [Source σ] {whole : Form} {registry otherRegistry : Registry}
variable {name word : String} {depth : Nat}

/-- The definitions behind a name that a form looks up are of the same form, and look up no other
names. -/
theorem definitions_of_grounded (grounded : Grounded registry whole)
    (otherGrounded : Grounded otherRegistry whole) (isReference : name ∈ whole.references) :
    Option.Rel (fun definition other => ∃ form, HasForm definition form ∧ HasForm other form ∧
      form.references ⊆ whole.references) (get? registry name) (get? otherRegistry name) := by
  have related := grounded name isReference
  have otherRelated := otherGrounded name isReference
  cases defined : whole.definition? name with
  | none =>
    rw [defined] at related otherRelated
    generalize get? registry name = known at related ⊢
    generalize get? otherRegistry name = otherKnown at otherRelated ⊢
    cases related
    cases otherRelated
    exact .none
  | some form =>
    have within := Form.references_subset whole defined
    rw [defined] at related otherRelated
    generalize get? registry name = known at related ⊢
    generalize get? otherRegistry name = otherKnown at otherRelated ⊢
    cases related with
    | some hasForm =>
      cases otherRelated with
      | some otherHasForm => exact .some ⟨form, hasForm, otherHasForm, within⟩

theorem mem_references_of_named (isName : ofName name = .named name)
    (within : (Form.word name).references ⊆ whole.references) : name ∈ whole.references := by
  apply within
  rw [Form.references, Form.wordReferences, isName]
  exact List.mem_singleton_self name

private theorem reports_read (grounded : Grounded registry whole) (depth : Nat) :
    Reports whole.references (Decode.read registry depth : Reader σ) := by
  induction depth with
  | zero =>
    rintro node form _ _ state after ⟨⟩
  | succ depth ih =>
    intro node form hasForm within
    rcases hasForm.kind with ⟨name, rfl, rfl, isName⟩ | ⟨word, typeIs, builtIn⟩
    · have related := definitions_of_grounded grounded grounded
        (mem_references_of_named isName within)
      rw [read_of_named isName]
      unfold Schema.resolve
      cases known : get? registry name with
      | none => rintro state after ⟨⟩
      | some definition =>
        rw [known] at related
        cases related with
        | some formed =>
          obtain ⟨form, definitionForm, -, formWithin⟩ := formed
          exact ih definitionForm formWithin
    · rw [read_of_hasForm hasForm typeIs builtIn]
      exact .orTruncated _ _

private theorem read_record (grounded : Grounded registry whole) {depth : Nat} {node : Json}
    {name : String} {fields : List (String × Form)} (hasForm : HasForm node (.record name fields))
    (within : Form.fieldReferences fields ⊆ whole.references) :
    ∃ nodes, FieldsHaveForm nodes fields ∧
      (Decode.read registry (depth + 1) node .null false : ReadM σ Datum) =
      (readFields (Decode.read registry depth) false [] nodes >>= fun record =>
        pure (.dict record)) := by
  cases hasForm with
  | @record members word _ nodes _ typeIs isRecord plain nameIs fieldsAre inner =>
    have builtIn : ∀ word ∈ ["record", "error"], (ofName word).isBuiltIn = true := by decide
    have isRecordStep : readKind registry (Decode.read registry depth) (Decode.skip registry depth)
      (.obj members) .null false
        (ofName word) = (readRecord (Decode.read registry depth) (Decode.skip registry depth)
          (.obj members) .null false :
          ReadM σ Datum) := by
      rcases List.mem_pair.mp isRecord with rfl | rfl <;> rfl
    have isReported : Reported
        (readFields (Decode.read registry depth) false [] nodes >>= fun record =>
        pure (.dict record) : ReadM σ Datum) :=
      (reported_readFields (reports_read grounded depth) inner within []).bind fun _ => .pure _
    refine ⟨nodes, inner, ?_⟩
    rw [read_of_hasForm (.record typeIs isRecord plain nameIs fieldsAre inner)
      (attributeOf_obj typeIs) (builtIn word isRecord),
      isRecordStep, readRecord_of_fields fieldsAre, isReported.orTruncated_eq]

private theorem read_primitive {node : Json} (hasForm : HasForm node (.word word))
    (isPrimitive : word ∈ primitiveNames) :
    (Decode.read registry (depth + 1) node .null false : ReadM σ Datum) =
      Decode.read [] (depth + 1) (.str word) .null false := by
  have typeIs : typeOf node = .ok (.str word) := by
    cases hasForm with
    | word => rfl
    | primitive typeIs _ _ => exact attributeOf_obj typeIs
  have builtIn : ∀ word ∈ primitiveNames, (ofName word).isBuiltIn = true := by decide
  rw [read_of_hasForm hasForm typeIs (builtIn word isPrimitive),
    read_of_hasForm (.word word) rfl (builtIn word isPrimitive)]
  simp only [primitiveNames, List.mem_cons, List.not_mem_nil, or_false] at isPrimitive
  rcases isPrimitive with rfl | rfl | rfl | rfl | rfl | rfl | rfl | rfl
  all_goals rfl

private theorem ofName_letter (letter : Char) :
    ofName (String.ofList [letter]) = .named (String.ofList [letter]) := by
  have wordIs := congrArg (fun text => text.toList.length)
    (Kind.word_ofName (String.ofList [letter]))
  rw [String.toList_ofList, List.length_singleton] at wordIs
  apply ofName_of_isBuiltIn_false
  cases kindIs : ofName (String.ofList [letter]) with
  | named name => rfl
  | foreign value => rfl
  | _ =>
    rw [kindIs] at wordIs
    exact absurd wordIs (by decide)

private theorem letter_within (isUnion : ofName word = .union ∨ ofName word = .errorUnion)
    (within : (Form.word word).references ⊆ whole.references) {letter : Char}
    (isLetter : letter ∈ word.toList) :
    (Form.word (String.ofList [letter])).references ⊆ whole.references := by
  have lookedUp : String.ofList [letter] ∈ (Form.word word).references := by
    rw [Form.references, Form.wordReferences]
    rcases isUnion with kindIs | kindIs
    · rw [kindIs]
      exact List.mem_map_of_mem isLetter
    · rw [kindIs]
      exact List.mem_map_of_mem isLetter
  rw [Form.references, Form.wordReferences, ofName_letter]
  exact List.cons_subset.mpr ⟨within lookedUp, List.nil_subset _⟩

private theorem read_word_congr (grounded : Grounded registry whole)
    (otherGrounded : Grounded otherRegistry whole)
    (below : ReadsByForm whole.references (Decode.read registry depth : Reader σ)
      (Decode.read otherRegistry depth))
    {left right : Json} (leftForm : HasForm left (.word word))
    (rightForm : HasForm right (.word word))
    (within : (Form.word word).references ⊆ whole.references) :
    (Decode.read registry (depth + 1) left .null false : ReadM σ Datum) =
      Decode.read otherRegistry (depth + 1) right .null false := by
  by_cases isPrimitive : word ∈ primitiveNames
  · rw [read_primitive leftForm isPrimitive, read_primitive rightForm isPrimitive]
  · have isWord {node : Json} (hasForm : HasForm node (.word word)) : node = .str word := by
      cases hasForm with
      | word => rfl
      | primitive _ _ found => exact absurd found isPrimitive
    rw [isWord leftForm, isWord rightForm]
    refine readName_congr (fun isUnion letter isLetter => ?_) fun isName => ?_
    · exact below (.word _) (.word _) (letter_within isUnion within isLetter)
    · have related := definitions_of_grounded grounded otherGrounded
        (mem_references_of_named isName within)
      generalize get? registry word = known at related ⊢
      generalize get? otherRegistry word = otherKnown at related ⊢
      cases related with
      | none => exact .none
      | some formed =>
        obtain ⟨form, hasForm, otherHasForm, formWithin⟩ := formed
        exact .some (below hasForm otherHasForm formWithin)

theorem readsByForm_read (grounded : Grounded registry whole)
    (otherGrounded : Grounded otherRegistry whole) (depth : Nat) :
    ReadsByForm whole.references (Decode.read registry depth : Reader σ)
      (Decode.read otherRegistry depth) := by
  induction depth with
  | zero => exact fun _ _ _ _ _ _ => rfl
  | succ depth ih =>
    intro left right form leftForm rightForm within
    cases form with
    | word word => exact read_word_congr grounded otherGrounded ih leftForm rightForm within
    | array items =>
      cases leftForm with
      | array leftType leftPlain leftItems leftInner =>
        cases rightForm with
        | array rightType rightPlain rightItems rightInner =>
          rw [read_of_hasForm (.array leftType leftPlain leftItems leftInner)
            (attributeOf_obj leftType) rfl,
            read_of_hasForm (.array rightType rightPlain rightItems rightInner)
              (attributeOf_obj rightType) rfl]
          have same := ih leftInner rightInner within
          exact congrArg (Decode.orTruncated _) (readArray_congr leftItems rightItems same)
    | map values =>
      cases leftForm with
      | map leftType leftPlain leftValues leftInner =>
        cases rightForm with
        | map rightType rightPlain rightValues rightInner =>
          rw [read_of_hasForm (.map leftType leftPlain leftValues leftInner)
            (attributeOf_obj leftType) rfl,
            read_of_hasForm (.map rightType rightPlain rightValues rightInner)
              (attributeOf_obj rightType) rfl]
          have same := ih leftInner rightInner within
          exact congrArg (Decode.orTruncated _) (readMap_congr leftValues rightValues same)
    | enum name symbols =>
      cases leftForm with
      | enum leftType leftPlain leftName leftSymbols =>
        cases rightForm with
        | enum rightType rightPlain rightName rightSymbols =>
          rw [read_of_hasForm (.enum leftType leftPlain leftName leftSymbols)
            (attributeOf_obj leftType) rfl,
            read_of_hasForm (.enum rightType rightPlain rightName rightSymbols)
              (attributeOf_obj rightType) rfl]
          simp only [ofName, readKind, attributeOf_obj leftSymbols, attributeOf_obj rightSymbols]
    | fixed name size =>
      cases leftForm with
      | fixed leftType leftPlain leftName leftSize =>
        cases rightForm with
        | fixed rightType rightPlain rightName rightSize =>
          rw [read_of_hasForm (.fixed leftType leftPlain leftName leftSize)
            (attributeOf_obj leftType) rfl,
            read_of_hasForm (.fixed rightType rightPlain rightName rightSize)
              (attributeOf_obj rightType) rfl]
          simp only [ofName, readKind, attributeOf_obj leftSize, attributeOf_obj rightSize]
    | record name fields =>
      obtain ⟨leftNodes, leftInner, leftRead⟩ :=
        @read_record σ _ _ _ grounded depth _ _ _ leftForm within
      obtain ⟨rightNodes, rightInner, rightRead⟩ :=
        @read_record σ _ _ _ otherGrounded depth _ _ _ rightForm within
      rw [leftRead, rightRead, readFields_congr ih leftInner rightInner within]
    | union branches =>
      cases leftForm with
      | union leftInner =>
        cases rightForm with
        | union rightInner =>
          rw [read_of_hasForm (.union leftInner) rfl rfl,
            read_of_hasForm (.union rightInner) rfl rfl]
          exact congrArg (Decode.orTruncated _) (readUnion_congr ih leftInner rightInner within)

end Depth

/-! ### Canonical forms -/

namespace Schema

variable {schema : Json}

/-- No type name, field name or symbol of a schema holds a quotation mark. -/
def PlainlyNamed (schema : Json) : Prop :=
  ∀ ⦃parsed : Json⦄ ⦃registry : Registry⦄ ⦃form : Form⦄,
    parse {} [] schema = .ok (parsed, registry) → HasForm parsed form →
    form.plain = true

theorem plainlyNamed_of_hasForm {parsed : Json} {registry : Registry} {form : Form}
    (parses : parse {} [] schema = .ok (parsed, registry)) (hasForm : HasForm parsed form)
    (plain : form.plain = true) : PlainlyNamed schema := by
  intro again known other parsesAgain hasOther
  rw [parses] at parsesAgain
  cases parsesAgain
  rw [← hasForm.unique other hasOther]
  exact plain

/-- A well-typed schema that has a canonical form is parsed to a schema whose form has that text. -/
theorem exists_form_of_canonicalForm {text : String} (typed : wellTyped schema = true)
    (named : PlainlyNamed schema) (contained : unmarked schema = true ∨ SelfContained schema)
    (isForm : canonicalForm schema = .ok text) :
    ∃ parsed registry form, parse {} [] schema = .ok (parsed, registry) ∧ HasForm parsed form ∧
      form.plain = true ∧
      Grounded registry form ∧ text = String.ofList form.chars := by
  obtain ⟨⟨parsed, registry⟩, parses, done⟩ := outcome_bind_ok.mp isForm
  have parsedTyped := (wellTyped_parse parses typed (by simp [RegistryTyped])).1
  obtain ⟨form, hasForm⟩ := exists_form_of_canonicalNode parsedTyped done
  have isContained : SelfContained schema := contained.elim (selfContained_of_unmarked typed) id
  refine ⟨parsed, registry, form, parses, hasForm, named parses hasForm,
    isContained parses hasForm, ?_⟩
  exact Except.ok.inj (done.symm.trans hasForm.canonicalNode)

end Schema

/-- Schemas with one canonical form decode alike: the same value with the same bytes behind it, or
the same failure. A schema that is marked as parsed is asked not to bring other definitions along
than its own. -/
theorem single_eq_of_canonicalForm {left right : Json} {text : String}
    (leftTyped : Schema.wellTyped left = true) (rightTyped : Schema.wellTyped right = true)
    (leftNamed : Schema.PlainlyNamed left) (rightNamed : Schema.PlainlyNamed right)
    (leftContained : Schema.unmarked left = true ∨ Schema.SelfContained left)
    (rightContained : Schema.unmarked right = true ∨ Schema.SelfContained right)
    (leftForm : Schema.canonicalForm left = .ok text)
    (rightForm : Schema.canonicalForm right = .ok text) (bytes : Bytes) :
    Decode.single left .null false bytes = Decode.single right .null false bytes := by
  obtain ⟨leftParsed, leftRegistry, form, leftParses, leftHasForm, leftPlain, leftGrounded, rfl⟩ :=
    Schema.exists_form_of_canonicalForm leftTyped leftNamed leftContained leftForm
  obtain ⟨rightParsed, rightRegistry, other, rightParses, rightHasForm, rightPlain,
    rightGrounded, sameText⟩ :=
    Schema.exists_form_of_canonicalForm rightTyped rightNamed rightContained rightForm
  obtain rfl := Form.eq_of_chars leftPlain rightPlain (String.ofList_injective sameText)
  have same : Decode.read leftRegistry Schema.depthLimit leftParsed .null false =
      (Decode.read rightRegistry Schema.depthLimit rightParsed .null false :
        ReadM BinaryInput Datum) :=
    readsByForm_read leftGrounded rightGrounded Schema.depthLimit leftHasForm rightHasForm
      (List.Subset.refl _)
  have notTruthy : Json.null.truthy = false := rfl
  simp only [Decode.single, ite_self, leftParses, rightParses, outcome_ok_bind, notTruthy,
    Bool.false_eq_true, if_false, pure_bind, same]

/-- A reading of a gauge, with remarks. -/
def gaugeReading : Json :=
  .obj [("type", .str "record"), ("name", .str "Reading"), ("namespace", .str "lab"),
    ("doc", .str "as read off"),
    ("fields", .arr [
      .obj [("name", .str "gauge"), ("type", .obj [("type", .str "string")]), ("default", .str "")],
      .obj [("name", .str "level"), ("type", .arr [.str "null",
        .obj [("type", .str "fixed"), ("name", .str "Level"), ("size", .int 2)]])],
      .obj [("name", .str "last"), ("type", .arr [.str "null", .str "Reading"])]])]

/-- The same reading as an error, under full names. -/
def gaugeAlarm : Json :=
  .obj [("fields", .arr [
      .obj [("type", .str "string"), ("name", .str "gauge")],
      .obj [("type", .arr [.obj [("type", .str "null")],
        .obj [("name", .str "lab.Level"), ("size", .int 2), ("type", .str "fixed"),
          ("aliases", .arr [.str "Depth"])]]),
        ("name", .str "level")],
      .obj [("type", .arr [.str "null", .str "lab.Reading"]), ("name", .str "last")]]),
    ("name", .str "lab.Reading"), ("type", .str "error")]

def gaugeText : String :=
  "\x7b\"name\":\"lab.Reading\",\"type\":\"record\",\"fields\":[" ++
    "\x7b\"name\":\"gauge\",\"type\":\"string\"\x7d,\x7b\"name\":\"level\",\"type\":[\"null\"," ++
    "\x7b\"name\":\"lab.Level\",\"type\":\"fixed\",\"size\":2\x7d]\x7d," ++
    "\x7b\"name\":\"last\",\"type\":[\"null\",\"lab.Reading\"]\x7d]\x7d"

set_option maxRecDepth 10000 in
/-- A reading is decoded alike by its own schema and by what the schema of the alarm is parsed
to. -/
theorem single_eq_of_canonicalForm_gauge :
    ∃ parsed registry, Schema.parse {} [] gaugeAlarm = .ok (parsed, registry) ∧
      Schema.canonicalForm gaugeReading = .ok gaugeText ∧
      Schema.canonicalForm parsed = .ok gaugeText ∧
      (∀ bytes, Decode.single gaugeReading .null false bytes =
        Decode.single parsed .null false bytes) ∧
      Decode.single gaugeReading .null false [2, 97, 2, 1, 2, 2, 2, 98, 0, 0, 9] =
        .ok (.dict [(.str "gauge", .str "a"), (.str "level", .bytes [1, 2]),
          (.str "last", .dict [(.str "gauge", .str "b"), (.str "level", .null),
            (.str "last", .null)])], [9]) := by
  obtain ⟨reading, readingRegistry, readingForm, readingParses, readingHasForm, readingPlain⟩ :
    ∃ reading registry form,
      Schema.parse {} [] gaugeReading = .ok (reading, registry) ∧ HasForm reading form ∧
      form.plain = true :=
    ⟨_, _, _, rfl, .record rfl (by decide) rfl rfl rfl
      (.cons rfl rfl (.primitive rfl rfl (by decide))
      (.cons rfl rfl (.union (.cons (.word _) (.cons (.fixed rfl rfl rfl rfl) .nil)))
        (.cons rfl rfl (.union (.cons (.word _) (.cons (.word _) .nil))) .nil))), rfl⟩
  obtain ⟨parsed, registry, form, parses, hasForm, plain, typed, isText⟩ : ∃ parsed registry form,
      Schema.parse {} [] gaugeAlarm = .ok (parsed, registry) ∧ HasForm parsed form ∧
      form.plain = true ∧
        Schema.wellTyped parsed = true ∧ Schema.canonicalForm parsed = .ok gaugeText :=
    ⟨_, _, _, rfl, .record rfl (by decide) rfl rfl rfl (.cons rfl rfl (.word _)
      (.cons rfl rfl (.union (.cons (.primitive rfl rfl (by decide))
        (.cons (.fixed rfl rfl rfl rfl) .nil)))
        (.cons rfl rfl (.union (.cons (.word _) (.cons (.word _) .nil))) .nil))), rfl, rfl, rfl⟩
  have contained : Schema.SelfContained parsed :=
    (Schema.selfContained_of_unmarked (by decide) (by decide)).parsed parses
  refine ⟨parsed, registry, parses, rfl, isText, fun bytes => ?_, rfl⟩
  exact single_eq_of_canonicalForm (by decide) typed
    (Schema.plainlyNamed_of_hasForm readingParses readingHasForm readingPlain)
    (Schema.plainlyNamed_of_hasForm (Schema.parse_parse parses) hasForm plain) (.inl (by decide))
      (.inr contained) rfl isText bytes

/-! ### Definitions from elsewhere -/

/-- A badge with a mark that is defined elsewhere. -/
def badgeSchema : Json :=
  .obj [("type", .str "record"), ("name", .str "Badge"),
    ("fields", .arr [.obj [("name", .str "mark"), ("type", .str "Mark")]])]

/-- A registry that holds a mark of the given size. -/
def markOfSize (size : Int) : Registry :=
  [("Mark", .obj [("type", .str "fixed"), ("name", .str "Mark"), ("size", .int size)])]

set_option maxRecDepth 10000 in
/-- A schema that is parsed against different definitions from elsewhere keeps its canonical form,
and decodes differently. -/
theorem badge_decoded_by_supplied_mark :
    ∃ small large smallRegistry largeRegistry text, Schema.parse {} (markOfSize 1) badgeSchema =
      .ok (small, smallRegistry) ∧
      Schema.parse {} (markOfSize 2) badgeSchema = .ok (large, largeRegistry) ∧
      Schema.wellTyped small = true ∧
      Schema.wellTyped large = true ∧ Schema.PlainlyNamed small ∧ Schema.PlainlyNamed large ∧
      Schema.canonicalForm small = .ok text ∧ Schema.canonicalForm large = .ok text ∧
      Decode.single small .null false [1, 2] = .ok (.dict [(.str "mark", .bytes [1])], [2]) ∧
      Decode.single large .null false [1, 2] = .ok (.dict [(.str "mark", .bytes [1, 2])], []) := by
  refine ⟨_, _, _, _, _, rfl, rfl, rfl, rfl, ?_, ?_, rfl, rfl, rfl, rfl⟩
  · exact Schema.plainlyNamed_of_hasForm rfl
      (.record rfl (by decide) rfl rfl rfl (.cons rfl rfl (.word _) .nil)) rfl
  · exact Schema.plainlyNamed_of_hasForm rfl
      (.record rfl (by decide) rfl rfl rfl (.cons rfl rfl (.word _) .nil)) rfl

end Avro
