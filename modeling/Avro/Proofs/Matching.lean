import Avro.Proofs.Shape
import Avro.Proofs.Steps

/-!
Contract: matching of schemas that have shapes.

Owns: that a schema with a shape is a word or an object with that word as its type; that two such
schemas match exactly if their shapes do; and that schemas which are equal by value match, part by
part.
-/

namespace Avro

open Decode (fieldUnder? indexFields setUnder)
open Members (get? has)
open Schema (attributeOf required)
open Resolution

variable {value writer reader other : Json} {key writerWord readerWord word : String}
  {members : Members} {shape writerShape readerShape : Shape} {left right nodes : List Json}
  {fields : List Field}

/-! ### Nodes -/

/-- A node with a word as its type: the word itself, or an object. -/
inductive TypedNode (word : String) : Json → Prop where
  | word : TypedNode word (.str word)
  | object {members : List (String × Json)} (typeIs : get? members "type" = some (.str word)) :
      TypedNode word (.obj members)

theorem HasShape.node {schema : Json} {shape : Shape} (shaped : HasShape schema shape) :
    TypedNode shape.word schema := by
  cases shaped with
  | word => exact TypedNode.word
  | primitive typeIs | fixed typeIs | enum typeIs | array typeIs | map typeIs | record typeIs =>
    exact TypedNode.object typeIs

theorem TypedNode.typeOf {word : String} {schema : Json} (node : TypedNode word schema) :
    Schema.typeOf schema = .ok (.str word) := by
  cases node with
  | word => rfl
  | object typeIs => simp [Schema.typeOf, required, typeIs]

theorem obj_truthy (found : get? members key = some value) : (Json.obj members).truthy = true := by
  cases members with
  | nil => cases found
  | cons member rest => rfl

theorem Shape.word_ne_empty (shape : Shape) : shape.word ≠ "" := by
  cases shape with
  | primitive type => cases type <;> decide
  | record schema isError fields => cases isError <;> simp [Shape.word]
  | _ => simp [Shape.word]

theorem HasShape.truthy {schema : Json} {shape : Shape} (shaped : HasShape schema shape) :
    schema.truthy = true := by
  have node := shaped.node
  have notEmpty := shape.word_ne_empty
  cases node with
  | word => simp [Json.truthy, notEmpty]
  | object typeIs => exact obj_truthy typeIs

theorem HasShape.mentions {schema : Json} {shape : Shape} (shaped : HasShape schema shape) :
    Schema.mentions schema "logicalType" = .ok false := by
  cases shaped with
  | @word type => cases type <;> rfl
  | primitive _ plain | fixed _ plain | enum _ plain | array _ plain | map _ plain
  | record _ plain =>
    simp [Schema.mentions, has, plain]

/-! ### Words -/

theorem matchNames_self (word : String) : matchNames (.str word) (.str word) = true := by
  simp [matchNames, Json.same]

theorem select_true (writer reader : Json) : select (.ok true) writer reader = .ok reader := rfl

theorem promote_self (datum : Datum) (type : Json) : promote datum type type = .ok datum := by
  unfold promote
  split
  all_goals simp_all

theorem matchSchemas_of_words (writerNode : TypedNode writerWord writer)
    (readerNode : TypedNode readerWord reader)
    (unshared : sharedParts? (.str writerWord) (.str readerWord) = none) :
    matchSchemas writer reader = select (.ok (matchNames (.str writerWord) (.str readerWord)))
      writer reader := by
  have types : matchTypes (.str writerWord) (.str readerWord) =
      .ok (matchNames (.str writerWord) (.str readerWord)) := by
    rw [matchTypes]
    all_goals simp
  cases writerNode with
  | word =>
    cases readerNode with
    | word =>
      rw [matchSchemas]
      all_goals simp [unshared]
    | object readerIs =>
      rw [matchSchemas]
      · split
        · rename_i readerType found
          rw [readerIs] at found
          cases found
          rw [unshared]
          exact congrArg (fun test => select test _ _) types
        · rename_i missing
          simp [missing] at readerIs
      · simp
      · simp
  | object writerIs =>
    cases readerNode with
    | word =>
      rw [matchSchemas]
      · split
        · rename_i writerType found
          rw [writerIs] at found
          cases found
          rw [unshared]
          exact congrArg (fun test => select test _ _) types
        · rename_i missing
          simp [missing] at writerIs
      · simp
      · simp
    | object readerIs =>
      rw [matchSchemas]
      split
      · rename_i writerType readerType foundWriter foundReader
        rw [writerIs] at foundWriter
        rw [readerIs] at foundReader
        cases foundWriter
        cases foundReader
        rw [unshared]
        exact congrArg (fun test => select test _ _) types
      · rename_i missing
        exact absurd readerIs (missing _ _ writerIs)

theorem matchSchemas_of_parts {writerMembers readerMembers : Members} {first second : Json}
    (writerIs : get? writerMembers "type" = some (.str word))
    (readerIs : get? readerMembers "type" = some (.str word))
    (shared : sharedParts? (.str word) (.str word) = some key)
    (firstIs : get? writerMembers key = some first)
    (secondIs : get? readerMembers key = some second) :
    matchSchemas (.obj writerMembers) (.obj readerMembers) =
      select (matchTypes first second) (.obj writerMembers) (.obj readerMembers) := by
  rw [matchSchemas]
  split
  · rename_i writerType readerType foundWriter foundReader
    rw [writerIs] at foundWriter
    rw [readerIs] at foundReader
    cases foundWriter
    cases foundReader
    rw [shared]
    dsimp only
    split
    · rename_i foundFirst foundSecond
      rw [firstIs] at foundFirst
      rw [secondIs] at foundSecond
      cases foundFirst
      cases foundSecond
      rfl
    · rename_i missing
      exact absurd secondIs (missing _ _ firstIs)
  · rename_i missing
    exact absurd readerIs (missing _ _ writerIs)

/-! ### Shapes -/

def Shape.sharesParts : Shape → Shape → Bool
  | .array _, .array _ => true
  | .map _, .map _ => true
  | _, _ => false

theorem Shape.eq_array_of_word (wordIs : shape.word = "array") : ∃ items, shape = .array items := by
  cases shape with
  | array items => exact ⟨items, rfl⟩
  | primitive type => cases type <;> exact absurd wordIs (by decide)
  | record schema isError fields => cases isError <;> simp [Shape.word] at wordIs
  | _ => simp [Shape.word] at wordIs

theorem Shape.eq_map_of_word (wordIs : shape.word = "map") : ∃ values, shape = .map values := by
  cases shape with
  | map values => exact ⟨values, rfl⟩
  | primitive type => cases type <;> exact absurd wordIs (by decide)
  | record schema isError fields => cases isError <;> simp [Shape.word] at wordIs
  | _ => simp [Shape.word] at wordIs

private theorem bothAre_words :
    bothAre word (.str writerWord) (.str readerWord) = true ↔
    writerWord = word ∧ readerWord = word := by
  simp only [bothAre, Json.same, Bool.and_eq_true, beq_iff_eq]
  constructor
  · rintro ⟨equal, readerIs⟩
    exact ⟨equal.trans readerIs, readerIs⟩
  · rintro ⟨writerIs, readerIs⟩
    exact ⟨writerIs.trans readerIs.symm, readerIs⟩

private theorem sharedParts?_words {writer reader : Shape}
    (unshared : writer.sharesParts reader = false) :
    sharedParts? (.str writer.word) (.str reader.word) = none := by
  have notMaps : ¬ bothAre "map" (.str writer.word) (.str reader.word) = true := by
    intro both
    obtain ⟨writerIs, readerIs⟩ := bothAre_words.mp both
    obtain ⟨_, rfl⟩ := Shape.eq_map_of_word writerIs
    obtain ⟨_, rfl⟩ := Shape.eq_map_of_word readerIs
    simp [Shape.sharesParts] at unshared
  have notArrays : ¬ bothAre "array" (.str writer.word) (.str reader.word) = true := by
    intro both
    obtain ⟨writerIs, readerIs⟩ := bothAre_words.mp both
    obtain ⟨_, rfl⟩ := Shape.eq_array_of_word writerIs
    obtain ⟨_, rfl⟩ := Shape.eq_array_of_word readerIs
    simp [Shape.sharesParts] at unshared
  rw [sharedParts?, if_neg notMaps, if_neg notArrays]

theorem matchNames_words {writer reader : Shape} (unshared : writer.sharesParts reader = false) :
    matchNames (.str writer.word) (.str reader.word) = writer.matches reader := by
  cases writer with
  | primitive writerType =>
    cases reader with
    | primitive readerType => cases writerType <;> cases readerType <;> rfl
    | record _ isError _ => cases isError <;> cases writerType <;> rfl
    | _ => cases writerType <;> rfl
  | record _ writerIsError _ =>
    cases reader with
    | primitive readerType => cases writerIsError <;> cases readerType <;> rfl
    | record _ readerIsError _ => cases writerIsError <;> cases readerIsError <;> rfl
    | _ => cases writerIsError <;> rfl
  | array _ =>
    cases reader with
    | primitive readerType => cases readerType <;> rfl
    | record _ isError _ => cases isError <;> rfl
    | array _ => simp [Shape.sharesParts] at unshared
    | _ => rfl
  | map _ =>
    cases reader with
    | primitive readerType => cases readerType <;> rfl
    | record _ isError _ => cases isError <;> rfl
    | map _ => simp [Shape.sharesParts] at unshared
    | _ => rfl
  | _ =>
    cases reader with
    | primitive readerType => cases readerType <;> rfl
    | record _ isError _ => cases isError <;> rfl
    | _ => rfl

private theorem matchSchemas_of_unshared (writerShaped : HasShape writer writerShape)
    (readerShaped : HasShape reader readerShape)
    (unshared : writerShape.sharesParts readerShape = false) :
    matchSchemas writer reader = select (.ok (writerShape.matches readerShape)) writer reader := by
  rw [matchSchemas_of_words writerShaped.node readerShaped.node (sharedParts?_words unshared),
    matchNames_words unshared]

private theorem matchTypes_of_matchSchemas (writerShaped : HasShape writer writerShape)
    (readerShaped : HasShape reader readerShape)
    (schemas : matchSchemas writer reader =
      select (.ok (writerShape.matches readerShape)) writer reader) :
    matchTypes writer reader = .ok (writerShape.matches readerShape) := by
  have isTruthy := readerShaped.truthy
  have truthIs : truth (matchSchemas writer reader) = .ok (writerShape.matches readerShape) := by
    rw [schemas]
    cases writerShape.matches readerShape with
    | true => simp [select, truth, isTruthy, pure, Except.pure]
    | false => rfl
  have writerNode := writerShaped.node
  have readerNode := readerShaped.node
  cases writerShaped with
  | @word writerType =>
    cases readerShaped with
    | @word readerType =>
      have names : matchNames (.str writerType.word) (.str readerType.word) =
          writerType.matches readerType :=
        @matchNames_words (.primitive writerType) (.primitive readerType) rfl
      rw [matchTypes, names]
      · rfl
      all_goals simp
    | _ =>
      rw [matchTypes]
      · exact truthIs
      all_goals simp
  | _ =>
    rw [matchTypes]
    · exact truthIs
    · cases readerNode with
      | word => simp
      | object _ => simp

/-- Schemas match exactly if their shapes do; otherwise the mismatch is reported. -/
theorem matchSchemas_shapes {writer reader : Json} {writerShape readerShape : Shape}
    (writerShaped : HasShape writer writerShape) (readerShaped : HasShape reader readerShape) :
    matchSchemas writer reader = select (.ok (writerShape.matches readerShape)) writer reader := by
  cases shares : writerShape.sharesParts readerShape with
  | false => exact matchSchemas_of_unshared writerShaped readerShaped shares
  | true =>
    cases writerShaped with
    | array writerIs _ itemsAre inner =>
      cases readerShaped with
      | array readerIs _ readerItemsAre readerInner =>
        have parts := matchTypes_of_matchSchemas inner readerInner
          (matchSchemas_shapes inner readerInner)
        rw [matchSchemas_of_parts writerIs readerIs rfl itemsAre readerItemsAre, parts]
        rfl
      | _ => simp [Shape.sharesParts] at shares
    | map writerIs _ valuesAre inner =>
      cases readerShaped with
      | map readerIs _ readerValuesAre readerInner =>
        have parts := matchTypes_of_matchSchemas inner readerInner
          (matchSchemas_shapes inner readerInner)
        rw [matchSchemas_of_parts writerIs readerIs rfl valuesAre readerValuesAre, parts]
        rfl
      | _ => simp [Shape.sharesParts] at shares
    | _ => simp [Shape.sharesParts] at shares
termination_by sizeOf writerShape

/-! ### Equal schemas -/

/-- What one of two equal objects has under a key, the other has there as well, up to equality by
value. -/
theorem Json.get?_of_sameMembers {left right : Members} (same : Json.sameMembers left right = true)
    (found : Members.get? left key = some value) :
    ∃ other, Members.get? right key = some other ∧ value.same other = true := by
  induction left with
  | nil => simp [Members.get?] at found
  | cons member rest ih =>
    obtain ⟨name, content⟩ := member
    rw [Json.sameMembers] at same
    cases present : Members.get? right name with
    | none => simp [present] at same
    | some other =>
      rw [present] at same
      obtain ⟨contentSame, restSame⟩ := Bool.and_eq_true_iff.mp same
      rw [Members.get?_cons] at found
      by_cases sameKey : name = key
      · rw [if_pos sameKey] at found
        cases found
        exact ⟨other, sameKey ▸ present, contentSame⟩
      · rw [if_neg sameKey] at found
        exact ih restSame found

theorem Json.eq_str_of_same {text : String} (same : (Json.str text).same other = true) :
    other = .str text := by
  cases other with
  | str otherText =>
    rw [Json.same, beq_iff_eq] at same
    rw [same]
  | _ => simp [Json.same] at same

theorem Json.eq_of_sameItems_str {texts : List String} {others : List Json}
    (same : Json.sameItems (texts.map .str) others = true) : others = texts.map .str := by
  induction texts generalizing others with
  | nil =>
    cases others with
    | nil => rfl
    | cons other rest => simp [Json.sameItems] at same
  | cons text rest ih =>
    cases others with
    | nil => simp [Json.sameItems] at same
    | cons other otherRest =>
      rw [List.map_cons, Json.sameItems] at same
      obtain ⟨headSame, restSame⟩ := Bool.and_eq_true_iff.mp same
      rw [Json.eq_str_of_same headSame, ih restSame]
      rfl

theorem Json.get?_of_same (same : (Json.obj members).same other = true)
    (found : Members.get? members key = some value) :
    ∃ otherValue, other.get? key = some otherValue ∧ value.same otherValue = true := by
  cases other with
  | obj otherMembers =>
    rw [Json.same] at same
    exact Json.get?_of_sameMembers (Bool.and_eq_true_iff.mp same).2 found
  | _ => simp [Json.same] at same

theorem HasShape.word_of_same (writerShaped : HasShape writer writerShape)
    (readerShaped : HasShape reader readerShape) (same : writer.same reader = true) :
    readerShape.word = writerShape.word := by
  have readerNode := readerShaped.node
  cases writerShaped.node with
  | word =>
    have readerIs := Json.eq_str_of_same same
    cases readerNode with
    | word => exact Json.str.inj readerIs
    | object _ => simp at readerIs
  | object writerIs =>
    obtain ⟨readerType, readerIs, typeSame⟩ := Json.get?_of_same same writerIs
    rw [Json.eq_str_of_same typeSame] at readerIs
    cases readerNode with
    | word => simp [Json.get?] at readerIs
    | object found =>
      rw [Json.get?, found] at readerIs
      exact Json.str.inj (Option.some.inj readerIs)

theorem Shape.matches_of_word {writer reader : Shape} (words : reader.word = writer.word)
    (unshared : writer.sharesParts reader = false) : writer.matches reader = true := by
  rw [← matchNames_words unshared, words]
  simp [matchNames, Json.same]

theorem HasShape.matches_of_same {writer reader : Json} {writerShape readerShape : Shape}
    (writerShaped : HasShape writer writerShape) (readerShaped : HasShape reader readerShape)
    (same : writer.same reader = true) : writerShape.matches readerShape = true := by
  cases shares : writerShape.sharesParts readerShape with
  | false => exact Shape.matches_of_word (writerShaped.word_of_same readerShaped same) shares
  | true =>
    cases writerShaped with
    | array _ _ itemsAre inner =>
      cases readerShaped with
      | array _ _ readerItemsAre readerInner =>
        obtain ⟨other, otherIs, itemsSame⟩ := Json.get?_of_same same itemsAre
        rw [Json.get?, readerItemsAre] at otherIs
        cases otherIs
        exact inner.matches_of_same readerInner itemsSame
      | _ => simp [Shape.sharesParts] at shares
    | map _ _ valuesAre inner =>
      cases readerShaped with
      | map _ _ readerValuesAre readerInner =>
        obtain ⟨other, otherIs, valuesSame⟩ := Json.get?_of_same same valuesAre
        rw [Json.get?, readerValuesAre] at otherIs
        cases otherIs
        exact inner.matches_of_same readerInner valuesSame
      | _ => simp [Shape.sharesParts] at shares
    | _ => simp [Shape.sharesParts] at shares
termination_by sizeOf writerShape

/-! ### The reader's fields -/

/-- A node of a field and the field of a shape that it describes. -/
structure DescribesField (node : Json) (field : Field) : Prop where
  truthy : node.truthy = true
  nameIs : Decode.fieldKey node = .ok (.str field.name)
  aliasesAre : Schema.iterate ((node.get? "aliases").getD (.arr [])) = .ok (field.aliases.map .str)
  defaultIs : node.get? "default" = field.default
  typeIs : ∃ child, attributeOf node "type" = .ok child ∧ HasShape child field.shape

theorem HaveShapes.describes (shaped : HaveShapes nodes fields) :
    List.Forall₂ DescribesField nodes fields := by
  induction fields generalizing nodes with
  | nil =>
    cases shaped
    exact List.Forall₂.nil
  | cons field rest ih =>
    cases shaped with
    | @cons members node _ _ _ _ _ nameIs aliasesAre typeIs inner others =>
      refine List.Forall₂.cons ⟨?_, ?_, ?_, rfl, node, ?_, inner⟩ (ih others)
      · cases members with
        | nil => simp [get?] at typeIs
        | cons member rest => rfl
      · rw [Decode.fieldKey, attributeOf, required, nameIs]
        rfl
      · rw [Json.get?, aliasesAre]
        rfl
      · rw [attributeOf, required, typeIs]

/-- A table of nodes under names describes a table of fields. -/
def DescribesTable (table : List (Json × Json)) (fields : List (String × Field)) : Prop :=
  List.Forall₂ (fun entry field => entry.1 = .str field.1 ∧
    DescribesField entry.2 field.2) table fields

theorem DescribesTable.set {table : List (Json × Json)} {fields : List (String × Field)}
    {node : Json} {field : Field} (describes : DescribesTable table fields) (name : String)
    (describesField : DescribesField node field) :
    DescribesTable (setUnder table (.str name) node) (Members.set fields name field) := by
  induction describes with
  | nil => exact List.Forall₂.cons ⟨rfl, describesField⟩ List.Forall₂.nil
  | @cons entry other table fields head rest ih =>
    obtain ⟨key, content⟩ := entry
    obtain ⟨keyIs, contentIs⟩ := head
    dsimp only at keyIs
    subst keyIs
    rw [setUnder, Members.set]
    by_cases sameName : other.1 = name
    · rw [if_pos (by simp [Json.same, sameName]), if_pos sameName]
      exact List.Forall₂.cons ⟨by simp [sameName], describesField⟩ rest
    · rw [if_neg (by simp [Json.same, sameName]), if_neg sameName]
      exact List.Forall₂.cons ⟨rfl, contentIs⟩ ih

/-- What is found under a name in one table is described by what is found in the other. -/
theorem DescribesTable.find {table : List (Json × Json)} {fields : List (String × Field)}
    (describes : DescribesTable table fields) (name : String) :
    Option.Rel DescribesField (fieldUnder? table (.str name)) (get? fields name) := by
  induction describes with
  | nil => exact Option.Rel.none
  | @cons entry other table fields head rest ih =>
    obtain ⟨key, content⟩ := entry
    obtain ⟨keyIs, contentIs⟩ := head
    dsimp only at keyIs
    subst keyIs
    rw [fieldUnder?, Members.get?_cons]
    by_cases sameName : other.1 = name
    · rw [if_pos (by simp [Json.same, sameName]), if_pos sameName]
      exact Option.Rel.some contentIs
    · rw [if_neg (by simp [Json.same, sameName]), if_neg sameName]
      exact ih

private theorem addAliases_describes {node : Json} {field : Field}
    (describesField : DescribesField node field) {index : Decode.FieldIndex}
    {fields : List (String × Field)} (describes : DescribesTable index.byAlias fields)
    (aliases : List String) :
    ∃ extended, Decode.addAliases node index (aliases.map .str) = .ok extended ∧
      extended.byName = index.byName ∧
      DescribesTable extended.byAlias
        (aliases.foldl (fun table other => Members.set table other field) fields) := by
  induction aliases generalizing index fields with
  | nil => exact ⟨index, rfl, rfl, describes⟩
  | cons name rest ih =>
    have entered := describes.set name describesField
    obtain ⟨extended, done, sameNames, extendedDescribes⟩ :=
      @ih { index with byAlias := setUnder index.byAlias (.str name) node } _ entered
    exact ⟨extended, done, sameNames, extendedDescribes⟩

private theorem indexFields_describes {nodes : List Json} {fields : List Field}
    (describes : List.Forall₂ DescribesField nodes fields) {index : Decode.FieldIndex}
    {names aliases : List (String × Field)} (namesDescribe : DescribesTable index.byName names)
    (aliasesDescribe : DescribesTable index.byAlias aliases) :
    ∃ extended, indexFields index nodes = .ok extended ∧
      DescribesTable extended.byName
        (fields.foldl (fun table field => Members.set table field.name field) names) ∧
      DescribesTable extended.byAlias (fields.foldl (fun table field =>
        field.aliases.foldl (fun table other => Members.set table other field) table) aliases) := by
  induction describes generalizing index names aliases with
  | nil => exact ⟨index, rfl, namesDescribe, aliasesDescribe⟩
  | @cons node field nodes fields head rest ih =>
    have entered := namesDescribe.set field.name head
    obtain ⟨between, aliasesDone, sameNames, betweenDescribes⟩ :=
      @addAliases_describes node field head
        { index with byName := setUnder index.byName (.str field.name) node }
        aliases aliasesDescribe field.aliases
    have betweenNames : DescribesTable between.byName (Members.set names field.name field) := by
      rw [sameNames]
      exact entered
    obtain ⟨extended, done, extendedNames, extendedAliases⟩ := ih betweenNames betweenDescribes
    refine ⟨extended, ?_, extendedNames, extendedAliases⟩
    rw [indexFields, head.nameIs, outcome_ok_bind, head.aliasesAre, outcome_ok_bind, aliasesDone,
      outcome_ok_bind]
    exact done

theorem indexFields_of_shapes (shaped : HaveShapes nodes fields) :
    ∃ index, indexFields ⟨[], []⟩ nodes = .ok index ∧
      DescribesTable index.byName (Field.byName fields) ∧
      DescribesTable index.byAlias (Field.byAlias fields) :=
  @indexFields_describes nodes fields shaped.describes ⟨[], []⟩ [] [] List.Forall₂.nil
    List.Forall₂.nil

/-- The reader's field for a name of the writer is the one that the index finds. -/
theorem find?_describes {index : Decode.FieldIndex}
    (names : DescribesTable index.byName (Field.byName fields))
    (aliases : DescribesTable index.byAlias (Field.byAlias fields)) (name : String) :
    Option.Rel DescribesField (index.find? (.str name)) (Field.find? fields name) := by
  have underName := names.find name
  have underAlias := aliases.find name
  rw [Decode.FieldIndex.find?, Field.find?]
  generalize fieldUnder? index.byName (.str name) = node at underName ⊢
  generalize get? (Field.byName fields) name = field at underName ⊢
  cases underName with
  | none => exact underAlias
  | some describes => exact Option.Rel.some describes

end Avro
