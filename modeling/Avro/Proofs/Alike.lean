import Avro.Proofs.JsonText
import Avro.Proofs.WellTyped

/-!
Contract: schemas that say the same, though their documents differ.

Owns: `Alike`, documents that differ only in floating-point numbers and in the marks of having been
parsed, its preservation by parsing, and `Truthful`, which says of a schema that its marks are those
that parsing would give it.

A well-typed schema has no floating-point number in a place where it would matter. Its document
comes back from a text alike, and so does what parsing makes of it.
-/

namespace Avro.Schema

open Json (mapFloats mapItems mapMembers)

variable {left right schema parsed plain : Json} {members : Members} {registry : Registry}
  {mark word : String} {leftMembers rightMembers : Members}

/-- The attributes that a schema has for having been parsed. -/
def marks : List String := [parsedKey, registryKey]

mutual

/-- Two documents that differ in floating-point numbers and in marks only. -/
inductive Alike : Json → Json → Prop where
  | null : Alike .null .null
  | bool (value : Bool) : Alike (.bool value) (.bool value)
  | int (value : Int) : Alike (.int value) (.int value)
  | float (left right : Double) : Alike (.float left) (.float right)
  | str (text : String) : Alike (.str text) (.str text)
  | arr {left right : List Json} (items : AlikeItems left right) : Alike (.arr left) (.arr right)
  | obj {left right : List (String × Json)} (members : AlikeMembers left right) :
      Alike (.obj left) (.obj right)

inductive AlikeItems : List Json → List Json → Prop where
  | nil : AlikeItems [] []
  | cons {left right : Json} {lefts rights : List Json} (first : Alike left right)
      (others : AlikeItems lefts rights) :
      AlikeItems (left :: lefts) (right :: rights)

/-- Marks may stand among the members of either side. -/
inductive AlikeMembers : List (String × Json) → List (String × Json) → Prop where
  | nil : AlikeMembers [] []
  | cons {left right : Json} {lefts rights : List (String × Json)} (key : String)
      (value : Alike left right)
      (others : AlikeMembers lefts rights) :
      AlikeMembers ((key, left) :: lefts) ((key, right) :: rights)
  | skipLeft {lefts rights : List (String × Json)} (key : String) (value : Json)
      (isMark : key ∈ marks)
      (others : AlikeMembers lefts rights) : AlikeMembers ((key, value) :: lefts) rights
  | skipRight {lefts rights : List (String × Json)} (key : String) (value : Json)
      (isMark : key ∈ marks)
      (others : AlikeMembers lefts rights) : AlikeMembers lefts ((key, value) :: rights)

end

mutual

theorem Alike.refl : ∀ document : Json, Alike document document
  | .null => .null
  | .bool value => .bool value
  | .int value => .int value
  | .float value => .float value value
  | .str text => .str text
  | .arr items => .arr (AlikeItems.refl items)
  | .obj members => .obj (AlikeMembers.refl members)

theorem AlikeItems.refl : ∀ items : List Json, AlikeItems items items
  | [] => .nil
  | item :: rest => .cons (Alike.refl item) (AlikeItems.refl rest)

theorem AlikeMembers.refl : ∀ members : Members, AlikeMembers members members
  | [] => .nil
  | (key, value) :: rest => .cons key (Alike.refl value) (AlikeMembers.refl rest)

end

mutual

/-- Documents stay alike when the numbers of one of them change. -/
theorem Alike.mapFloats (change : Double → Double) : ∀ {left right : Json}, Alike left right →
    Alike left (mapFloats change right)
  | _, _, .null => .null
  | _, _, .bool value => .bool value
  | _, _, .int value => .int value
  | _, _, .float left right => .float left (change right)
  | _, _, .str text => .str text
  | _, _, .arr items => .arr (items.mapItems change)
  | _, _, .obj members => .obj (members.mapMembers change)

theorem AlikeItems.mapItems (change : Double → Double) :
    ∀ {left right : List Json}, AlikeItems left right →
    AlikeItems left (mapItems change right)
  | _, _, .nil => .nil
  | _, _, .cons first others => .cons (first.mapFloats change) (others.mapItems change)

theorem AlikeMembers.mapMembers (change : Double → Double) : ∀ {left right : Members},
    AlikeMembers left right → AlikeMembers left (mapMembers change right)
  | _, _, .nil => .nil
  | _, _, .cons key value others => .cons key (value.mapFloats change) (others.mapMembers change)
  | _, _, .skipLeft key value isMark others => .skipLeft key value isMark (others.mapMembers change)
  | _, _, .skipRight key value isMark others => .skipRight key _ isMark (others.mapMembers change)

end

theorem AlikeMembers.erase (isMark : mark ∈ marks) {left right : Members}
    (members : AlikeMembers left right) : AlikeMembers left (Members.erase right mark) := by
  cases members with
  | nil => exact .nil
  | cons key value others =>
    by_cases same : key = mark
    · rw [Members.erase, if_pos same]
      exact .skipLeft key _ (same ▸ isMark) others
    · rw [Members.erase, if_neg same]
      exact .cons key value (others.erase isMark)
  | skipLeft key value keyIs others => exact .skipLeft key value keyIs (others.erase isMark)
  | skipRight key value keyIs others =>
    by_cases same : key = mark
    · rw [Members.erase, if_pos same]
      exact others
    · rw [Members.erase, if_neg same]
      exact .skipRight key value keyIs (others.erase isMark)
termination_by left.length + right.length

theorem AlikeMembers.set (isMark : mark ∈ marks) (value : Json) {left right : Members}
    (members : AlikeMembers left right) : AlikeMembers left (Members.set right mark value) := by
  cases members with
  | nil => exact .skipRight mark value isMark .nil
  | cons key alike others =>
    unfold Members.set
    split
    · rename_i same
      obtain rfl : key = mark := same
      exact .skipLeft key _ isMark (.skipRight key value isMark others)
    · exact .cons key alike (others.set isMark value)
  | skipLeft key old keyIs others => exact .skipLeft key old keyIs (others.set isMark value)
  | skipRight key old keyIs others =>
    unfold Members.set
    split
    · exact .skipRight mark value isMark others
    · exact .skipRight key old keyIs (others.set isMark value)
termination_by left.length + right.length

/-! ### Lookup -/

theorem AlikeMembers.get? {key : String} (notMark : key ∉ marks) : ∀ {left right : Members},
    AlikeMembers left right → Option.Rel Alike (Members.get? left key) (Members.get? right key)
  | _, _, .nil => .none
  | _, _, .cons name value others => by
    rw [Members.get?_cons, Members.get?_cons]
    by_cases wanted : name = key
    · rw [if_pos wanted, if_pos wanted]
      exact .some value
    · rw [if_neg wanted, if_neg wanted]
      exact others.get? notMark
  | _, _, .skipLeft name value isMark others => by
    have different : name ≠ key := fun same => notMark (same ▸ isMark)
    rw [Members.get?_cons, if_neg different]
    exact others.get? notMark
  | _, _, .skipRight name value isMark others => by
    have different : name ≠ key := fun same => notMark (same ▸ isMark)
    rw [Members.get?_cons (name, value), if_neg different]
    exact others.get? notMark

section Lookup

variable {left right : Members} {key : String} {value : Json}

/-- Attributes other than marks are found on both sides, alike. -/
theorem AlikeMembers.get?_some (members : AlikeMembers left right) (notMark : key ∉ marks)
    (found : Members.get? left key = some value) :
    ∃ other, Members.get? right key = some other ∧ Alike value other := by
  have related := members.get? notMark
  rw [found] at related
  cases other : Members.get? right key with
  | none =>
    rw [other] at related
    cases related
  | some otherValue =>
    rw [other] at related
    cases related with
    | some alike => exact ⟨otherValue, rfl, alike⟩

theorem AlikeMembers.get?_none (members : AlikeMembers left right) (notMark : key ∉ marks)
    (absent : Members.get? left key = none) : Members.get? right key = none := by
  have related := members.get? notMark
  rw [absent] at related
  cases other : Members.get? right key with
  | none => rfl
  | some otherValue =>
    rw [other] at related
    cases related

theorem AlikeMembers.get?_text {text : String} (members : AlikeMembers left right)
    (notMark : key ∉ marks) (found : Members.get? left key = some (.str text)) :
    Members.get? right key = some (.str text) := by
  obtain ⟨other, otherFound, alike⟩ := members.get?_some notMark found
  cases alike
  exact otherFound

end Lookup

theorem AlikeMembers.filter (select : String → Bool) :
    ∀ {left right : Members}, AlikeMembers left right →
    AlikeMembers (left.filter fun member => select member.1)
      (right.filter fun member => select member.1)
  | _, _, .nil => .nil
  | _, _, .cons key value others => by
    rw [List.filter_cons, List.filter_cons]
    cases selected : select key with
    | true => exact .cons key value (others.filter select)
    | false => exact others.filter select
  | _, _, .skipLeft key value isMark others => by
    rw [List.filter_cons]
    cases selected : select key with
    | true => exact .skipLeft key value isMark (others.filter select)
    | false => exact others.filter select
  | _, _, .skipRight key value isMark others => by
    rw [List.filter_cons]
    cases selected : select key with
    | true => exact .skipRight key value isMark (others.filter select)
    | false => exact others.filter select

theorem AlikeMembers.append {front back : Members} (following : AlikeMembers front back) :
    ∀ {left right : Members}, AlikeMembers left right → AlikeMembers (left ++ front) (right ++ back)
  | _, _, .nil => following
  | _, _, .cons key value others => .cons key value (append following others)
  | _, _, .skipLeft key value isMark others => .skipLeft key value isMark (append following others)
  | _, _, .skipRight key value isMark others =>
      .skipRight key value isMark (append following others)

theorem AlikeMembers.single (key : String) (value : Alike left right) :
    AlikeMembers [(key, left)] [(key, right)] := .cons key value .nil

/-! ### The parts of parsed nodes -/

theorem AlikeMembers.commonAttributes {left right : Members} (members : AlikeMembers left right)
    (word : String) :
    AlikeMembers (Schema.commonAttributes left (.str word))
      (Schema.commonAttributes right (.str word)) := by
  unfold Schema.commonAttributes
  refine append ?_ (append (single "type" (.str word))
    (members.filter fun key => !reservedAttributes.contains key))
  cases found : Members.get? left "doc" with
  | none =>
    rw [members.get?_none (by decide) found]
    exact .nil
  | some doc =>
    obtain ⟨other, otherFound, alike⟩ := members.get?_some (by decide) found
    rw [otherFound]
    exact single "doc" alike

theorem AlikeMembers.taken {left right : Members} (members : AlikeMembers left right)
    {keys : List String} (noMarks : ∀ key ∈ keys, key ∉ marks) :
    AlikeMembers (keys.filterMap fun key => (Members.get? left key).map fun value => (key, value))
      (keys.filterMap fun key => (Members.get? right key).map fun value => (key, value)) := by
  induction keys with
  | nil => exact .nil
  | cons key rest ih =>
    rw [List.forall_mem_cons] at noMarks
    rw [List.filterMap_cons, List.filterMap_cons]
    cases found : Members.get? left key with
    | none =>
      rw [members.get?_none noMarks.1 found]
      exact ih noMarks.2
    | some value =>
      obtain ⟨other, otherFound, alike⟩ := members.get?_some noMarks.1 found
      rw [otherFound]
      exact .cons key alike (ih noMarks.2)

theorem AlikeMembers.commonFieldAttributes {left right : Members}
    (members : AlikeMembers left right) :
    AlikeMembers (Schema.commonFieldAttributes left) (Schema.commonFieldAttributes right) :=
  append (members.taken (by decide))
    (members.filter fun key => !reservedFieldAttributes.contains key)

theorem AlikeMembers.checkAliases {left right : Members} (members : AlikeMembers left right)
    (checked : Schema.checkAliases left = .ok ()) : Schema.checkAliases right = .ok () := by
  unfold Schema.checkAliases at checked ⊢
  cases found : Members.get? left "aliases" with
  | none => rw [members.get?_none (by decide) found]
  | some aliases =>
    obtain ⟨other, otherFound, alike⟩ := members.get?_some (by decide) found
    rw [found] at checked
    rw [otherFound]
    cases alike with
    | arr items => rfl
    | _ => cases checked

theorem checkDecimal_of_absent (absent : Members.get? members "logicalType" = none) (type : Json) :
    checkDecimal members type = .ok () := by
  rw [checkDecimal, absent]

private theorem float_same_str (value : Double) (text : String) :
    Json.same (.float value) (.str text) = false := by
  rw [Json.same] <;> simp [Json.integral?]
  cases value.toInt? <;> simp

theorem Alike.same_str (alike : Alike left right) (text : String) :
    left.same (.str text) = right.same (.str text) := by
  cases alike with
  | float leftValue rightValue => rw [float_same_str, float_same_str]
  | arr items => simp [Json.same]
  | obj members => simp [Json.same]
  | _ => rfl

theorem AlikeItems.any_same_str (text : String) :
    ∀ {left right : List Json}, AlikeItems left right →
    (left.any fun item => item.same (.str text)) = right.any fun item => item.same (.str text)
  | _, _, .nil => rfl
  | _, _, .cons first others => by
    rw [List.any_cons, List.any_cons, first.same_str, others.any_same_str]

/-- Marks aside, documents that are alike mention the same words. -/
theorem Alike.mentions {left right : Json} (alike : Alike left right) (notMark : word ∉ marks) :
    Schema.mentions left word = Schema.mentions right word := by
  cases alike with
  | arr items => simp only [Schema.mentions, items.any_same_str]
  | obj members =>
    simp only [Schema.mentions, Members.has]
    have related := members.get? notMark
    generalize Members.get? _ word = leftFound at related ⊢
    generalize Members.get? _ word = rightFound at related ⊢
    cases related <;> rfl
  | _ => rfl

/-! ### Registries -/

/-- Two registries that have alike definitions under the same names. -/
def AlikeRegistries (left right : Registry) : Prop :=
  ∀ name, Option.Rel Alike (Members.get? left name) (Members.get? right name)

theorem AlikeRegistries.refl (registry : Registry) : AlikeRegistries registry registry := by
  intro name
  cases Members.get? registry name with
  | none => exact .none
  | some definition => exact .some (.refl definition)

theorem AlikeRegistries.set {left right : Registry} (alike : AlikeRegistries left right)
    (name : String) (members : AlikeMembers leftMembers rightMembers) :
    AlikeRegistries (Members.set left name (.obj leftMembers))
      (Members.set right name (.obj rightMembers)) := by
  intro other
  rw [Members.get?_set, Members.get?_set]
  split
  · exact .some (.obj members)
  · exact alike other

theorem AlikeRegistries.get?_some {left right : Registry} (alike : AlikeRegistries left right)
    {name : String} {definition : Json} (known : Members.get? left name = some definition) :
    ∃ other, Members.get? right name = some other ∧ Alike definition other := by
  have related := alike name
  rw [known] at related
  generalize Members.get? right name = found at related ⊢
  cases related with
  | some alike => exact ⟨_, rfl, alike⟩

/-! ### Names -/

theorem AlikeMembers.qualifiedName {left right : Members} (members : AlikeMembers left right)
    {space innerSpace name : Json}
    (texts : ∀ key ∈ ["name", "namespace"], ∀ value, Members.get? left key = some value →
      isText value = true)
    (named : Schema.qualifiedName (.obj left) space = .ok (innerSpace, name)) :
    Schema.qualifiedName (.obj right) space = .ok (innerSpace, name) := by
  have sameUnder (key : String) (isKey : key ∈ ["name", "namespace"]) :
      Members.get? right key = Members.get? left key := by
    have notMark : key ∉ marks := by
      revert key
      decide
    cases found : Members.get? left key with
    | none => exact members.get?_none notMark found
    | some value =>
      have isText := texts key isKey value found
      cases value with
      | str text => exact members.get?_text notMark found
      | _ => cases isText
  rw [← named]
  simp only [Schema.qualifiedName, sameUnder "name" (by decide), sameUnder "namespace" (by decide)]
  cases found : Members.get? left "name" with
  | none => simp [Schema.qualifiedName, found] at named
  | some value => rfl

/-! ### Parsing -/

theorem texts_of_wellTyped (typed : wellTyped (.obj members) = true)
    (typeIs : Members.get? members "type" = some (.str word)) (hasNames : hasName word = true) :
    ∀ key ∈ ["name", "namespace"], ∀ value, Members.get? members key = some value →
      isText value = true := by
  intro key isKey value found
  have memberTyped := memberWellTyped_of_get? typed typeIs found
  simp only [List.mem_cons, List.not_mem_nil, or_false] at isKey
  rcases isKey with rfl | rfl
  · simpa [memberWellTyped, hasNames] using memberTyped
  · simpa [memberWellTyped, hasNames] using memberTyped

theorem alike_of_isText {value : Json} (isText : Schema.isText value = true) :
    Alike value value := by
  cases value with
  | str text => exact .str text
  | _ => cases isText

theorem AlikeItems.fieldNodes {left right : Members} {nodes : List Json}
    (members : AlikeMembers left right) (typed : wellTyped (.obj left) = true)
    (typeIs : Members.get? left "type" = some (.str word)) (isRecord : word ∈ ["record", "error"])
    (nodesAre : fieldNodes? left = some nodes) :
    ∃ others, fieldNodes? right = some others ∧ AlikeItems nodes others := by
  have fielded : hasFields word = true := by simpa [hasFields] using isRecord
  unfold fieldNodes? at nodesAre ⊢
  cases found : Members.get? left "fields" with
  | none =>
    rw [found] at nodesAre
    cases nodesAre
    rw [members.get?_none (by decide) found]
    exact ⟨[], rfl, .nil⟩
  | some fields =>
    have fieldsTyped := memberWellTyped_of_get? typed typeIs found
    obtain ⟨other, otherFound, alike⟩ := members.get?_some (by decide) found
    rw [found] at nodesAre
    rw [otherFound]
    cases alike with
    | arr items =>
      cases nodesAre
      exact ⟨_, rfl, items⟩
    | _ => simp [memberWellTyped, fielded, fieldListWellTyped] at fieldsTyped

section Definitions

variable {left right : Members} {name otherName value other : Json} {fields otherFields : List Json}

theorem AlikeMembers.leafMembers (members : AlikeMembers left right) (word key : String)
    (alikeName : Alike name otherName) (alikeValue : Alike value other) :
    AlikeMembers (Schema.leafMembers left word name key value)
      (Schema.leafMembers right word otherName key other) :=
  append (.cons "name" alikeName (single key alikeValue)) (members.commonAttributes word)

theorem AlikeMembers.recordMembers (members : AlikeMembers left right) (word : String)
    (alikeName : Alike name otherName) (alikeFields : AlikeItems fields otherFields) :
    AlikeMembers (Schema.recordMembers left word name fields)
      (Schema.recordMembers right word otherName otherFields) :=
  append (.cons "name" alikeName (single "fields" (.arr alikeFields)))
    (members.commonAttributes word)

theorem AlikeMembers.fieldMembers (members : AlikeMembers left right)
    (alikeName : Alike name otherName) (alikeType : Alike value other) :
    AlikeMembers (Schema.fieldMembers left name value)
      (Schema.fieldMembers right otherName other) :=
  append (.cons "name" alikeName (single "type" alikeType)) members.commonFieldAttributes

end Definitions

/-- A state in which no further names are taken, with a registry that is alike. -/
structure ParseState.Alike (left right : ParseState) : Prop where
  fewer : right.defined ⊆ left.defined
  registries : AlikeRegistries left.registry right.registry

theorem ParseState.Alike.enter {left right : ParseState} (states : left.Alike right)
    (entry : String) (members : AlikeMembers leftMembers rightMembers) :
    (left.enter entry leftMembers).Alike (right.enter entry rightMembers) :=
  ⟨List.cons_subset_cons entry states.fewer, states.registries.set entry members⟩

theorem ParseState.Alike.replace {left right : ParseState} (states : left.Alike right)
    (entry : String) (members : AlikeMembers leftMembers rightMembers) :
    (left.replace entry leftMembers).Alike (right.replace entry rightMembers) :=
  ⟨states.fewer, states.registries.set entry members⟩

mutual

theorem Parses.alike {expand : Bool} {space node parsed : Json} {start stop : ParseState} :
    Parses expand space node start parsed stop → Schema.wellTyped node = true → ∀ other before,
      Alike node other → start.Alike before → ∃ otherParsed after,
        Parses expand space other before otherParsed after ∧ Alike parsed otherParsed ∧
        stop.Alike after
  | .primitive isPrimitive, typed => by
    intro other before (.str word) states
    exact ⟨.str word, before, .primitive isPrimitive, .str word, states⟩
  | .reference notPrimitive qualified known kept, typed => by
    intro other before (.str word) states
    obtain ⟨otherDefinition, otherKnown, alike⟩ := states.registries.get?_some known
    rw [alike.mentions (by decide)] at kept
    exact ⟨_, before, .reference notPrimitive qualified otherKnown kept, .str _, states⟩
  | .expansion notPrimitive qualified known expanded complete, typed => by
    intro other before (.str word) states
    obtain ⟨otherDefinition, otherKnown, alike⟩ := states.registries.get?_some known
    rw [alike.mentions (by decide)] at complete
    exact ⟨_, before, .expansion notPrimitive qualified otherKnown expanded complete, alike, states⟩
  | .union parts, typed => by
    intro other before (.arr items) states
    rw [Schema.wellTyped] at typed
    obtain ⟨otherParsed, after, otherParts, alike, afterAlike⟩ :=
      parts.alike typed _ before items states
    exact ⟨_, after, .union otherParts, .arr alike, afterAlike⟩
  | .primitiveNode typeIs checked isPrimitive, typed => by
    intro other before (.obj members) states
    have noLogical := members.get?_none (by decide) (get?_logicalType typed)
    have otherType := members.get?_text (by decide) typeIs
    exact ⟨_, before, .primitiveNode otherType (checkDecimal_of_absent noLogical _) isPrimitive,
      .obj (members.commonAttributes _), states⟩
  | .collection typeIs checked isCollection under inner, typed => by
    intro other before (.obj members) states
    have noLogical := members.get?_none (by decide) (get?_logicalType typed)
    have otherType := members.get?_text (by decide) typeIs
    have nodeTyped := (memberWellTyped_collection isCollection).mp
      (memberWellTyped_of_get? typed typeIs under)
    have noMarks : ∀ pair ∈ [("array", "items"), ("map", "values")], pair.2 ∉ marks := by decide
    obtain ⟨otherNode, otherUnder, alikeNode⟩ := members.get?_some (noMarks _ isCollection) under
    obtain ⟨otherPart, after, otherInner, alikePart, afterAlike⟩ :=
      inner.alike nodeTyped otherNode before alikeNode states
    exact ⟨_, after, .collection otherType (checkDecimal_of_absent noLogical _) isCollection
      otherUnder otherInner,
      .obj (.append (.single _ alikePart) (members.commonAttributes _)), afterAlike⟩
  | .leaf typeIs checked isLeaf named entryIs fresh under, typed => by
    intro other before (.obj members) states
    have noLogical := members.get?_none (by decide) (get?_logicalType typed)
    have otherType := members.get?_text (by decide) typeIs
    have noMarks : ∀ pair ∈ [("enum", "symbols"), ("fixed", "size")], pair.2 ∉ marks := by decide
    have haveNames : ∀ pair ∈ [("enum", "symbols"), ("fixed", "size")], hasName pair.1 = true := by
      decide
    have texts := texts_of_wellTyped typed typeIs (haveNames _ isLeaf)
    have alikeName := alike_of_isText (isText_qualifiedName named (texts "name" (by decide)))
    obtain ⟨otherValue, otherUnder, alikeValue⟩ := members.get?_some (noMarks _ isLeaf) under
    have leafAlike (word key : String) := members.leafMembers word key alikeName alikeValue
    exact ⟨_, _, .leaf otherType (checkDecimal_of_absent noLogical _) isLeaf
      (members.qualifiedName texts named) entryIs
      (fun taken => fresh (states.fewer taken)) otherUnder, .obj (leafAlike _ _),
      states.enter _ (leafAlike _ _)⟩
  | .record typeIs checked isRecord named entryIs fresh nodesAre inner, typed => by
    intro other before (.obj members) states
    have noLogical := members.get?_none (by decide) (get?_logicalType typed)
    have otherType := members.get?_text (by decide) typeIs
    have haveNames : ∀ word ∈ ["record", "error"], hasName word = true := by decide
    have texts := texts_of_wellTyped typed typeIs (haveNames _ isRecord)
    have alikeName := alike_of_isText (isText_qualifiedName named (texts "name" (by decide)))
    have nodesTyped := fieldsWellTyped_nodes isRecord (wellTyped_obj_word typed typeIs).2 nodesAre
    obtain ⟨otherNodes, otherNodesAre, alikeNodes⟩ :=
      AlikeItems.fieldNodes members typed typeIs isRecord nodesAre
    obtain ⟨otherFields, after, otherInner, alikeFields, afterAlike⟩ :=
      inner.alike nodesTyped otherNodes _ alikeNodes (states.enter _ (members.commonAttributes _))
    have recordAlike (word : String) := members.recordMembers word alikeName alikeFields
    exact ⟨_, _, .record otherType (checkDecimal_of_absent noLogical _) isRecord
      (members.qualifiedName texts named)
      entryIs (fun taken => fresh (states.fewer taken)) otherNodesAre otherInner,
      .obj (recordAlike _),
      afterAlike.replace _ (recordAlike _)⟩

theorem ParsesBranches.alike {expand : Bool} {space : Json} {branches parsed : List Json}
    {start stop : ParseState} :
    ParsesBranches expand space branches start parsed stop → branchesWellTyped branches = true →
    ∀ others before,
      AlikeItems branches others → start.Alike before → ∃ otherParsed after,
        ParsesBranches expand space others before otherParsed after ∧
        AlikeItems parsed otherParsed ∧ stop.Alike after
  | .nil, typed => by
    intro others before .nil states
    exact ⟨[], before, .nil, .nil, states⟩
  | .cons first rest, typed => by
    intro others before (.cons alikeFirst alikeRest) states
    rw [branchesWellTyped, Bool.and_eq_true] at typed
    obtain ⟨parsedFirst, between, otherFirst, firstAlike, betweenAlike⟩ :=
      first.alike typed.1 _ _ alikeFirst states
    obtain ⟨parsedRest, after, otherRest, restAlike, afterAlike⟩ :=
      rest.alike typed.2 _ _ alikeRest betweenAlike
    exact ⟨_, after, .cons otherFirst otherRest, .cons firstAlike restAlike, afterAlike⟩

theorem ParsesFields.alike {expand : Bool} {space : Json} {fields parsed : List Json}
    {start stop : ParseState} :
    ParsesFields expand space fields start parsed stop → fieldsWellTyped fields = true →
    ∀ others before,
      AlikeItems fields others → start.Alike before → ∃ otherParsed after,
        ParsesFields expand space others before otherParsed after ∧ AlikeItems parsed otherParsed ∧
        stop.Alike after
  | .nil, typed => by
    intro others before .nil states
    exact ⟨[], before, .nil, .nil, states⟩
  | .cons listed named under inner rest, typed => by
    intro others before (.cons (.obj members) alikeRest) states
    rw [fieldsWellTyped, Bool.and_eq_true] at typed
    have membersTyped := fieldMembersWellTyped_iff.mp typed.1
    have nodeTyped := fieldMemberWellTyped_type.mp (membersTyped _ (Members.mem_of_get? under))
    obtain ⟨otherName, otherNamed, alikeName⟩ := members.get?_some (by decide) named
    obtain ⟨otherNode, otherUnder, alikeNode⟩ := members.get?_some (by decide) under
    obtain ⟨otherType, between, otherInner, alikeType, betweenAlike⟩ :=
      inner.alike nodeTyped _ _ alikeNode states
    obtain ⟨parsedRest, after, otherRest, restAlike, afterAlike⟩ :=
      rest.alike typed.2 _ _ alikeRest betweenAlike
    have fieldAlike := members.fieldMembers alikeName alikeType
    exact ⟨_, after, .cons (members.commonFieldAttributes.checkAliases listed) otherNamed otherUnder
      otherInner otherRest,
      .cons (.obj fieldAlike) restAlike, afterAlike⟩

end

/-! ### Parsing from the top -/

/-- Parsing by force, as the reader of a file does. -/
def ParseOptions.forced : ParseOptions := { mark := false, force := true }

/-- A parse by force is a derivation that starts without names. -/
theorem parse_forced_ok {after : Registry} :
    parse .forced registry schema = .ok (parsed, after) ↔
      ∃ defined, Parses false (.str "") schema ⟨[], registry⟩ parsed ⟨defined, after⟩ := by
  have whole : parseTop .forced schema registry = parseWhole false false schema registry := by
    cases schema <;> rfl
  unfold parse
  rw [whole]
  unfold parseWhole
  constructor
  · intro done
    cases parsedDone : parseNode false (.str "") schema ⟨[], registry⟩ with
    | error error state => simp [parsedDone] at done
    | ok result state =>
      simp only [parsedDone] at done
      cases done
      exact ⟨state.defined, parses_of_parseNode parsedDone⟩
  · rintro ⟨defined, derivation⟩
    rw [derivation.parseNode]
    rfl

/-- Parsing by force takes schemas that are alike to parsed schemas and registries that are
alike. -/
theorem parse_forced_alike {other : Json} (parses : parse .forced [] schema = .ok (plain, registry))
    (typed : wellTyped schema = true) (alike : Alike schema other) :
    ∃ otherPlain otherRegistry, parse .forced [] other = .ok (otherPlain, otherRegistry) ∧
      Alike plain otherPlain ∧
      AlikeRegistries registry otherRegistry := by
  obtain ⟨defined, derivation⟩ := parse_forced_ok.mp parses
  have nothing : ParseState.Alike ⟨[], []⟩ ⟨[], []⟩ := ⟨List.Subset.refl [], .refl []⟩
  obtain ⟨otherPlain, ⟨otherDefined, otherRegistry⟩, otherDerivation, plainAlike, afterAlike⟩ :=
    derivation.alike typed other _ alike nothing
  exact ⟨otherPlain, otherRegistry, parse_forced_ok.mpr ⟨otherDefined, otherDerivation⟩, plainAlike,
    afterAlike.registries⟩

mutual

/-- Whether a schema is not marked as parsed, neither at the top nor at the branches of a union. -/
def unmarked : Json → Bool
  | .obj members => !Members.has members parsedKey
  | .arr branches => branchesUnmarked branches
  | _ => true
termination_by structural schema => schema

def branchesUnmarked : List Json → Bool
  | [] => true
  | branch :: rest => unmarked branch && branchesUnmarked rest
termination_by structural branches => branches

end

theorem Alike.marked {document : Json} {members : Members} (alike : Alike document (.obj members))
    (registry : Registry) : Alike document ((Draft.marked members).seal registry) := by
  cases alike with
  | obj members => exact .obj (.set (by decide) _ (.set (by decide) _ members))

/-- Whether what a schema is taken for by its marks is what it is parsed to by force. -/
def Truthful (schema : Json) : Prop :=
  ∀ ⦃plain parsed : Json⦄ ⦃registry known : Registry⦄, parse .forced [] schema =
    .ok (plain, registry) →
    parse {} [] schema = .ok (parsed, known) → Alike plain parsed ∧ AlikeRegistries registry known

end Avro.Schema
