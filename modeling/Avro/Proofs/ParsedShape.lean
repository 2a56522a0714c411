import Avro.Proofs.Shape
import Avro.Proofs.WellTyped

/-!
Contract: schemas without unions and references have a shape once they are parsed.

Owns: `Simple`, the schemas that are built from primitive types, named types and collections alone,
and the existence of a shape for what parsing makes of a well-typed one.
-/

namespace Avro.Schema

open Members (get? get?_append get?_cons get?_set)

variable {word key : String} {type value name schema parsed : Json} {members : Members}
  {registry after : Registry} {others : Members}

mutual

/-- A schema without unions and references, whose fields have lists of texts as aliases. -/
inductive Simple : Json → Prop where
  | word {word : String} (isPrimitive : word ∈ primitiveNames) : Simple (.str word)
  | primitive {members : List (String × Json)} {word : String}
      (typeIs : get? members "type" = some (.str word))
      (isPrimitive : word ∈ primitiveNames) : Simple (.obj members)
  | leaf {members : List (String × Json)} {word : String}
      (typeIs : get? members "type" = some (.str word))
      (isLeaf : word ∈ ["enum", "fixed"]) : Simple (.obj members)
  | collection {members : List (String × Json)} {word key : String} {node : Json}
      (typeIs : get? members "type" = some (.str word))
      (isCollection : (word, key) ∈ [("array", "items"), ("map", "values")])
      (under : get? members key = some node) (inner : Simple node) : Simple (.obj members)
  | record {members : List (String × Json)} {word : String} {nodes : List Json}
      (typeIs : get? members "type" = some (.str word)) (isRecord : word ∈ ["record", "error"])
      (nodesAre : fieldNodes? members = some nodes) (inner : SimpleFields nodes) :
      Simple (.obj members)

inductive SimpleFields : List Json → Prop where
  | nil : SimpleFields []
  | cons {members : List (String × Json)} {node : Json} {rest : List Json} {aliases : List String}
      (aliasesAre : (get? members "aliases").getD (.arr []) = .arr (aliases.map .str))
      (under : get? members "type" = some node) (inner : Simple node) (others : SimpleFields rest) :
      SimpleFields (.obj members :: rest)

end

/-! ### Attributes of parsed nodes -/

theorem exists_primitive (isPrimitive : word ∈ primitiveNames) :
    ∃ type : Primitive, word = type.word := by
  simp only [primitiveNames, List.mem_cons, List.not_mem_nil, or_false] at isPrimitive
  rcases isPrimitive with rfl | rfl | rfl | rfl | rfl | rfl | rfl | rfl
  · exact ⟨.boolean, rfl⟩
  · exact ⟨.bytes, rfl⟩
  · exact ⟨.double, rfl⟩
  · exact ⟨.float, rfl⟩
  · exact ⟨.int, rfl⟩
  · exact ⟨.long, rfl⟩
  · exact ⟨.null, rfl⟩
  · exact ⟨.string, rfl⟩

/-- An attribute with a meaning of its own is looked for behind the common part. -/
theorem get?_behind_common (reserved : reservedAttributes.contains key = true)
    (notType : "type" ≠ key) (notDoc : "doc" ≠ key) :
    get? (commonAttributes members type ++ others) key = get? others key := by
  unfold commonAttributes
  rw [get?_append, get?_append, get?_append,
    Members.get?_filter (fun other => !reservedAttributes.contains other),
    if_neg (by simp only [reserved]; decide)]
  cases get? members "doc" with
  | none => simp [get?, notType]
  | some doc => simp [get?, notType, notDoc]

/-- Of the attributes that a type defines, only the type is among the common ones. -/
theorem get?_own (isOwn : key ∈ reservedAttributes.erase "doc") :
    get? (commonAttributes members type ++ others) key = get? (("type", type) :: others) key := by
  by_cases isType : key = "type"
  · subst isType
    exact get?_type_commonAttributes members others type
  · have ⟨reserved, notDoc⟩ :=
        (show ∀ key ∈ reservedAttributes.erase "doc", reservedAttributes.contains key = true ∧
        "doc" ≠ key by
      decide) key isOwn
    rw [get?_behind_common reserved (Ne.symm isType) notDoc, get?_cons, if_neg (Ne.symm isType)]

private theorem get?_taken (members : Members) (keys : List String) (key : String) :
    get? (keys.filterMap fun taken => (get? members taken).map fun value => (taken, value)) key =
      if keys.contains key then get? members key else none := by
  induction keys with
  | nil => rfl
  | cons first rest ih =>
    rw [List.filterMap_cons, List.contains_cons]
    by_cases sameKey : first = key
    · subst sameKey
      cases found : get? members first with
      | none => simp [ih, found]
      | some value => simp [get?_cons]
    · have different : (key == first) = false := by simp [Ne.symm sameKey]
      rw [different, Bool.false_or]
      cases get? members first with
      | none => exact ih
      | some value =>
        show get? ((first, value) :: _) key = _
        rw [get?_cons, if_neg sameKey]
        exact ih

/-- The attributes of a parsed field: its own name and type, and what it keeps of the given ones. -/
theorem get?_fieldMembers (members : Members) (name type : Json)
    (reserved : reservedFieldAttributes.contains key = true) :
    get? (fieldMembers members name type) key =
      (if ["doc", "aliases", "default"].contains key then get? members key else none).or
        (get? [("name", name), ("type", type)] key) := by
  unfold fieldMembers commonFieldAttributes
  rw [get?_append, get?_append, get?_taken,
    Members.get?_filter (fun other => !reservedFieldAttributes.contains other),
    if_neg (by simp only [reserved]; decide), Option.none_or]

theorem exists_texts (texts : isTextList value = true) :
    ∃ symbols : List String, value = .arr (symbols.map .str) := by
  cases value with
  | arr items =>
    rw [isTextList] at texts
    induction items with
    | nil => exact ⟨[], rfl⟩
    | cons item rest ih =>
      rw [List.all_cons, Bool.and_eq_true] at texts
      obtain ⟨symbols, restIs⟩ := ih texts.2
      cases item with
      | str text => exact ⟨text :: symbols, by rw [List.map_cons, ← Json.arr.inj restIs]⟩
      | _ => exact absurd texts.1 Bool.false_ne_true
  | _ => exact absurd texts Bool.false_ne_true

/-! ### Shapes of parsed nodes -/

theorem Simple.part {node : Json} (simple : Simple (.obj members))
    (typeIs : get? members "type" = some (.str word))
    (isCollection : (word, key) ∈ [("array", "items"), ("map", "values")])
    (under : get? members key = some node) : Simple node := by
  simp only [List.mem_cons, List.not_mem_nil, or_false, Prod.mk.injEq] at isCollection
  cases simple with
  | primitive found isPrimitive =>
    rw [typeIs] at found
    cases found
    rcases isCollection with ⟨rfl, -⟩ | ⟨rfl, -⟩ <;> exact absurd isPrimitive (by decide)
  | leaf found isLeaf =>
    rw [typeIs] at found
    cases found
    rcases isCollection with ⟨rfl, -⟩ | ⟨rfl, -⟩ <;> exact absurd isLeaf (by decide)
  | record found isRecord _ _ =>
    rw [typeIs] at found
    cases found
    rcases isCollection with ⟨rfl, -⟩ | ⟨rfl, -⟩ <;> exact absurd isRecord (by decide)
  | collection found isOther otherUnder inner =>
    rw [typeIs] at found
    cases found
    simp only [List.mem_cons, List.not_mem_nil, or_false, Prod.mk.injEq] at isOther
    rcases isCollection with ⟨rfl, rfl⟩ | ⟨rfl, rfl⟩
    · rcases isOther with ⟨-, rfl⟩ | ⟨impossible, -⟩
      · rw [under] at otherUnder
        cases otherUnder
        exact inner
      · exact absurd impossible (by decide)
    · rcases isOther with ⟨impossible, -⟩ | ⟨-, rfl⟩
      · exact absurd impossible (by decide)
      · rw [under] at otherUnder
        cases otherUnder
        exact inner

theorem Simple.fields {nodes : List Json} (simple : Simple (.obj members))
    (typeIs : get? members "type" = some (.str word)) (isRecord : word ∈ ["record", "error"])
    (nodesAre : fieldNodes? members = some nodes) : SimpleFields nodes := by
  simp only [List.mem_cons, List.not_mem_nil, or_false] at isRecord
  cases simple with
  | primitive found isPrimitive =>
    rw [typeIs] at found
    cases found
    rcases isRecord with rfl | rfl <;> exact absurd isPrimitive (by decide)
  | leaf found isLeaf =>
    rw [typeIs] at found
    cases found
    rcases isRecord with rfl | rfl <;> exact absurd isLeaf (by decide)
  | collection found isCollection _ _ =>
    rw [typeIs] at found
    cases found
    simp only [List.mem_cons, List.not_mem_nil, or_false, Prod.mk.injEq] at isCollection
    rcases isRecord with rfl | rfl <;> simp at isCollection
  | record found _ otherNodes inner =>
    rw [nodesAre] at otherNodes
    cases otherNodes
    exact inner

/-- Enumerations and fixed types have shapes. -/
theorem exists_shape_leaf (isLeaf : (word, key) ∈ [("enum", "symbols"), ("fixed", "size")])
    (typed : Schema.wellTyped (.obj (leafMembers members word name key value)) = true) :
    ∃ shape, HasShape (.obj (leafMembers members word name key value)) shape := by
  have typeIs := get?_type_commonAttributes members [("name", name), (key, value)] (.str word)
  have unmarked := get?_logicalType typed
  rcases Members.mem_pairs.mp isLeaf with ⟨rfl, rfl⟩ | ⟨rfl, rfl⟩
  · have found : get? (leafMembers members "enum" name "symbols" value) "symbols" = some value :=
      get?_own (by decide)
    have texts : isTextList value = true := by
      simpa [memberWellTyped] using memberWellTyped_of_get? typed typeIs found
    obtain ⟨symbols, rfl⟩ := exists_texts texts
    exact ⟨_, HasShape.enum typeIs unmarked found⟩
  · have found : get? (leafMembers members "fixed" name "size" value) "size" = some value :=
      get?_own (by decide)
    have integer : isInteger value = true := by
      simpa [memberWellTyped] using memberWellTyped_of_get? typed typeIs found
    cases value with
    | int size => exact ⟨_, HasShape.fixed typeIs unmarked found⟩
    | _ => exact absurd integer Bool.false_ne_true

/-- A collection of parts that have a shape has one. -/
theorem exists_shape_collection {part : Json}
    (isCollection : (word, key) ∈ [("array", "items"), ("map", "values")])
    (typed : Schema.wellTyped (.obj (commonAttributes members (.str word) ++ [(key, part)])) = true)
    (inner : Schema.wellTyped part = true → ∃ shape, HasShape part shape) :
    ∃ shape, HasShape (.obj (commonAttributes members (.str word) ++ [(key, part)])) shape := by
  have typeIs := get?_type_commonAttributes members [(key, part)] (.str word)
  have unmarked := get?_logicalType typed
  have partTyped : Schema.wellTyped part = true := by
    apply (memberWellTyped_collection isCollection).mp
    exact (wellTyped_obj_word typed typeIs).2 _ (by simp)
  obtain ⟨shape, shaped⟩ := inner partTyped
  rcases Members.mem_pairs.mp isCollection with ⟨rfl, rfl⟩ | ⟨rfl, rfl⟩
  · exact ⟨_, HasShape.array typeIs unmarked (get?_own (by decide)) shaped⟩
  · exact ⟨_, HasShape.map typeIs unmarked (get?_own (by decide)) shaped⟩

/-- A record whose fields have shapes has one. -/
theorem exists_shape_record {fields : List Json} (isRecord : word ∈ ["record", "error"])
    (typed : Schema.wellTyped (.obj (recordMembers members word name fields)) = true)
    (inner : fieldsWellTyped fields = true → ∃ shapes, HaveShapes fields shapes) :
    ∃ shape, HasShape (.obj (recordMembers members word name fields)) shape := by
  have typeIs := get?_type_commonAttributes members
    [("name", name), ("fields", .arr fields)] (.str word)
  have unmarked := get?_logicalType typed
  have found : get? (recordMembers members word name fields) "fields" = some (.arr fields) :=
    get?_own (by decide)
  have fieldsTyped := memberWellTyped_of_get? typed typeIs found
  rcases List.mem_pair.mp isRecord with rfl | rfl
  · obtain ⟨shapes, shaped⟩ :=
      inner (by simpa [memberWellTyped, hasFields, fieldListWellTyped] using fieldsTyped)
    exact ⟨_, @HasShape.record _ false _ _ typeIs unmarked found shaped⟩
  · obtain ⟨shapes, shaped⟩ :=
      inner (by simpa [memberWellTyped, hasFields, fieldListWellTyped] using fieldsTyped)
    exact ⟨_, @HasShape.record _ true _ _ typeIs unmarked found shaped⟩

theorem exists_shapes_cons {rest : List Json} {aliases : List String}
    (typed : fieldWellTyped (.obj (fieldMembers members name type)) = true)
    (aliasesAre : (get? members "aliases").getD (.arr []) = .arr (aliases.map .str))
    (inner : Schema.wellTyped type = true → ∃ shape, HasShape type shape)
    (others : ∃ shapes, HaveShapes rest shapes) :
    ∃ shapes, HaveShapes (.obj (fieldMembers members name type) :: rest) shapes := by
  have membersTyped := fieldMembersWellTyped_iff.mp typed
  have nameFound : get? (fieldMembers members name type) "name" = some name :=
    get?_fieldMembers members name type (by decide)
  have typeFound : get? (fieldMembers members name type) "type" = some type :=
    get?_fieldMembers members name type (by decide)
  have aliasesFound : get? (fieldMembers members name type) "aliases" = get? members "aliases" := by
    rw [get?_fieldMembers members name type (by decide), if_pos (by decide)]
    exact Option.or_none
  have nameTyped : isText name = true := membersTyped _ (Members.mem_of_get? nameFound)
  have typeTyped := fieldMemberWellTyped_type.mp (membersTyped _ (Members.mem_of_get? typeFound))
  obtain ⟨shape, shaped⟩ := inner typeTyped
  obtain ⟨shapes, othersShaped⟩ := others
  cases name with
  | str text =>
    exact ⟨_, HaveShapes.cons nameFound (by rw [aliasesFound, aliasesAre]) typeFound shaped
      othersShaped⟩
  | _ => exact absurd nameTyped Bool.false_ne_true

mutual

theorem Parses.exists_shape {expand : Bool} {space node parsed : Json} {start stop : ParseState} :
    Parses expand space node start parsed stop → Simple node → Schema.wellTyped parsed = true →
      ∃ shape, HasShape parsed shape
  | .primitive isPrimitive, simple, typed => by
    obtain ⟨type, rfl⟩ := exists_primitive isPrimitive
    exact ⟨_, HasShape.word⟩
  | .reference notPrimitive qualified known kept, simple, typed => by
    cases simple with
    | word isPrimitive => exact absurd isPrimitive notPrimitive
  | .expansion notPrimitive qualified known expanded complete, simple, typed => by
    cases simple with
    | word isPrimitive => exact absurd isPrimitive notPrimitive
  | .union parts, simple, typed => by cases simple
  | .primitiveNode typeIs checked isPrimitive, simple, typed => by
    obtain ⟨type, rfl⟩ := exists_primitive isPrimitive
    refine ⟨.primitive type, HasShape.primitive ?_ (get?_logicalType typed)⟩
    rw [← List.append_nil (commonAttributes _ _)]
    exact get?_type_commonAttributes _ [] _
  | .collection typeIs checked isCollection under inner, simple, typed => by
    apply exists_shape_collection isCollection typed
    apply inner.exists_shape
    exact simple.part typeIs isCollection under
  | .leaf typeIs checked isLeaf named entryIs fresh under, simple, typed => by
    exact exists_shape_leaf isLeaf typed
  | .record typeIs checked isRecord named entryIs fresh nodesAre inner, simple, typed => by
    apply exists_shape_record isRecord typed
    apply inner.exists_shapes
    exact simple.fields typeIs isRecord nodesAre

theorem ParsesFields.exists_shapes {expand : Bool} {space : Json} {nodes parsed : List Json}
    {start stop : ParseState} :
    ParsesFields expand space nodes start parsed stop → SimpleFields nodes →
    fieldsWellTyped parsed = true →
      ∃ shapes, HaveShapes parsed shapes
  | .nil, simple, typed => by exact ⟨[], HaveShapes.nil⟩
  | .cons listed named under inner others, simple, typed => by
    rw [fieldsWellTyped, Bool.and_eq_true] at typed
    cases simple with
    | cons aliasesAre otherUnder simpleNode simpleRest =>
      rw [under] at otherUnder
      cases otherUnder
      apply exists_shapes_cons typed.1 aliasesAre
      · exact inner.exists_shape simpleNode
      · exact others.exists_shapes simpleRest typed.2

end

private theorem exists_shape_marked {shape : Shape} (registry : Registry)
    (shaped : HasShape (.obj members) shape) :
    ∃ sealedShape, HasShape ((Draft.marked members).seal registry) sealedShape := by
  have kept : ∀ key, key ≠ parsedKey → key ≠ registryKey →
      get? (Members.set (Members.set members parsedKey (.bool true)) registryKey (.obj registry))
        key =
        get? members key := by
    intro key notMark notRegistry
    rw [get?_set, if_neg (Ne.symm notRegistry), get?_set, if_neg (Ne.symm notMark)]
  have keptType := kept "type" (by decide) (by decide)
  have keptLogical := kept "logicalType" (by decide) (by decide)
  rw [Draft.seal]
  cases shaped with
  | primitive typeIs unmarked =>
    exact ⟨_, HasShape.primitive (keptType.trans typeIs) (keptLogical.trans unmarked)⟩
  | fixed typeIs unmarked sizeIs =>
    exact ⟨_, HasShape.fixed (keptType.trans typeIs) (keptLogical.trans unmarked)
      ((kept "size" (by decide) (by decide)).trans sizeIs)⟩
  | enum typeIs unmarked symbolsAre =>
    exact ⟨_, HasShape.enum (keptType.trans typeIs) (keptLogical.trans unmarked)
      ((kept "symbols" (by decide) (by decide)).trans symbolsAre)⟩
  | array typeIs unmarked itemsAre inner =>
    exact ⟨_, HasShape.array (keptType.trans typeIs) (keptLogical.trans unmarked)
      ((kept "items" (by decide) (by decide)).trans itemsAre) inner⟩
  | map typeIs unmarked valuesAre inner =>
    exact ⟨_, HasShape.map (keptType.trans typeIs) (keptLogical.trans unmarked)
      ((kept "values" (by decide) (by decide)).trans valuesAre) inner⟩
  | record typeIs unmarked fieldsAre inner =>
    exact ⟨_, HasShape.record (keptType.trans typeIs) (keptLogical.trans unmarked)
      ((kept "fields" (by decide) (by decide)).trans fieldsAre) inner⟩

/-- Whether parsing with the given options looks into a schema, and does not take it over as
parsed. -/
def ParseOptions.looksInto (options : ParseOptions) (schema : Json) : Bool :=
  options.force || options.expand || !schema.has parsedKey

private theorem exists_shape_parseWhole {expand mark : Bool} {draft : Draft}
    (done : parseWhole expand mark schema registry = .ok draft after) (simple : Simple schema)
    (typed : wellTyped schema = true) (registryTyped : RegistryTyped registry) (final : Registry) :
    ∃ shape, HasShape (draft.seal final) shape := by
  unfold parseWhole at done
  split at done
  · simp at done
  · rename_i parsed state parsedDone
    have derivation := parses_of_parseNode parsedDone
    have parsedTyped := (derivation.wellTyped typed registryTyped).1
    obtain ⟨shape, shaped⟩ := derivation.exists_shape simple parsedTyped
    split at done
    · split at done
      · cases done
        exact exists_shape_marked final shaped
      · cases done
        exact exists_shape_marked final shaped
      · cases done
        exact ⟨shape, shaped⟩
    · cases done
      exact ⟨shape, shaped⟩

private theorem exists_shape_parse {options : ParseOptions}
    (done : parse options registry schema = .ok (parsed, after))
    (looked : options.looksInto schema = true) (simple : Simple schema)
    (typed : wellTyped schema = true) (registryTyped : RegistryTyped registry) :
    ∃ shape, HasShape parsed shape := by
  unfold parse at done
  split at done
  · rename_i draft stop draftDone
    cases done
    have whole : parseWhole options.expand options.mark schema registry = .ok draft after := by
      cases schema with
      | obj members =>
        have unmarked : (options.force || options.expand || !Members.has members parsedKey) =
          true := looked
        rw [parseTop, if_pos unmarked] at draftDone
        exact draftDone
      | arr branches => cases simple
      | _ => simpa only [parseTop] using draftDone
    exact exists_shape_parseWhole whole simple typed registryTyped after
  · simp at done

/-- A schema that is the result of parsing one without unions, references and logical types, whose
attributes have the prescribed types. -/
structure SimplyParsed (parsed : Json) : Prop where
  exists_source : ∃ (options : ParseOptions) (registry after : Registry) (schema : Json),
    parse options registry schema = .ok (parsed, after) ∧ options.looksInto schema = true ∧
    Simple schema ∧
      wellTyped schema = true ∧ RegistryTyped registry

theorem SimplyParsed.exists_shape (simply : SimplyParsed parsed) :
    ∃ shape, HasShape parsed shape := by
  obtain ⟨options, registry, after, schema, done, looked, simple, typed, registryTyped⟩ :=
    simply.exists_source
  exact exists_shape_parse done looked simple typed registryTyped

end Avro.Schema
