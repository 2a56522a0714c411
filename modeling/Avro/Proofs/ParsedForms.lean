import Avro.Proofs.FormExistence
import Avro.Proofs.Idempotence

/-!
Contract: the form of a parsed schema tells the registry that parsing leaves.

Owns: `Form.definition?`, the types that a form defines, and `Defines`, the registries that hold
them; that what a well-typed schema is parsed to has a form, and the registry takes just the
definitions of that form; `Form.references`, the names that are looked up in reading; and
`SelfContained`, the schemas whose own definitions are all that is known of these names.

Parsing starts from an empty registry, so a schema without marks is self-contained. A schema that is
marked as parsed is taken with the registry in its mark, which may hold anything.
-/

namespace Avro.Schema

open Members (get? get?_set)

variable {form : Form} {registry : Registry} {schema : Json}

/-! ### Definitions -/

mutual

/-- The type that a form defines under a name; of two the later one. -/
def Form.definition? (name : String) : Form → Option Form
  | .word _ => none
  | .array items => items.definition? name
  | .map values => values.definition? name
  | .enum own symbols => if own = name then some (.enum own symbols) else none
  | .fixed own size => if own = name then some (.fixed own size) else none
  | .record own fields =>
    if own = name then some (.record own fields) else Form.fieldsDefinition? name fields
  | .union branches => Form.branchesDefinition? name branches
termination_by structural form => form

def Form.branchesDefinition? (name : String) : List Form → Option Form
  | [] => none
  | branch :: rest => (Form.branchesDefinition? name rest).or (branch.definition? name)
termination_by structural branches => branches

def Form.fieldsDefinition? (name : String) : List (String × Form) → Option Form
  | [] => none
  | field :: rest => (Form.fieldsDefinition? name rest).or (Form.fieldDefinition? name field)
termination_by structural fields => fields

def Form.fieldDefinition? (name : String) : String × Form → Option Form
  | (_, form) => form.definition? name
termination_by structural field => field

end

/-- What stands under a name before and after its definition, if it has one. -/
inductive Entered : Option Form → Option Json → Option Json → Prop where
  | defined {form : Form} {before : Option Json} {definition : Json}
      (hasForm : HasForm definition form) :
      Entered (some form) before (some definition)
  | kept {found : Option Json} : Entered none found found

/-- A registry takes the given definitions, and keeps its other entries. -/
def Defines (definitions : String → Option Form) (before after : Registry) : Prop :=
  ∀ name, Entered (definitions name) (get? before name) (get? after name)

namespace Defines

variable {first second : String → Option Form} {before between after : Registry}

theorem nothing (registry : Registry) : Defines (fun _ => none) registry registry := fun _ => .kept

theorem andThen (firstDefines : Defines first before between)
    (secondDefines : Defines second between after) :
    Defines (fun name => (second name).or (first name)) before after := by
  intro name
  have later := secondDefines name
  dsimp only
  generalize second name = secondForm at later ⊢
  generalize get? after name = found at later ⊢
  cases later with
  | defined hasForm => exact .defined hasForm
  | kept => exact firstDefines name

/-- A definition that is entered behind those of its parts; what stood under its own name before
does not count. -/
theorem enter {own : String} {definition : Json} {form : Form}
    (others : ∀ name, own ≠ name → Entered (first name) (get? before name) (get? between name))
    (hasForm : HasForm definition form) :
    Defines (fun name => if own = name then some form else first name) before
      (Members.set between own definition) := by
  intro name
  dsimp only
  rw [get?_set]
  by_cases isOwn : own = name
  · rw [if_pos isOwn, if_pos isOwn]
    exact .defined hasForm
  · rw [if_neg isOwn, if_neg isOwn]
    exact others name isOwn

end Defines

/-! ### Forms of parsed schemas -/

section Nodes

variable {members own : Members} {word key entry : String} {name value : Json}
variable {fields : List Json}

/-- The name of a parsed definition is the one under which it is entered. -/
theorem name_eq_entry
    (typed : wellTyped (.obj (commonAttributes members (.str word) ++ ("name", name) :: own)) =
      true)
    (hasNames : hasName word = true) (entryIs : registryName name = .ok entry) :
    name = .str entry := by
  have isText : Schema.isText name = true := by
    have nameTyped := (wellTyped_obj_word typed (get?_type_commonAttributes members _ _)).2
      ("name", name) (by simp)
    simpa [memberWellTyped, hasNames] using nameTyped
  cases name with
  | str text =>
    cases entryIs
    rfl
  | _ => cases isText

theorem exists_form_leaf (isLeaf : (word, key) ∈ [("enum", "symbols"), ("fixed", "size")])
    (typed : wellTyped (.obj (leafMembers members word name key value)) = true)
    (entryIs : registryName name = .ok entry) :
    ∃ form, HasForm (.obj (leafMembers members word name key value)) form ∧
      ∀ other, form.definition? other = if entry = other then some form else none := by
  have typeIs := get?_type_commonAttributes members [("name", name), (key, value)] (.str word)
  have plain := get?_logicalType typed
  rcases Members.mem_pairs.mp isLeaf with ⟨rfl, rfl⟩ | ⟨rfl, rfl⟩
  · obtain rfl := name_eq_entry typed rfl entryIs
    have nameIs : get? (leafMembers members "enum" (.str entry) "symbols" value) "name" =
      some (.str entry) := get?_own (by decide)
    have found : get? (leafMembers members "enum" (.str entry) "symbols" value) "symbols" =
      some value := get?_own (by decide)
    have texts : isTextList value = true := by
      simpa [memberWellTyped] using memberWellTyped_of_get? typed typeIs found
    obtain ⟨symbols, rfl⟩ := exists_texts texts
    exact ⟨.enum entry symbols, .enum typeIs plain nameIs found, fun _ => rfl⟩
  · obtain rfl := name_eq_entry typed rfl entryIs
    have nameIs : get? (leafMembers members "fixed" (.str entry) "size" value) "name" =
      some (.str entry) := get?_own (by decide)
    have found : get? (leafMembers members "fixed" (.str entry) "size" value) "size" = some value :=
      get?_own (by decide)
    have integer : isInteger value = true := by
      simpa [memberWellTyped] using memberWellTyped_of_get? typed typeIs found
    cases value with
    | int size => exact ⟨.fixed entry size, .fixed typeIs plain nameIs found, fun _ => rfl⟩
    | _ => cases integer

/-- A collection has a form if its part has one, and defines what that part defines. -/
theorem exists_form_collection {part : Json} {form : Form}
    (isCollection : (word, key) ∈ [("array", "items"), ("map", "values")])
    (typed : wellTyped (.obj (commonAttributes members (.str word) ++ [(key, part)])) = true)
    (hasForm : HasForm part form) :
    ∃ whole, HasForm (.obj (commonAttributes members (.str word) ++ [(key, part)])) whole ∧
      ∀ other, whole.definition? other = form.definition? other := by
  have typeIs := get?_type_commonAttributes members [(key, part)] (.str word)
  have plain := get?_logicalType typed
  rcases Members.mem_pairs.mp isCollection with ⟨rfl, rfl⟩ | ⟨rfl, rfl⟩
  · exact ⟨.array form, .array typeIs plain (get?_own (by decide)) hasForm, fun _ => rfl⟩
  · exact ⟨.map form, .map typeIs plain (get?_own (by decide)) hasForm, fun _ => rfl⟩

theorem parts_of_record (isRecord : word ∈ ["record", "error"])
    (typed : wellTyped (.obj (recordMembers members word name fields)) = true)
    (entryIs : registryName name = .ok entry) :
    name = .str entry ∧ fieldsWellTyped fields = true := by
  obtain ⟨hasNames, hasParts⟩ := hasName_of_isRecord isRecord
  refine ⟨name_eq_entry typed hasNames entryIs, ?_⟩
  have typeIs := get?_type_commonAttributes members
    [("name", name), ("fields", .arr fields)] (.str word)
  have fieldsTyped := (wellTyped_obj_word typed typeIs).2 ("fields", .arr fields)
    (by simp [recordMembers])
  simpa [memberWellTyped, hasParts, fieldListWellTyped] using fieldsTyped

theorem hasForm_record {forms : List (String × Form)} (isRecord : word ∈ ["record", "error"])
    (typed : wellTyped (.obj (recordMembers members word (.str entry) fields)) = true)
    (haveForms : FieldsHaveForm fields forms) :
    HasForm (.obj (recordMembers members word (.str entry) fields)) (.record entry forms) := by
  exact .record (get?_type_commonAttributes members _ _) isRecord (get?_logicalType typed)
    (get?_own (by decide)) (get?_own (by decide)) haveForms

end Nodes

mutual

/-- What a well-typed node is parsed to has a form, and the registry takes the definitions of that
form. -/
theorem Parses.exists_form {space node parsed : Json} {start stop : ParseState} :
    Parses false space node start parsed stop → Schema.wellTyped parsed = true →
      ∃ form, HasForm parsed form ∧ Defines form.definition? start.registry stop.registry
  | .primitive isPrimitive, _ => by exact ⟨.word _, .word _, .nothing _⟩
  | .reference notPrimitive qualified known kept, _ => by exact ⟨.word _, .word _, .nothing _⟩
  | .expansion _ _ _ expanded _, _ => by simp at expanded
  | .union parts, typed => by
    rw [Schema.wellTyped] at typed
    obtain ⟨forms, haveForms, defines⟩ := parts.exists_forms typed
    exact ⟨.union forms, .union haveForms, defines⟩
  | .primitiveNode typeIs checked isPrimitive, typed => by
    refine ⟨.word _, .primitive ?_ (get?_logicalType typed) isPrimitive, .nothing _⟩
    rw [← List.append_nil (commonAttributes _ _)]
    exact get?_type_commonAttributes _ [] _
  | @Parses.collection _ _ _ part members word key _ _ typeIs checked isCollection under
      inner, typed => by
    have partTyped : Schema.wellTyped part = true := by
      apply (memberWellTyped_collection isCollection).mp
      exact (wellTyped_obj_word typed (get?_type_commonAttributes members _ _)).2 _ (by simp)
    obtain ⟨form, hasForm, defines⟩ := inner.exists_form partTyped
    obtain ⟨whole, wholeHasForm, sameDefinitions⟩ :=
      exists_form_collection isCollection typed hasForm
    refine ⟨whole, wholeHasForm, ?_⟩
    rw [funext sameDefinitions]
    exact defines
  | .leaf typeIs checked isLeaf named entryIs fresh under, typed => by
    obtain ⟨form, hasForm, defined⟩ := exists_form_leaf isLeaf typed entryIs
    refine ⟨form, hasForm, ?_⟩
    rw [funext defined]
    exact Defines.enter (fun _ _ => .kept) hasForm
  | @Parses.record _ _ _ _ members word entry _ fields _ _ typeIs checked isRecord named entryIs
      fresh nodesAre inner, typed => by
    obtain ⟨rfl, fieldsTyped⟩ := parts_of_record isRecord typed entryIs
    obtain ⟨forms, haveForms, partsDefine⟩ := inner.exists_forms fieldsTyped
    have hasForm := hasForm_record isRecord typed haveForms
    refine ⟨.record entry forms, hasForm, Defines.enter (fun name other => ?_) hasForm⟩
    have inside := partsDefine name
    rwa [ParseState.enter, get?_set, if_neg other] at inside

theorem ParsesBranches.exists_forms {space : Json} {branches parsed : List Json}
    {start stop : ParseState} :
    ParsesBranches false space branches start parsed stop → branchesWellTyped parsed = true →
      ∃ forms, BranchesHaveForm parsed forms ∧
        Defines (fun name => Form.branchesDefinition? name forms) start.registry stop.registry
  | .nil, _ => by exact ⟨[], .nil, .nothing _⟩
  | .cons first others, typed => by
    rw [branchesWellTyped, Bool.and_eq_true] at typed
    obtain ⟨form, hasForm, defines⟩ := first.exists_form typed.1
    obtain ⟨forms, haveForms, othersDefine⟩ := others.exists_forms typed.2
    exact ⟨form :: forms, .cons hasForm haveForms, defines.andThen othersDefine⟩

theorem ParsesFields.exists_forms {space : Json} {nodes parsed : List Json}
    {start stop : ParseState} :
    ParsesFields false space nodes start parsed stop → fieldsWellTyped parsed = true →
      ∃ fields, FieldsHaveForm parsed fields ∧
        Defines (fun name => Form.fieldsDefinition? name fields) start.registry stop.registry
  | .nil, _ => by exact ⟨[], .nil, .nothing _⟩
  | @ParsesFields.cons _ _ name _ type members _ _ _ _ _ listed named under inner others, typed =>
    by
    rw [fieldsWellTyped, Bool.and_eq_true] at typed
    have membersTyped := fieldMembersWellTyped_iff.mp typed.1
    have nameFound : get? (fieldMembers members name type) "name" = some name :=
      get?_fieldMembers members name type (by decide)
    have typeFound : get? (fieldMembers members name type) "type" = some type :=
      get?_fieldMembers members name type (by decide)
    have nameTyped : isText name = true := membersTyped _ (Members.mem_of_get? nameFound)
    have typeTyped := fieldMemberWellTyped_type.mp (membersTyped _ (Members.mem_of_get? typeFound))
    obtain ⟨form, hasForm, defines⟩ := inner.exists_form typeTyped
    obtain ⟨fields, haveForms, othersDefine⟩ := others.exists_forms typed.2
    cases name with
    | str text =>
      exact ⟨(text, form) :: fields, .cons nameFound typeFound hasForm haveForms,
        defines.andThen othersDefine⟩
    | _ => cases nameTyped

end

/-! ### Marks -/

theorem HasForm.of_get? {members others : Members} (hasForm : HasForm (.obj members) form)
    (same : ∀ key, key ∉ marks → get? others key = get? members key) :
    HasForm (.obj others) form := by
  have typeSame := same "type" (by decide)
  have logicalSame := same "logicalType" (by decide)
  have nameSame := same "name" (by decide)
  cases hasForm with
  | primitive typeIs plain isPrimitive =>
    exact .primitive (typeSame.trans typeIs) (logicalSame.trans plain) isPrimitive
  | array typeIs plain itemsAre inner =>
    exact .array (typeSame.trans typeIs) (logicalSame.trans plain)
      ((same "items" (by decide)).trans itemsAre) inner
  | map typeIs plain valuesAre inner =>
    exact .map (typeSame.trans typeIs) (logicalSame.trans plain)
      ((same "values" (by decide)).trans valuesAre) inner
  | enum typeIs plain nameIs symbolsAre =>
    exact .enum (typeSame.trans typeIs) (logicalSame.trans plain) (nameSame.trans nameIs)
      ((same "symbols" (by decide)).trans symbolsAre)
  | fixed typeIs plain nameIs sizeIs =>
    exact .fixed (typeSame.trans typeIs) (logicalSame.trans plain) (nameSame.trans nameIs)
      ((same "size" (by decide)).trans sizeIs)
  | record typeIs isRecord plain nameIs fieldsAre inner =>
    exact .record (typeSame.trans typeIs) isRecord (logicalSame.trans plain) (nameSame.trans nameIs)
      ((same "fields" (by decide)).trans fieldsAre) inner

mutual

theorem HasForm.marked (registry : Registry) {form : Form} :
    ∀ node : Json, HasForm node form → HasForm (marked registry node) form
  | .arr branches, hasForm => by
    cases hasForm with
    | union inner =>
      rw [Schema.marked]
      exact .union (BranchesHaveForm.marked registry branches inner)
  | .obj members, hasForm => by
    rcases marked_obj_cases members with isSealed | isKept
    · rw [isSealed registry]
      exact hasForm.of_get? fun key notMark => get?_sealed members registry notMark
    · rw [isKept registry]
      exact hasForm
  | .str text, hasForm => by exact hasForm
  | .null, hasForm | .bool _, hasForm | .int _, hasForm | .float _, hasForm => by cases hasForm
termination_by structural node => node

theorem BranchesHaveForm.marked (registry : Registry) {forms : List Form} :
    ∀ branches : List Json, BranchesHaveForm branches forms →
    BranchesHaveForm (markedBranches registry branches) forms
  | [], haveForms => by
    cases haveForms
    exact .nil
  | branch :: rest, haveForms => by
    cases haveForms with
    | cons first others =>
      rw [markedBranches]
      exact .cons (HasForm.marked registry branch first)
        (BranchesHaveForm.marked registry rest others)
termination_by structural branches => branches

end

mutual

theorem ParsesApart.exists_form {schema plain : Json} {before after : Registry} :
    ParsesApart schema before plain after →
    wellTyped schema = true → RegistryTyped before →
      (∃ form, HasForm plain form ∧ Defines form.definition? before after) ∧ RegistryTyped after
  | .node notUnion derivation, typed, registryTyped => by
    obtain ⟨plainTyped, afterTyped⟩ := derivation.wellTyped typed registryTyped
    exact ⟨derivation.exists_form plainTyped, afterTyped⟩
  | .union parts, typed, registryTyped => by
    rw [wellTyped] at typed
    obtain ⟨⟨forms, haveForms, defines⟩, afterTyped⟩ := parts.exists_forms typed registryTyped
    exact ⟨⟨.union forms, .union haveForms, defines⟩, afterTyped⟩

theorem BranchesApart.exists_forms {branches parsed : List Json} {before after : Registry} :
    BranchesApart branches before parsed after → branchesWellTyped branches = true →
    RegistryTyped before →
      (∃ forms, BranchesHaveForm parsed forms ∧
        Defines (fun name => Form.branchesDefinition? name forms) before after) ∧
        RegistryTyped after
  | .nil, _, registryTyped => by exact ⟨⟨[], .nil, .nothing _⟩, registryTyped⟩
  | .cons first others, typed, registryTyped => by
    rw [branchesWellTyped, Bool.and_eq_true] at typed
    obtain ⟨⟨form, hasForm, defines⟩, betweenTyped⟩ := first.exists_form typed.1 registryTyped
    obtain ⟨⟨forms, haveForms, othersDefine⟩, afterTyped⟩ :=
      others.exists_forms typed.2 betweenTyped
    exact ⟨⟨form :: forms, .cons hasForm haveForms, defines.andThen othersDefine⟩, afterTyped⟩

end

/-! ### References -/

/-- The names that are looked up for a word. A word for unions is taken for the union of its
letters; the words of the other built-in types are not looked up. -/
def Form.wordReferences (word : String) : List String :=
  match Kind.ofName word with
  | .named name => [name]
  | .union => word.toList.map fun letter => String.ofList [letter]
  | .errorUnion => word.toList.map fun letter => String.ofList [letter]
  | _ => []

mutual

/-- The names that are looked up in reading by a form. -/
def Form.references : Form → List String
  | .word name => Form.wordReferences name
  | .array items => items.references
  | .map values => values.references
  | .enum _ _ => []
  | .fixed _ _ => []
  | .record _ fields => Form.fieldReferences fields
  | .union branches => Form.branchReferences branches
termination_by structural form => form

def Form.branchReferences : List Form → List String
  | [] => []
  | branch :: rest => branch.references ++ Form.branchReferences rest
termination_by structural branches => branches

def Form.fieldReferences : List (String × Form) → List String
  | [] => []
  | field :: rest => Form.typeReferences field ++ Form.fieldReferences rest
termination_by structural fields => fields

def Form.typeReferences : String × Form → List String
  | (_, form) => form.references
termination_by structural field => field

end

mutual

/-- A type that is defined within a form looks up no other names than the form. -/
theorem Form.references_subset {name : String} {found : Form} :
    ∀ form : Form, form.definition? name = some found →
    found.references ⊆ form.references
  | .word _, isFound => by cases isFound
  | .array items, isFound => by exact Form.references_subset items isFound
  | .map values, isFound => by exact Form.references_subset values isFound
  | .enum own symbols, isFound => by
    rw [definition?] at isFound
    split at isFound
    · cases isFound
      exact List.Subset.refl _
    · cases isFound
  | .fixed own size, isFound => by
    rw [definition?] at isFound
    split at isFound
    · cases isFound
      exact List.Subset.refl _
    · cases isFound
  | .record own fields, isFound => by
    rw [definition?] at isFound
    split at isFound
    · cases isFound
      exact List.Subset.refl _
    · exact Form.references_subset_fields fields isFound
  | .union branches, isFound => by exact Form.references_subset_branches branches isFound
termination_by structural form => form

theorem Form.references_subset_branches {name : String} {found : Form} : ∀ branches : List Form,
    branchesDefinition? name branches = some found → found.references ⊆ branchReferences branches
  | [], isFound => by cases isFound
  | branch :: rest, isFound => by
    rw [branchesDefinition?, Option.or_eq_some_iff] at isFound
    rw [branchReferences]
    rcases isFound with inRest | ⟨-, isFirst⟩
    · exact List.subset_append_of_subset_right _ (Form.references_subset_branches rest inRest)
    · exact List.subset_append_of_subset_left _ (Form.references_subset branch isFirst)
termination_by structural branches => branches

theorem Form.references_subset_fields {name : String} {found : Form} :
    ∀ fields : List (String × Form),
    fieldsDefinition? name fields = some found → found.references ⊆ fieldReferences fields
  | [], isFound => by cases isFound
  | field :: rest, isFound => by
    rw [fieldsDefinition?, Option.or_eq_some_iff] at isFound
    rw [fieldReferences]
    rcases isFound with inRest | ⟨-, isFirst⟩
    · exact List.subset_append_of_subset_right _ (Form.references_subset_fields rest inRest)
    · exact List.subset_append_of_subset_left _ (Form.references_subset_field field isFirst)
termination_by structural fields => fields

theorem Form.references_subset_field {name : String} {found : Form} : ∀ field : String × Form,
    fieldDefinition? name field = some found → found.references ⊆ typeReferences field
  | (_, form), isFound => by exact Form.references_subset form isFound
termination_by structural field => field

end

/-- A registry has under every name that a form looks up what the form itself defines under it. -/
def Grounded (registry : Registry) (form : Form) : Prop :=
  ∀ name ∈ form.references, Option.Rel HasForm (get? registry name) (form.definition? name)

theorem Defines.grounded (defines : Defines form.definition? [] registry) :
    Grounded registry form := by
  intro name _
  have entered : Entered (form.definition? name) none (get? registry name) := defines name
  generalize form.definition? name = definition at entered ⊢
  generalize get? registry name = found at entered ⊢
  cases entered with
  | defined hasForm => exact .some hasForm
  | kept => exact .none

/-- A schema has no other definitions than its own for the names that it uses. -/
def SelfContained (schema : Json) : Prop :=
  ∀ ⦃parsed : Json⦄ ⦃registry : Registry⦄ ⦃form : Form⦄,
    parse {} [] schema = .ok (parsed, registry) → HasForm parsed form →
    Grounded registry form

theorem selfContained_of_unmarked (typed : wellTyped schema = true)
    (plainly : unmarked schema = true) : SelfContained schema := by
  intro parsed registry form parses hasForm
  obtain ⟨plain, apart, rfl⟩ := (parse_unmarked_iff plainly).mp parses
  obtain ⟨⟨own, hasOwn, defines⟩, -⟩ := apart.exists_form typed (by simp [RegistryTyped])
  obtain rfl := (hasOwn.marked registry plain).unique form hasForm
  exact defines.grounded

/-- The marks that parsing gives to a schema hold its own definitions. -/
theorem SelfContained.parsed {parsed : Json} (own : SelfContained schema)
    (parses : parse {} [] schema = .ok (parsed, registry)) : SelfContained parsed := by
  intro again known form parsesAgain hasForm
  rw [parse_parse parses] at parsesAgain
  cases parsesAgain
  exact own parses hasForm

end Avro.Schema
