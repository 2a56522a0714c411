import Avro.Logical
import Avro.Proofs.Parsing

/-!
Contract: schemas whose attributes have the JSON types that the format prescribes, and that have no
logical types.

Owns: `Schema.wellTyped`, a check of a document at the places where schemas stand, and its
preservation by parsing: a parsed schema and all definitions of its registry are well typed if the
schema is.

Attributes without a meaning of their own, documentation, aliases and defaults may be any documents.
A schema that is marked as parsed is taken with its registry, so the definitions in a mark are
checked as well.
-/

namespace Avro.Schema

variable {members : Members} {word : String} {fields : List Json}

/-- The words that an object may have as its type. -/
def typeWords : List String :=
  primitiveNames ++ ["fixed", "enum", "array", "map", "record", "error"]

def isText : Json → Bool
  | .str _ => true
  | _ => false

def isInteger : Json → Bool
  | .int _ => true
  | _ => false

def isTextList : Json → Bool
  | .arr items => items.all isText
  | _ => false

def hasFields (word : String) : Bool := word == "record" || word == "error"

def hasName (word : String) : Bool := hasFields word || word == "enum" || word == "fixed"

mutual

/-- Whether a document is a schema whose attributes have the prescribed types, without a logical
type. -/
def wellTyped : Json → Bool
  | .str _ => true
  | .arr branches => branchesWellTyped branches
  | .obj members =>
    match Members.get? members "type" with
    | some (.str word) => typeWords.contains word && membersWellTyped word members
    | _ => false
  | _ => false
termination_by structural schema => schema

def branchesWellTyped : List Json → Bool
  | [] => true
  | branch :: rest => wellTyped branch && branchesWellTyped rest
termination_by structural branches => branches

/-- Checks the attributes of a node whose type is the given word. -/
def membersWellTyped (word : String) : List (String × Json) → Bool
  | [] => true
  | member :: rest => memberWellTyped word member && membersWellTyped word rest
termination_by structural members => members

/-- What is asked of one attribute of a node whose type is the given word. -/
def memberWellTyped (word : String) : String × Json → Bool
  | (key, value) =>
    if key = "logicalType" then false
    else if key = "name" || key = "namespace" then !hasName word || isText value
    else if key = "symbols" then word != "enum" || isTextList value
    else if key = "size" then word != "fixed" || isInteger value
    else if key = "items" then word != "array" || wellTyped value
    else if key = "values" then word != "map" || wellTyped value
    else if key = "fields" then !hasFields word || fieldListWellTyped value
    else if key = registryKey then registryWellTyped value
    else true
termination_by structural member => member

/-- The fields of a node are an array of objects. -/
def fieldListWellTyped : Json → Bool
  | .arr fields => fieldsWellTyped fields
  | _ => false
termination_by structural value => value

def fieldsWellTyped : List Json → Bool
  | [] => true
  | field :: rest => fieldWellTyped field && fieldsWellTyped rest
termination_by structural fields => fields

def fieldWellTyped : Json → Bool
  | .obj members => fieldMembersWellTyped members
  | _ => false
termination_by structural field => field

def fieldMembersWellTyped : List (String × Json) → Bool
  | [] => true
  | member :: rest => fieldMemberWellTyped member && fieldMembersWellTyped rest
termination_by structural members => members

def fieldMemberWellTyped : String × Json → Bool
  | (key, value) =>
    if key = "name" then isText value else if key = "type" then wellTyped value else true
termination_by structural member => member

/-- The registry in a mark, if it is one, holds definitions. -/
def registryWellTyped : Json → Bool
  | .obj entries => entriesWellTyped entries
  | _ => true
termination_by structural value => value

def entriesWellTyped : List (String × Json) → Bool
  | [] => true
  | entry :: rest => entryWellTyped entry && entriesWellTyped rest
termination_by structural entries => entries

def entryWellTyped : String × Json → Bool
  | (_, definition) => wellTyped definition
termination_by structural entry => entry

end

theorem branchesWellTyped_iff {branches : List Json} :
    branchesWellTyped branches = true ↔ ∀ branch ∈ branches, wellTyped branch = true := by
  induction branches with
  | nil => simp [branchesWellTyped]
  | cons branch rest ih => simp [branchesWellTyped, ih]

theorem membersWellTyped_iff :
    membersWellTyped word members = true ↔
    ∀ member ∈ members, memberWellTyped word member = true := by
  induction members with
  | nil => simp [membersWellTyped]
  | cons member rest ih =>
    rw [membersWellTyped, Bool.and_eq_true, ih, List.forall_mem_cons]

theorem fieldsWellTyped_iff :
    fieldsWellTyped fields = true ↔ ∀ field ∈ fields, fieldWellTyped field = true := by
  induction fields with
  | nil => simp [fieldsWellTyped]
  | cons field rest ih => simp [fieldsWellTyped, ih]

theorem fieldMembersWellTyped_iff :
    fieldMembersWellTyped members = true ↔
    ∀ member ∈ members, fieldMemberWellTyped member = true := by
  induction members with
  | nil => simp [fieldMembersWellTyped]
  | cons member rest ih =>
    rw [fieldMembersWellTyped, Bool.and_eq_true, ih, List.forall_mem_cons]

theorem entriesWellTyped_iff {entries : Members} :
    entriesWellTyped entries = true ↔ ∀ entry ∈ entries, wellTyped entry.2 = true := by
  induction entries with
  | nil => simp [entriesWellTyped]
  | cons entry rest ih =>
    obtain ⟨name, definition⟩ := entry
    simp [entriesWellTyped, entryWellTyped, ih]

end Avro.Schema

/-! ### The word of a kind -/

namespace Avro

open Members (get? get?_append get?_set mem_of_get? mem_set)

def Kind.word : Kind → String
  | null => "null"
  | boolean => "boolean"
  | string => "string"
  | int => "int"
  | long => "long"
  | float => "float"
  | double => "double"
  | bytes => "bytes"
  | fixed => "fixed"
  | enum => "enum"
  | array => "array"
  | map => "map"
  | union => "union"
  | errorUnion => "error_union"
  | record => "record"
  | error => "error"
  | request => "request"
  | named name => name
  | foreign _ => ""

/-- The kind of a name keeps the name. -/
theorem Kind.word_ofName (name : String) : (Kind.ofName name).word = name := by
  unfold Kind.ofName
  split <;> rfl

namespace Schema

variable {members : Members} {key : String} {kind : Kind}
  {schema value space innerSpace name node : Json} {member : String × Json}
  {registry after : Registry} {draft : Draft}

/-- An object is well-typed if its type is a known word and each of its attributes fits that word.
-/
theorem wellTyped_obj_iff :
    wellTyped (.obj members) = true ↔
      ∃ word, get? members "type" = some (.str word) ∧ word ∈ typeWords ∧
        ∀ member ∈ members, memberWellTyped word member = true := by
  rw [wellTyped]
  constructor
  · intro typed
    split at typed
    · rename_i word found
      rw [Bool.and_eq_true, List.contains_iff_mem, membersWellTyped_iff] at typed
      exact ⟨word, found, typed.1, typed.2⟩
    · exact absurd typed (by decide)
  · rintro ⟨word, found, isWord, typed⟩
    rw [found]
    simp only [Bool.and_eq_true, List.contains_iff_mem, membersWellTyped_iff]
    exact ⟨isWord, typed⟩

theorem resolve_ok {registry : Registry} {name : String} {definition : Json} :
    resolve registry name = .ok definition ↔ Members.get? registry name = some definition := by
  unfold resolve
  cases Members.get? registry name with
  | none => simp
  | some found => simp

theorem kindOf_obj (found : get? members "type" = some (.str word)) :
    kindOf (.obj members) = .ok (Kind.ofName word) := by
  simp [kindOf, typeOf, required, found, Kind.ofType]

section

attribute [local simp] memberWellTyped Kind.word

variable (typed : wellTyped schema = true)
include typed

/-- An attribute of a well-typed node has the type that is asked of it by the kind of the node. -/
theorem memberWellTyped_of_attributeOf (kindIs : kindOf schema = .ok kind)
    (present : attributeOf schema key = .ok value) :
    memberWellTyped kind.word (key, value) = true := by
  cases schema with
  | obj members =>
    obtain ⟨word, found, -, membersTyped⟩ := wellTyped_obj_iff.mp typed
    rw [kindOf_obj found] at kindIs
    cases kindIs
    rw [Kind.word_ofName]
    simp only [attributeOf, required] at present
    split at present
    · rename_i isMember
      cases present
      exact membersTyped _ (mem_of_get? isMember)
    · simp at present
  | _ => simp [attributeOf] at present

theorem wellTyped_items {items : Json} (kindIs : kindOf schema = .ok .array)
    (present : attributeOf schema "items" = .ok items) : wellTyped items = true := by
  simpa using memberWellTyped_of_attributeOf typed kindIs present

theorem wellTyped_values {values : Json} (kindIs : kindOf schema = .ok .map)
    (present : attributeOf schema "values" = .ok values) : wellTyped values = true := by
  simpa using memberWellTyped_of_attributeOf typed kindIs present

theorem isTextList_symbols {symbols : Json} (kindIs : kindOf schema = .ok .enum)
    (present : attributeOf schema "symbols" = .ok symbols) : isTextList symbols = true := by
  simpa using memberWellTyped_of_attributeOf typed kindIs present

theorem isInteger_size {size : Json} (kindIs : kindOf schema = .ok .fixed)
    (present : attributeOf schema "size" = .ok size) : isInteger size = true := by
  simpa using memberWellTyped_of_attributeOf typed kindIs present

theorem fieldListWellTyped_fields {fields : Json} (kindIs : kindOf schema = .ok kind)
    (fielded : hasFields kind.word = true) (present : attributeOf schema "fields" = .ok fields) :
    fieldListWellTyped fields = true := by
  simpa [-Kind.word, fielded] using memberWellTyped_of_attributeOf typed kindIs present

end

/-! ### Preservation by parsing -/

theorem mem_commonAttributes {type : Json} (isMember : member ∈ commonAttributes members type) :
    member = ("type", type) ∨ member ∈ members := by
  unfold commonAttributes at isMember
  rw [List.mem_append, List.mem_append, List.mem_filter, List.mem_singleton] at isMember
  rcases isMember with (⟨isMember, -⟩ | isType) | isDoc
  · exact Or.inr isMember
  · exact Or.inl isType
  · split at isDoc
    · rename_i doc found
      rw [List.mem_singleton.mp isDoc]
      exact Or.inr (mem_of_get? found)
    · simp at isDoc

/-- The attributes that a parse keeps start with the type that it found. -/
theorem get?_type_commonAttributes (members others : Members) (type : Json) :
    get? (commonAttributes members type ++ others) "type" = some type := by
  unfold commonAttributes
  rw [get?_append, get?_append, get?_append,
    Members.get?_filter (fun key => !reservedAttributes.contains key), if_neg (by decide)]
  rfl

/-- A node is well typed if its common part comes from well-typed attributes and the others are well
typed. -/
theorem wellTyped_common {others : Members} (isWord : word ∈ typeWords)
    (typed : ∀ member ∈ members, memberWellTyped word member = true)
    (othersTyped : ∀ member ∈ others, memberWellTyped word member = true) :
    wellTyped (.obj (commonAttributes members (.str word) ++ others)) = true := by
  refine wellTyped_obj_iff.mpr ⟨word, get?_type_commonAttributes members others _, isWord, ?_⟩
  intro member isMember
  rcases List.mem_append.mp isMember with inCommon | inOthers
  · rcases mem_commonAttributes inCommon with rfl | given
    · simp [memberWellTyped, registryKey]
    · exact typed member given
  · exact othersTyped member inOthers

theorem wellTyped_definition {first second : String × Json} (isWord : word ∈ typeWords)
    (typed : ∀ member ∈ members, memberWellTyped word member = true)
    (firstTyped : memberWellTyped word first = true)
    (secondTyped : memberWellTyped word second = true) :
    wellTyped (.obj (commonAttributes members (.str word) ++ [first, second])) = true := by
  apply wellTyped_common isWord typed
  intro member isMember
  simp only [List.mem_cons, List.not_mem_nil, or_false] at isMember
  rcases isMember with rfl | rfl
  · exact firstTyped
  · exact secondTyped

theorem isText_qualifiedName (named : qualifiedName (.obj members) space = .ok (innerSpace, name))
    (typed : ∀ given, get? members "name" = some given → isText given = true) :
    isText name = true := by
  simp only [qualifiedName] at named
  cases found : get? members "name" with
  | none => simp [found] at named
  | some given =>
    have givenText := typed given found
    simp only [found] at named
    split at named
    · cases named
      exact givenText
    · split at named
      · simp at named
      · cases named
        exact givenText
      · cases named
        rfl

def RegistryTyped (registry : Registry) : Prop := ∀ entry ∈ registry, wellTyped entry.2 = true

theorem RegistryTyped.set {registry : Registry} {entry : String} {definition : Json}
    (typed : RegistryTyped registry) (definitionTyped : wellTyped definition = true) :
    RegistryTyped (Members.set registry entry definition) := by
  intro member isMember
  rcases mem_set isMember with rfl | isOld
  · exact definitionTyped
  · exact typed member isOld

/-- What is asked of the attributes of a node whose type is found to be a word. -/
theorem wellTyped_obj_word (typed : wellTyped (.obj members) = true)
    (typeIs : get? members "type" = some (.str word)) :
    word ∈ typeWords ∧ ∀ member ∈ members, memberWellTyped word member = true := by
  obtain ⟨found, foundIs, isWord, membersTyped⟩ := wellTyped_obj_iff.mp typed
  rw [typeIs] at foundIs
  cases foundIs
  exact ⟨isWord, membersTyped⟩

theorem memberWellTyped_of_get? (typed : Schema.wellTyped (.obj members) = true)
    (typeIs : get? members "type" = some (.str word)) (found : get? members key = some value) :
    memberWellTyped word (key, value) = true :=
  (wellTyped_obj_word typed typeIs).2 _ (mem_of_get? found)

/-- A well-typed schema has no logical type. -/
theorem get?_logicalType (typed : wellTyped (.obj members) = true) :
    get? members "logicalType" = none := by
  obtain ⟨word, -, -, membersTyped⟩ := wellTyped_obj_iff.mp typed
  cases found : get? members "logicalType" with
  | none => rfl
  | some value => exact absurd (membersTyped _ (mem_of_get? found)) (by simp [memberWellTyped])

/-- The part of a collection is well-typed like a schema. -/
theorem memberWellTyped_collection
    (isCollection : (word, key) ∈ [("array", "items"), ("map", "values")]) :
    memberWellTyped word (key, node) = true ↔ wellTyped node = true := by
  rcases Members.mem_pairs.mp isCollection with ⟨rfl, rfl⟩ | ⟨rfl, rfl⟩
  · simp [memberWellTyped]
  · simp [memberWellTyped]

theorem memberWellTyped_qualifiedName
    (typed : ∀ member ∈ members, memberWellTyped word member = true)
    (named : qualifiedName (.obj members) space = .ok (innerSpace, name)) :
    memberWellTyped word ("name", name) = true := by
  by_cases hasNames : hasName word = true
  · have nameTyped : isText name = true := by
      apply isText_qualifiedName named
      intro given found
      simpa [memberWellTyped, hasNames] using typed _ (mem_of_get? found)
    simp [memberWellTyped, nameTyped]
  · simp [memberWellTyped, hasNames]

theorem fieldsWellTyped_nodes {nodes : List Json} (isRecord : word ∈ ["record", "error"])
    (typed : ∀ member ∈ members, memberWellTyped word member = true)
    (nodesAre : fieldNodes? members = some nodes) : fieldsWellTyped nodes = true := by
  rcases fieldNodes?_eq_some nodesAre with rfl | found
  · rfl
  · have fielded : hasFields word = true := by simpa [hasFields] using isRecord
    simpa [memberWellTyped, fielded, fieldListWellTyped] using typed _ (mem_of_get? found)

theorem memberWellTyped_fields (typed : fieldsWellTyped fields = true) :
    memberWellTyped word ("fields", .arr fields) = true := by
  simp [memberWellTyped, fieldListWellTyped, typed]

theorem fieldMemberWellTyped_type :
    fieldMemberWellTyped ("type", node) = true ↔ wellTyped node = true := by
  simp [fieldMemberWellTyped]

theorem mem_commonFieldAttributes (isMember : member ∈ commonFieldAttributes members) :
    member ∈ members := by
  unfold commonFieldAttributes at isMember
  rcases List.mem_append.mp isMember with kept | special
  · exact (List.mem_filter.mp kept).1
  · obtain ⟨key, -, found⟩ := List.mem_filterMap.mp special
    obtain ⟨value, present, rfl⟩ := Option.map_eq_some_iff.mp found
    exact mem_of_get? present

mutual

theorem Parses.wellTyped {expand : Bool} {space node parsed : Json} {start stop : ParseState} :
    Parses expand space node start parsed stop → Schema.wellTyped node = true →
    RegistryTyped start.registry →
      Schema.wellTyped parsed = true ∧ RegistryTyped stop.registry
  | .primitive isPrimitive, typed, startTyped => by exact ⟨typed, startTyped⟩
  | .reference notPrimitive qualified known kept, typed, startTyped => by exact ⟨rfl, startTyped⟩
  | .expansion notPrimitive qualified known expanded complete, typed, startTyped => by
    exact ⟨startTyped _ (mem_of_get? known), startTyped⟩
  | .union parts, typed, startTyped => by
    rw [Schema.wellTyped] at typed ⊢
    exact parts.wellTyped typed startTyped
  | .primitiveNode typeIs checked isPrimitive, typed, startTyped => by
    obtain ⟨isWord, membersTyped⟩ := wellTyped_obj_word typed typeIs
    refine ⟨?_, startTyped⟩
    rw [← List.append_nil (commonAttributes _ _)]
    exact wellTyped_common isWord membersTyped (by simp)
  | .collection typeIs checked isCollection under inner, typed, startTyped => by
    obtain ⟨isWord, membersTyped⟩ := wellTyped_obj_word typed typeIs
    have underTyped := membersTyped _ (mem_of_get? under)
    have nodeTyped := (memberWellTyped_collection isCollection).mp underTyped
    obtain ⟨partTyped, stopTyped⟩ := inner.wellTyped nodeTyped startTyped
    refine ⟨wellTyped_common isWord membersTyped ?_, stopTyped⟩
    simpa using (memberWellTyped_collection isCollection).mpr partTyped
  | .leaf typeIs checked isLeaf named entryIs fresh under, typed, startTyped => by
    obtain ⟨isWord, membersTyped⟩ := wellTyped_obj_word typed typeIs
    have underTyped := membersTyped _ (mem_of_get? under)
    have nameTyped := memberWellTyped_qualifiedName membersTyped named
    have leafTyped := wellTyped_definition isWord membersTyped nameTyped underTyped
    exact ⟨leafTyped, startTyped.set leafTyped⟩
  | .record typeIs checked isRecord named entryIs fresh nodesAre inner, typed, startTyped => by
    obtain ⟨isWord, membersTyped⟩ := wellTyped_obj_word typed typeIs
    have nameTyped := memberWellTyped_qualifiedName membersTyped named
    have commonTyped := wellTyped_common isWord membersTyped (List.forall_mem_nil _)
    rw [List.append_nil] at commonTyped
    have nodesTyped := fieldsWellTyped_nodes isRecord membersTyped nodesAre
    obtain ⟨fieldsTyped, stopTyped⟩ := inner.wellTyped nodesTyped (startTyped.set commonTyped)
    have recordTyped := wellTyped_definition isWord membersTyped nameTyped
      (memberWellTyped_fields fieldsTyped)
    exact ⟨recordTyped, stopTyped.set recordTyped⟩

theorem ParsesBranches.wellTyped {expand : Bool} {space : Json} {branches parsed : List Json}
    {start stop : ParseState} :
    ParsesBranches expand space branches start parsed stop → branchesWellTyped branches = true →
    RegistryTyped start.registry →
      branchesWellTyped parsed = true ∧ RegistryTyped stop.registry
  | .nil, typed, startTyped => by exact ⟨rfl, startTyped⟩
  | .cons first others, typed, startTyped => by
    rw [branchesWellTyped, Bool.and_eq_true] at typed ⊢
    obtain ⟨firstTyped, betweenTyped⟩ := first.wellTyped typed.1 startTyped
    obtain ⟨othersTyped, stopTyped⟩ := others.wellTyped typed.2 betweenTyped
    exact ⟨⟨firstTyped, othersTyped⟩, stopTyped⟩

theorem ParsesFields.wellTyped {expand : Bool} {space : Json} {fields parsed : List Json}
    {start stop : ParseState} :
    ParsesFields expand space fields start parsed stop → fieldsWellTyped fields = true →
    RegistryTyped start.registry →
      fieldsWellTyped parsed = true ∧ RegistryTyped stop.registry
  | .nil, typed, startTyped => by exact ⟨rfl, startTyped⟩
  | .cons listed named under inner others, typed, startTyped => by
    rw [fieldsWellTyped, Bool.and_eq_true] at typed ⊢
    have membersTyped := fieldMembersWellTyped_iff.mp typed.1
    have nodeTyped := fieldMemberWellTyped_type.mp (membersTyped _ (mem_of_get? under))
    obtain ⟨typeTyped, betweenTyped⟩ := inner.wellTyped nodeTyped startTyped
    obtain ⟨othersTyped, stopTyped⟩ := others.wellTyped typed.2 betweenTyped
    refine ⟨⟨fieldMembersWellTyped_iff.mpr ?_, othersTyped⟩, stopTyped⟩
    intro member isMember
    rcases List.mem_append.mp isMember with inCommon | inOthers
    · exact membersTyped member (mem_commonFieldAttributes inCommon)
    · have nameTyped := membersTyped _ (mem_of_get? named)
      simp at inOthers
      rcases inOthers with rfl | rfl
      · exact nameTyped
      · exact fieldMemberWellTyped_type.mpr typeTyped

end

private theorem wellTyped_marked (typed : wellTyped (.obj members) = true)
    (registryTyped : RegistryTyped registry) :
    wellTyped ((Draft.marked members).seal registry) = true := by
  obtain ⟨word, typeIs, isWord, membersTyped⟩ := wellTyped_obj_iff.mp typed
  refine wellTyped_obj_iff.mpr ⟨word, ?_, isWord, ?_⟩
  · rw [get?_set, if_neg (by decide), get?_set, if_neg (by decide)]
    exact typeIs
  · intro member isMember
    rcases mem_set isMember with rfl | isMember
    · simpa [memberWellTyped, registryKey, registryWellTyped] using entriesWellTyped_iff.mpr
        registryTyped
    · rcases mem_set isMember with rfl | isMember
      · simp [memberWellTyped, parsedKey, registryKey]
      · exact membersTyped member isMember

/-- A draft is well typed if sealing it with any well-typed registry gives a well-typed schema. -/
def Draft.WellTyped (draft : Draft) : Prop :=
  ∀ registry, RegistryTyped registry → Schema.wellTyped (draft.seal registry) = true

private theorem wellTyped_parseWhole {expand mark : Bool}
    (done : parseWhole expand mark schema registry = .ok draft after)
    (typed : wellTyped schema = true) (registryTyped : RegistryTyped registry) :
    draft.WellTyped ∧ RegistryTyped after := by
  unfold parseWhole at done
  split at done
  · simp at done
  · rename_i parsed state parsedDone
    obtain ⟨parsedTyped, stopTyped⟩ :=
      (parses_of_parseNode parsedDone).wellTyped typed registryTyped
    split at done
    · split at done
      · cases done
        exact ⟨fun _ => wellTyped_marked parsedTyped, stopTyped⟩
      · cases done
        exact ⟨fun _ => wellTyped_marked parsedTyped, stopTyped⟩
      · cases done
        exact ⟨fun _ _ => parsedTyped, stopTyped⟩
    · cases done
      exact ⟨fun _ _ => parsedTyped, stopTyped⟩

private theorem wellTyped_adopt (done : adopt members registry = .ok draft after)
    (typed : wellTyped (.obj members) = true) (registryTyped : RegistryTyped registry) :
    draft.WellTyped ∧ RegistryTyped after := by
  unfold adopt at done
  split at done
  · simp at done
  · rename_i entries found
    cases done
    refine ⟨fun _ _ => typed, ?_⟩
    obtain ⟨word, -, -, membersTyped⟩ := wellTyped_obj_iff.mp typed
    have entriesTyped : RegistryTyped entries := by
      have markTyped := membersTyped _ (mem_of_get? found)
      apply entriesWellTyped_iff.mp
      simpa [memberWellTyped, registryKey, registryWellTyped] using markTyped
    intro entry isMember
    rcases Members.mem_union isMember with isOld | isNew
    · exact registryTyped entry isOld
    · exact entriesTyped entry isNew
  · simp at done

theorem Draft.wellTyped_branches {drafts : List Draft} (typed : ∀ draft ∈ drafts, draft.WellTyped) :
    (Draft.branches drafts).WellTyped := by
  intro registry registryTyped
  rw [Draft.seal, Schema.wellTyped]
  induction drafts with
  | nil => rfl
  | cons draft rest ih =>
    rw [List.forall_mem_cons] at typed
    rw [Draft.sealAll, branchesWellTyped, Bool.and_eq_true]
    exact ⟨typed.1 registry registryTyped, ih typed.2⟩

mutual

private theorem wellTyped_parseTop {options : ParseOptions} {schema : Json} {draft : Draft}
    {registry after : Registry} (done : parseTop options schema registry = .ok draft after)
    (typed : wellTyped schema = true) (registryTyped : RegistryTyped registry) :
    draft.WellTyped ∧ RegistryTyped after := by
  match schema, done, typed with
  | .obj members, done, typed =>
    rw [parseTop] at done
    split at done
    · exact wellTyped_parseWhole done typed registryTyped
    · exact wellTyped_adopt done typed registryTyped
  | .arr branches, done, typed =>
    rw [parseTop] at done
    split at done
    · exact wellTyped_parseWhole done typed registryTyped
    · obtain ⟨drafts, _, draftsDone, done⟩ := step_bind_ok.mp done
      cases done
      rw [wellTyped] at typed
      obtain ⟨draftsTyped, afterTyped⟩ := wellTyped_parseTopBranches draftsDone typed registryTyped
      exact ⟨Draft.wellTyped_branches draftsTyped, afterTyped⟩
  | .null, done, typed | .bool _, done, typed | .int _, done, typed | .float _, done, typed
  | .str _, done, typed =>
    exact wellTyped_parseWhole (by simpa only [parseTop] using done) typed registryTyped

theorem wellTyped_parseTopBranches {options : ParseOptions} {branches : List Json}
    {drafts : List Draft} {registry after : Registry}
    (done : parseTopBranches options branches registry = .ok drafts after)
    (typed : branchesWellTyped branches = true) (registryTyped : RegistryTyped registry) :
    (∀ draft ∈ drafts, draft.WellTyped) ∧ RegistryTyped after := by
  match branches, done, typed with
  | [], done, _ =>
    rw [parseTopBranches] at done
    cases done
    exact ⟨List.forall_mem_nil _, registryTyped⟩
  | branch :: rest, done, typed =>
    rw [parseTopBranches] at done
    obtain ⟨draft, _, draftDone, done⟩ := step_bind_ok.mp done
    obtain ⟨others, _, othersDone, done⟩ := step_bind_ok.mp done
    cases done
    rw [branchesWellTyped, Bool.and_eq_true] at typed
    obtain ⟨draftTyped, betweenTyped⟩ := wellTyped_parseTop draftDone typed.1 registryTyped
    obtain ⟨othersTyped, afterTyped⟩ := wellTyped_parseTopBranches othersDone typed.2 betweenTyped
    exact ⟨List.forall_mem_cons.mpr ⟨draftTyped, othersTyped⟩, afterTyped⟩

end

/-- A parsed schema and the definitions of its registry are well typed if the schema and the given
registry are. -/
theorem wellTyped_parse {options : ParseOptions} {parsed : Json}
    (done : parse options registry schema = .ok (parsed, after)) (typed : wellTyped schema = true)
    (registryTyped : RegistryTyped registry) : wellTyped parsed = true ∧ RegistryTyped after := by
  unfold parse at done
  split at done
  · rename_i draft stop draftDone
    cases done
    obtain ⟨draftTyped, afterTyped⟩ := wellTyped_parseTop draftDone typed registryTyped
    exact ⟨draftTyped _ afterTyped, afterTyped⟩
  · simp at done

end Schema

end Avro
