import Avro.Proofs.Documents
import Avro.Proofs.ParsedShape

/-!
Contract: a parsed schema is parsed again as it is, and a parse can be replayed from other states.

Owns: `names`, the full names that a parsed schema defines; that parsing a parsed schema changes
neither it nor the way its state goes; and `Effect`, which says of a parse that it depends on its
state by the names that are taken and the references that are understood only.

Names are full in a parsed schema and namespaces are dropped, so that the second parse goes on in no
namespace at all.
-/

namespace Avro

open Members (get? get?_append get?_cons)

variable {left right : Members} {nodes : List Json}

namespace Schema

variable {key name : String} {members : Members} {space : Json} {entries : Registry}

/-! ### The names of a parsed schema -/

/-- The name of a definition under its key in the registry. -/
def nameIn (members : List (String × Json)) : List String :=
  match get? members "name" with
  | some name => (registryName name).toOption.toList
  | none => []

mutual

/-- The full names that a parsed schema defines, in the order in which their definitions start. -/
def names : Json → List String
  | .arr branches => branchNames branches
  | .obj members =>
    match get? members "type" with
    | some (.str word) =>
      (if hasName word then nameIn members else []) ++
      (if hasFields word then fieldNamesIn members else [])
        ++ (if word = "array" then namesUnder "items" members else [])
        ++ (if word = "map" then namesUnder "values" members else [])
    | _ => []
  | _ => []
termination_by structural schema => schema

def branchNames : List Json → List String
  | [] => []
  | branch :: rest => names branch ++ branchNames rest
termination_by structural branches => branches

def namesUnder (key : String) : List (String × Json) → List String
  | [] => []
  | (name, node) :: rest => if name = key then names node else namesUnder key rest
termination_by structural members => members

def fieldNamesIn : List (String × Json) → List String
  | [] => []
  | (name, value) :: rest => if name = "fields" then fieldListNames value else fieldNamesIn rest
termination_by structural members => members

def fieldListNames : Json → List String
  | .arr fields => namesOfFields fields
  | _ => []
termination_by structural value => value

def namesOfFields : List Json → List String
  | [] => []
  | field :: rest => namesInField field ++ namesOfFields rest
termination_by structural fields => fields

def namesInField : Json → List String
  | .obj members => namesUnder "type" members
  | _ => []
termination_by structural field => field

end

theorem namesUnder_eq (key : String) (members : Members) :
    namesUnder key members = ((get? members key).map names).getD [] := by
  induction members with
  | nil => rfl
  | cons member rest ih =>
    obtain ⟨name, node⟩ := member
    rw [namesUnder, get?_cons, ih]
    by_cases wanted : name = key
    · rw [if_pos wanted, if_pos wanted]
      rfl
    · rw [if_neg wanted, if_neg wanted]

theorem fieldNamesIn_eq (members : Members) :
    fieldNamesIn members = ((get? members "fields").map fieldListNames).getD [] := by
  induction members with
  | nil => rfl
  | cons member rest ih =>
    obtain ⟨name, node⟩ := member
    rw [fieldNamesIn, get?_cons, ih]
    by_cases wanted : name = "fields"
    · rw [if_pos wanted, if_pos wanted]
      rfl
    · rw [if_neg wanted, if_neg wanted]

def namingAttributes : List String := ["type", "name", "fields", "items", "values"]

theorem names_obj_congr (same : ∀ key ∈ namingAttributes, get? left key = get? right key) :
    names (.obj left) = names (.obj right) := by
  have sameName : nameIn left = nameIn right := by rw [nameIn, nameIn, same "name" (by decide)]
  rw [names, names]
  simp only [sameName, namesUnder_eq, fieldNamesIn_eq, same "type" (by decide),
    same "fields" (by decide), same "items" (by decide), same "values" (by decide)]

/-! ### The attributes of a parsed node -/

/-- Whether attributes are such as a parsed node has behind its common part. -/
def areOwn (members : List (String × Json)) : Bool :=
  members.all fun member => reservedAttributes.contains member.1 && member.1 != "type" &&
  member.1 != "doc"

theorem notMem_keys_of_areOwn (own : areOwn members = true)
    (notReserved : (reservedAttributes.contains key && key != "type" && key != "doc") = false) :
    key ∉ Members.keys members := by
  intro isKey
  obtain ⟨member, isMember, rfl⟩ := List.mem_map.mp isKey
  rw [List.all_eq_true.mp own member isMember] at notReserved
  cases notReserved

theorem notMem_keys_of_notReserved (own : areOwn members = true)
    (notReserved : reservedAttributes.contains key = false) : key ∉ Members.keys members :=
  notMem_keys_of_areOwn own (by simp only [notReserved, Bool.false_and])

section Attributes

variable {members others : Members} {type : Json} {word : String}

/-- An attribute without a meaning of its own is that of the given node. -/
theorem get?_kept {key : String} (notReserved : reservedAttributes.contains key = false)
    (absent : key ∉ Members.keys others) :
    get? (commonAttributes members type ++ others) key = get? members key := by
  have notType : "type" ≠ key := by
    rintro rfl
    exact absurd notReserved (by decide)
  have notDoc : "doc" ≠ key := by
    rintro rfl
    exact absurd notReserved (by decide)
  have none : get? others key = none := Members.get?_eq_none_iff.mpr absent
  unfold commonAttributes
  rw [get?_append, get?_append, get?_append, none,
    Members.get?_filter (fun other => !reservedAttributes.contains other),
    if_pos (by simp only [notReserved]; decide)]
  cases get? members "doc" with
  | none => simp [get?, notType]
  | some doc => simp [get?, notType, notDoc]

private theorem filter_own (own : areOwn others = true) :
    (others.filter fun member => !reservedAttributes.contains member.1) = [] := by
  rw [List.filter_eq_nil_iff]
  intro member isMember
  have isOwn := List.all_eq_true.mp own member isMember
  rw [Bool.and_eq_true, Bool.and_eq_true] at isOwn
  simpa using isOwn.1.1

theorem get?_doc_parsed (own : areOwn others = true) :
    get? (commonAttributes members type ++ others) "doc" = get? members "doc" := by
  have noDoc : get? others "doc" = none :=
    Members.get?_eq_none_iff.mpr (notMem_keys_of_areOwn own (by decide))
  unfold commonAttributes
  rw [get?_append, get?_append, get?_append, noDoc,
    Members.get?_filter (fun other => !reservedAttributes.contains other), if_neg (by decide)]
  cases get? members "doc" with
  | none => rfl
  | some doc => rfl

theorem commonAttributes_parsed (own : areOwn others = true) :
    commonAttributes (commonAttributes members type ++ others) type =
      commonAttributes members type := by
  have keptAre : ((commonAttributes members type ++ others).filter fun member =>
    !reservedAttributes.contains member.1) =
      members.filter fun member => !reservedAttributes.contains member.1 := by
    unfold commonAttributes
    rw [List.filter_append, List.filter_append, List.filter_append, filter_own own,
      List.filter_filter]
    cases get? members "doc" with
    | none => simp [reservedAttributes]
    | some doc => simp [reservedAttributes]
  rw [commonAttributes, keptAre, get?_doc_parsed own]
  rfl

/-- The checks of a decimal look at attributes that stay, and at the size of a fixed type. -/
theorem checkDecimal_congr
    (same : ∀ key ∈ ["logicalType", "scale", "precision"], get? left key = get? right key)
    (sameSize : word = "fixed" → get? left "size" = get? right "size") :
    checkDecimal left (.str word) = checkDecimal right (.str word) := by
  have samePrecision (precision : Json) :
      checkPrecision left (.str word) precision = checkPrecision right (.str word) precision := by
    by_cases isFixed : word = "fixed"
    · simp only [checkPrecision, required, sameSize isFixed]
    · have different : (Json.str word).same (.str "fixed") = false := by
        simpa [Json.same] using isFixed
      simp only [checkPrecision, different, Bool.false_eq_true, if_false]
  simp only [checkDecimal, same "logicalType" (by decide), same "scale" (by decide),
    same "precision" (by decide), samePrecision]

theorem checkDecimal_parsed (own : areOwn others = true)
    (sameSize : word = "fixed" → get? others "size" = get? members "size") :
    checkDecimal (commonAttributes members type ++ others) (.str word) =
      checkDecimal members (.str word) := by
  refine checkDecimal_congr (fun key isKey => ?_) fun isFixed => ?_
  · have notReserved : ∀ key ∈ ["logicalType", "scale", "precision"],
      reservedAttributes.contains key = false := by decide
    exact get?_kept (notReserved key isKey) (notMem_keys_of_notReserved own (notReserved key isKey))
  · rw [get?_behind_common (by decide) (by decide) (by decide), sameSize isFixed]

theorem qualifiedName_congr {left right : Members} {space innerSpace name : Json}
    (sameName : get? left "name" = get? right "name")
    (sameSpace : get? left "namespace" = get? right "namespace")
    (named : qualifiedName (.obj left) space = .ok (innerSpace, name)) :
    qualifiedName (.obj right) space = .ok (innerSpace, name) := by
  rw [← named]
  simp only [qualifiedName, ← sameName, ← sameSpace]
  cases found : get? left "name" with
  | none => simp [qualifiedName, found] at named
  | some given => rfl

/-- The full name of a parsed definition is its own name, outside of any namespace. -/
theorem qualifiedName_parsed {name : Json} (namedAs : get? others "name" = some name)
    (noSpace : get? others "namespace" = none) :
    qualifiedName (.obj (commonAttributes members type ++ others)) (.str "") =
      .ok (.str "", name) := by
  have nameIs : get? (commonAttributes members type ++ others) "name" = some name := by
    rw [get?_behind_common (by decide) (by decide) (by decide), namedAs]
  have spaceIs : get? (commonAttributes members type ++ others) "namespace" = none := by
    rw [get?_behind_common (by decide) (by decide) (by decide), noSpace]
  simp only [qualifiedName, nameIs, spaceIs]
  rfl

theorem names_parsed (word : String) :
    names (.obj (commonAttributes members (.str word) ++ others)) =
      names (.obj (("type", .str word) :: others)) := by
  have own : ∀ key ∈ namingAttributes, key ∈ reservedAttributes.erase "doc" := by decide
  exact names_obj_congr fun key isKey => get?_own (own key isKey)

end Attributes

section Definitions

variable {members : Members} {word key entry : String} {name value part : Json} {fields : List Json}

theorem names_primitiveNode (isPrimitive : word ∈ primitiveNames) :
    names (.obj (commonAttributes members (.str word))) = [] := by
  have allNone : ∀ word ∈ primitiveNames, names (.obj [("type", .str word)]) = [] := by decide
  rw [← List.append_nil (commonAttributes members _), names_parsed]
  exact allNone word isPrimitive

theorem names_collection (isCollection : (word, key) ∈ [("array", "items"), ("map", "values")]) :
    names (.obj (commonAttributes members (.str word) ++ [(key, part)])) = names part := by
  rcases Members.mem_pairs.mp isCollection with ⟨rfl, rfl⟩ | ⟨rfl, rfl⟩
  · rw [names_parsed]
    simp [names, namesUnder_eq, get?, hasName, hasFields]
  · rw [names_parsed]
    simp [names, namesUnder_eq, get?, hasName, hasFields]

theorem names_leaf (isLeaf : (word, key) ∈ [("enum", "symbols"), ("fixed", "size")])
    (entryIs : registryName name = .ok entry) :
    names (.obj (leafMembers members word name key value)) = [entry] := by
  rcases Members.mem_pairs.mp isLeaf with ⟨rfl, rfl⟩ | ⟨rfl, rfl⟩
  · rw [leafMembers, names_parsed]
    simp [names, nameIn, get?, hasName, hasFields, entryIs, Except.toOption]
  · rw [leafMembers, names_parsed]
    simp [names, nameIn, get?, hasName, hasFields, entryIs, Except.toOption]

theorem names_record (isRecord : word ∈ ["record", "error"])
    (entryIs : registryName name = .ok entry) :
    names (.obj (recordMembers members word name fields)) = entry :: namesOfFields fields := by
  rcases List.mem_pair.mp isRecord with rfl | rfl
  · rw [recordMembers, names_parsed]
    simp [names, nameIn, fieldNamesIn_eq, fieldListNames, get?, hasName, hasFields, entryIs,
      Except.toOption]
  · rw [recordMembers, names_parsed]
    simp [names, nameIn, fieldNamesIn_eq, fieldListNames, get?, hasName, hasFields, entryIs,
      Except.toOption]

theorem namesOfFields_cons (type : Json) (rest : List Json) :
    namesOfFields (.obj (fieldMembers members name type) :: rest) = names type ++
    namesOfFields rest := by
  rw [namesOfFields, namesInField, namesUnder_eq, get?_fieldMembers members name type (by decide)]
  rfl

private theorem commonFieldAttributes_parsed (type : Json) :
    commonFieldAttributes (fieldMembers members name type) = commonFieldAttributes members := by
  have foundAre (key : String) (isKey : key ∈ ["doc", "aliases", "default"]) :
      get? (fieldMembers members name type) key = get? members key := by
    have reserved : ∀ key ∈ ["doc", "aliases", "default"], reservedFieldAttributes.contains key =
      true := by decide
    have behind : ∀ key ∈ ["doc", "aliases", "default"],
        get? [("name", name), ("type", type)] key = none := by
      simp [get?]
    rw [get?_fieldMembers members name type (reserved key isKey), behind key isKey,
      if_pos (by simpa using isKey), Option.or_none]
  have keptAre : ((fieldMembers members name type).filter fun member =>
    !reservedFieldAttributes.contains member.1) =
      members.filter fun member => !reservedFieldAttributes.contains member.1 := by
    have takenGone : ((["doc", "aliases", "default"].filterMap fun key =>
        (get? members key).map fun value => (key, value)).filter fun member =>
          !reservedFieldAttributes.contains member.1) = [] := by
      rw [List.filter_eq_nil_iff]
      intro member isMember
      obtain ⟨key, isKey, found⟩ := List.mem_filterMap.mp isMember
      obtain ⟨value, -, rfl⟩ := Option.map_eq_some_iff.mp found
      have reserved : ∀ key ∈ ["doc", "aliases", "default"], reservedFieldAttributes.contains key =
        true := by decide
      simpa using reserved key isKey
    rw [fieldMembers, commonFieldAttributes, List.filter_append, List.filter_append, takenGone,
      List.filter_filter]
    simp [reservedFieldAttributes]
  rw [commonFieldAttributes, keptAre, commonFieldAttributes]
  congr 1
  refine List.filterMap_congr fun key isKey => ?_
  rw [foundAre key isKey]

end Definitions

/-! ### Parsing again -/

theorem qualifyReference_nowhere (name : String) :
    qualifyReference (.str name) (.str "") = .ok (.str name) := by
  simp [qualifyReference, mentions, Json.truthy]

/-- A reference does not become the name of a primitive type by its namespace, since these have no
dots. -/
theorem notPrimitive_qualified {text : String} (notPrimitive : text ∉ primitiveNames)
    (qualified : qualifyReference (.str text) space = .ok (.str name)) : name ∉ primitiveNames := by
  simp only [qualifyReference, mentions] at qualified
  split at qualified
  · cases qualified
    exact notPrimitive
  · split at qualified
    · cases qualified
      have noDots : ∀ word ∈ primitiveNames, '.' ∉ word.toList := by decide
      exact fun isPrimitive => noDots _ isPrimitive (by simp)
    · cases qualified

section Nodes

variable {members : Members} {word key : String} {space innerSpace name value node part : Json}

theorem areOwn_collection (isCollection : (word, key) ∈ [("array", "items"), ("map", "values")])
    (part : Json) : areOwn [(key, part)] = true := by
  have isOwn : ∀ pair ∈ [("array", "items"), ("map", "values")], areOwn [(pair.2, Json.null)] =
    true := by decide
  exact isOwn _ isCollection

theorem areOwn_leaf (isLeaf : (word, key) ∈ [("enum", "symbols"), ("fixed", "size")])
    (name value : Json) : areOwn [("name", name), (key, value)] = true := by
  have isOwn : ∀ pair ∈ [("enum", "symbols"), ("fixed", "size")],
      areOwn [("name", Json.null), (pair.2, Json.null)] = true := by decide
  exact isOwn _ isLeaf

section

variable (typeIs : get? members "type" = some (.str word))
  (checked : checkDecimal members (.str word) = .ok ())
include typeIs checked

theorem sameRun_primitive (isPrimitive : word ∈ primitiveNames) :
    parseNode false (.str "") (.obj (commonAttributes members (.str word))) =
      parseNode false space (.obj members) := by
  have notFixed : word ≠ "fixed" := by
    rintro rfl
    exact absurd isPrimitive (by decide)
  have checkedAgain : checkDecimal (commonAttributes members (.str word) ++ [])
      (.str word) = .ok () :=
    (checkDecimal_parsed rfl fun isFixed => absurd isFixed notFixed).trans checked
  rw [parseNode_primitive typeIs checked isPrimitive,
    ← List.append_nil (commonAttributes members (.str word)),
    parseNode_primitive (get?_type_commonAttributes members [] _) checkedAgain isPrimitive,
    commonAttributes_parsed rfl, List.append_nil]

theorem sameRun_collection (isCollection : (word, key) ∈ [("array", "items"), ("map", "values")])
    (under : get? members key = some node)
    (inner : parseNode false (.str "") part = parseNode false space node) :
    parseNode false (.str "") (.obj (commonAttributes members (.str word) ++ [(key, part)])) =
      parseNode false space (.obj members) := by
  have isKey : ∀ pair ∈ [("array", "items"), ("map", "values")],
      reservedAttributes.contains pair.2 = true ∧ "type" ≠ pair.2 ∧ "doc" ≠ pair.2 ∧
      pair.1 ≠ "fixed" := by decide
  obtain ⟨reserved, notType, notDoc, notFixed⟩ := isKey _ isCollection
  have own := areOwn_collection isCollection part
  have underAgain : get? (commonAttributes members (.str word) ++ [(key, part)]) key =
      some part := by
    rw [get?_behind_common reserved notType notDoc, get?_cons, if_pos rfl]
  rw [parseNode_collection typeIs checked isCollection under,
    parseNode_collection (get?_type_commonAttributes members [(key, part)] _)
      ((checkDecimal_parsed own fun isFixed => absurd isFixed notFixed).trans checked)
        isCollection underAgain,
    inner, commonAttributes_parsed own]

theorem sameRun_leaf (isLeaf : (word, key) ∈ [("enum", "symbols"), ("fixed", "size")])
    (named : qualifiedName (.obj members) space = .ok (innerSpace, name))
    (under : get? members key = some value) :
    parseNode false (.str "") (.obj (leafMembers members word name key value)) =
      parseNode false space (.obj members) := by
  have isKey : ∀ pair ∈ [("enum", "symbols"), ("fixed", "size")],
      reservedAttributes.contains pair.2 = true ∧ "type" ≠ pair.2 ∧ "doc" ≠ pair.2 ∧
      "name" ≠ pair.2 ∧
        "namespace" ≠ pair.2 ∧ (pair.1 = "fixed" → pair.2 = "size") := by decide
  obtain ⟨reserved, notType, notDoc, notName, notSpace, isSize⟩ := isKey _ isLeaf
  have own := areOwn_leaf isLeaf name value
  have found : get? [("name", name), (key, value)] key = some value := by
    rw [get?_cons, if_neg notName, get?_cons, if_pos rfl]
  have noSpace : get? [("name", name), (key, value)] "namespace" = none := by
    rw [get?_cons, if_neg (show "name" ≠ "namespace" by decide), get?_cons,
      if_neg (Ne.symm notSpace)]
    rfl
  have sameSize (isFixed : word = "fixed") :
      get? [("name", name), (key, value)] "size" = get? members "size" := by
    rw [← isSize isFixed, found, under]
  rw [parseNode_leaf typeIs checked isLeaf, parseLeafDefinition_of_named named under, leafMembers,
    parseNode_leaf (get?_type_commonAttributes members [("name", name), (key, value)] _)
      ((checkDecimal_parsed own sameSize).trans checked) isLeaf,
    parseLeafDefinition_of_named (qualifiedName_parsed rfl noSpace)
      ((get?_behind_common reserved notType notDoc).trans found),
    commonAttributes_parsed own]

theorem sameRun_record {fields : List Json} (isRecord : word ∈ ["record", "error"])
    (named : qualifiedName (.obj members) space = .ok (innerSpace, name))
    (nodesAre : fieldNodes? members = some nodes)
    (inner : parseFields false (.str "") fields = parseFields false innerSpace nodes) :
    parseNode false (.str "") (.obj (recordMembers members word name fields)) =
      parseNode false space (.obj members) := by
  have notFixed : word ≠ "fixed" := by
    rintro rfl
    exact absurd isRecord (by decide)
  have nodesAgain : fieldNodes?
      (commonAttributes members (.str word) ++ [("name", name), ("fields", .arr fields)]) =
      some fields := by
    rw [fieldNodes?, get?_behind_common (by decide) (by decide) (by decide)]
    rfl
  rw [parseNode_record typeIs checked isRecord, parseRecordDefinition_of_named named nodesAre,
    recordMembers,
    parseNode_record (get?_type_commonAttributes members [("name", name), ("fields", .arr fields)]
      _) ((checkDecimal_parsed rfl fun isFixed => absurd isFixed notFixed).trans checked) isRecord,
    parseRecordDefinition_of_named (qualifiedName_parsed rfl rfl) nodesAgain, inner,
    commonAttributes_parsed rfl]

end

theorem sameRun_field (listed : checkAliases (commonFieldAttributes members) = .ok ())
    (named : get? members "name" = some name) (under : get? members "type" = some node)
    (inner : parseNode false (.str "") part = parseNode false space node) :
    parseField false (.str "") (.obj (fieldMembers members name part)) =
      parseField false space (.obj members) := by
  have common := @commonFieldAttributes_parsed members name part
  rw [parseField_of_parts listed named under,
    parseField_of_parts (common.symm ▸ listed) (get?_fieldMembers members name part (by decide))
      (get?_fieldMembers members name part (by decide)), inner]
  simp only [fieldMembers] at common ⊢
  rw [common]

end Nodes

mutual

/-- What a node is parsed to does the same as the node, in every state. -/
theorem Parses.sameRun {space node parsed : Json} {start stop : ParseState} :
    Parses false space node start parsed stop →
    parseNode false (.str "") parsed = parseNode false space node
  | .primitive isPrimitive => by rw [parseNode_word isPrimitive, parseNode_word isPrimitive]
  | .reference notPrimitive qualified _ _ => by
    rw [parseNode_reference notPrimitive qualified,
      parseNode_reference (notPrimitive_qualified notPrimitive qualified)
        (qualifyReference_nowhere _)]
  | .expansion _ _ _ expanded _ => by simp at expanded
  | .union parts => by rw [parseNode, parseNode, parts.sameRun]
  | .primitiveNode typeIs checked isPrimitive => by
    exact sameRun_primitive typeIs checked isPrimitive
  | .collection typeIs checked isCollection under inner => by
    exact sameRun_collection typeIs checked isCollection under inner.sameRun
  | .leaf typeIs checked isLeaf named _ _ under => by
    exact sameRun_leaf typeIs checked isLeaf named under
  | .record typeIs checked isRecord named _ _ nodesAre inner => by
    exact sameRun_record typeIs checked isRecord named nodesAre inner.sameRun

theorem ParsesBranches.sameRun {space : Json} {branches parsed : List Json}
    {start stop : ParseState} :
    ParsesBranches false space branches start parsed stop →
    parseBranches false (.str "") parsed = parseBranches false space branches
  | .nil => by rfl
  | .cons first others => by rw [parseBranches, parseBranches, first.sameRun, others.sameRun]

theorem ParsesFields.sameRun {space : Json} {fields parsed : List Json} {start stop : ParseState} :
    ParsesFields false space fields start parsed stop →
    parseFields false (.str "") parsed = parseFields false space fields
  | .nil => by rfl
  | .cons listed named under inner others => by
    rw [parseFields, parseFields, others.sameRun, sameRun_field listed named under inner.sameRun]

end

/-- A parsed schema is parsed as it is, outside of any namespace, and its state goes the same
way. -/
theorem Parses.again {node parsed : Json} {start stop : ParseState}
    (derivation : Parses false space node start parsed stop) :
    Parses false (.str "") parsed start parsed stop := by
  apply parses_of_parseNode
  rw [derivation.sameRun, derivation.parseNode]

/-! ### The effect of a parse on its state -/

/-- A state in which further names are taken, and entries have been made one after the other. -/
def ParseState.extend (state : ParseState) (taken : List String) (entries : Registry) :
    ParseState :=
  ⟨taken.reverse ++ state.defined, Members.union state.registry entries⟩

theorem ParseState.extend_extend (state : ParseState) (first second : List String)
    (earlier later : Registry) :
    (state.extend first earlier).extend second later =
      state.extend (first ++ second) (earlier ++ later) := by
  rw [extend, extend, extend, List.reverse_append, List.append_assoc, Members.union_append]

/-- Whether a reference to a name is understood. -/
def Understands (registry : Registry) (name : String) : Prop :=
  ∃ definition, get? registry name = some definition

theorem understands_entry (isEntry : name ∈ Members.keys entries) (before : Registry) :
    Understands (Members.union before entries) name := by
  obtain ⟨value, -, found⟩ := Members.exists_get?_union isEntry
  exact ⟨value, found before⟩

theorem understands_set {before other : Registry}
    (understood : ∀ name, Understands before name → Understands other name) (entry : String)
    (members others : Members) (name : String)
    (known : Understands (Members.set before entry (.obj members)) name) :
    Understands (Members.set other entry (.obj others)) name := by
  rw [Understands, Members.get?_set] at known ⊢
  by_cases isEntry : entry = name
  · rw [if_pos isEntry]
    exact ⟨_, rfl⟩
  · rw [if_neg isEntry] at known ⊢
    exact understood name known

theorem understands_union {before other : Registry}
    (understood : ∀ name, Understands before name → Understands other name) (name : String)
    (known : Understands (Members.union before entries) name) :
    Understands (Members.union other entries) name := by
  by_cases isEntry : name ∈ Members.keys entries
  · exact understands_entry isEntry other
  · rw [Understands, Members.get?_union_of_notMem isEntry] at known ⊢
    exact understood name known

/-- What a step does to its state: the names that it takes and the entries that it makes. It does
the same from every other state in which these names are free and every reference is understood that
was. -/
structure Effect (step : ParseState → ParseState → Prop) (start stop : ParseState)
    (taken : List String)
    (entries : Registry) : Prop where
  stopIs : stop = start.extend taken entries
  distinct : taken.Nodup
  free : ∀ name ∈ taken, name ∉ start.defined
  entered : ∀ name, name ∈ Members.keys entries ↔ name ∈ taken
  replays : ∀ other : ParseState,
  (∀ name, Understands start.registry name → Understands other.registry name) →
    (∀ name ∈ taken, name ∉ other.defined) → step other (other.extend taken entries)

namespace Effect

variable {step next : ParseState → ParseState → Prop} {start between stop : ParseState}
  {taken others : List String} {entries later : Registry}

theorem mono (effect : Effect step start stop taken entries)
    (implies : ∀ before after, step before after → next before after) :
    Effect next start stop taken entries :=
  { effect with
    replays := fun other understood free => implies _ _ (effect.replays other understood free) }

theorem nothing
    (replays : ∀ other : ParseState, (∀ name, Understands start.registry name →
    Understands other.registry name) →
    step other other) : Effect step start start [] [] where
  stopIs := rfl
  distinct := List.nodup_nil
  free := List.forall_mem_nil _
  entered := fun _ => Iff.rfl
  replays := fun other understood _ => replays other understood

theorem enter {entry : String} (members : Members) (fresh : entry ∉ start.defined) :
    Effect (fun before after => entry ∉ before.defined ∧ after = before.enter entry members) start
      (start.enter entry members) [entry] [(entry, .obj members)] where
  stopIs := rfl
  distinct := List.nodup_singleton entry
  free := List.forall_mem_singleton.mpr fresh
  entered := fun _ => Iff.rfl
  replays := fun _ _ free => ⟨free entry List.mem_cons_self, rfl⟩

theorem andThen (first : Effect step start between taken entries)
    (second : Effect next between stop others later) :
    Effect (fun before after => ∃ middle, step before middle ∧ next middle after) start stop
      (taken ++ others)
      (entries ++ later) := by
  have betweenIs := first.stopIs
  subst betweenIs
  have apart : ∀ name ∈ others, name ∉ taken := fun name isOther isTaken =>
    second.free name isOther (List.mem_append_left _ (List.mem_reverse.mpr isTaken))
  refine ⟨?_, ?_, ?_, ?_, ?_⟩
  · rw [second.stopIs, ParseState.extend_extend]
  · exact first.distinct.append second.distinct fun name isTaken isOther =>
      apart name isOther isTaken
  · refine List.forall_mem_append.mpr ⟨first.free, fun name isOther isDefined => ?_⟩
    exact second.free name isOther (List.mem_append_right _ isDefined)
  · intro name
    rw [Members.keys, List.map_append, List.mem_append, List.mem_append, ← Members.keys,
      ← Members.keys, first.entered, second.entered]
  · intro other understood free
    obtain ⟨freeFirst, freeSecond⟩ := List.forall_mem_append.mp free
    refine ⟨other.extend taken entries, first.replays other understood freeFirst, ?_⟩
    rw [← ParseState.extend_extend]
    refine second.replays _ (understands_union understood) fun name isOther isDefined => ?_
    rcases List.mem_append.mp isDefined with isTaken | wasDefined
    · exact apart name isOther (List.mem_reverse.mp isTaken)
    · exact freeSecond name isOther wasDefined

/-- A step after which a definition is replaced that it has made. -/
theorem replace {entry : String} (effect : Effect step start stop taken entries)
    (isTaken : entry ∈ taken) (members : Members) :
    Effect (fun before after => ∃ middle, step before middle ∧
      after = middle.replace entry members) start
      (stop.replace entry members) taken (entries ++ [(entry, .obj members)]) := by
  have replaced (state : ParseState) :
      (state.extend taken entries).replace entry members =
        state.extend taken (entries ++ [(entry, .obj members)]) := by
    rw [ParseState.extend, ParseState.extend, Members.union_append]
    rfl
  refine ⟨?_, effect.distinct, effect.free, ?_, ?_⟩
  · rw [effect.stopIs, replaced]
  · intro name
    rw [Members.keys, List.map_append, List.mem_append, ← Members.keys, effect.entered]
    refine ⟨fun either => either.elim id fun isLast => ?_, Or.inl⟩
    rwa [List.mem_singleton.mp isLast]
  · intro other understood free
    exact ⟨_, effect.replays other understood free, (replaced other).symm⟩

end Effect

mutual

/-- A parse takes the names that its result defines, and enters definitions under them. -/
theorem Parses.effect {space node parsed : Json} {start stop : ParseState} :
    Parses false space node start parsed stop → ∃ entries,
      Effect (fun before after => Parses false space node before parsed after) start stop
        (names parsed) entries
  | .primitive isPrimitive => by exact ⟨[], .nothing fun _ _ => .primitive isPrimitive⟩
  | .reference notPrimitive qualified known kept => by
    refine ⟨[], .nothing fun other understood => ?_⟩
    obtain ⟨definition, otherKnown⟩ := understood _ ⟨_, known⟩
    exact .reference notPrimitive qualified otherKnown (by simp)
  | .expansion _ _ _ expanded _ => by simp at expanded
  | .union parts => by
    have ⟨entries, effect⟩ := parts.effect
    exact ⟨entries, effect.mono fun _ _ => .union⟩
  | .primitiveNode typeIs checked isPrimitive => by
    rw [names_primitiveNode isPrimitive]
    exact ⟨[], .nothing fun _ _ => .primitiveNode typeIs checked isPrimitive⟩
  | .collection typeIs checked isCollection under inner => by
    have ⟨entries, effect⟩ := inner.effect
    rw [names_collection isCollection]
    exact ⟨entries, effect.mono fun _ _ => .collection typeIs checked isCollection under⟩
  | .leaf typeIs checked isLeaf named entryIs fresh under => by
    rw [names_leaf isLeaf entryIs]
    refine ⟨_, (Effect.enter _ fresh).mono ?_⟩
    rintro before _ ⟨free, rfl⟩
    exact .leaf typeIs checked isLeaf named entryIs free under
  | .record typeIs checked isRecord named entryIs fresh nodesAre inner => by
    have ⟨entries, effect⟩ := inner.effect
    rw [names_record isRecord entryIs]
    refine ⟨_, (((Effect.enter _ fresh).andThen effect).replace List.mem_cons_self _).mono ?_⟩
    rintro before _ ⟨middle, ⟨_, ⟨free, rfl⟩, innerDone⟩, rfl⟩
    exact .record typeIs checked isRecord named entryIs free nodesAre innerDone

theorem ParsesBranches.effect {space : Json} {branches parsed : List Json}
    {start stop : ParseState} :
    ParsesBranches false space branches start parsed stop → ∃ entries,
      Effect (fun before after => ParsesBranches false space branches before parsed after) start
        stop (branchNames parsed) entries
  | .nil => by exact ⟨[], .nothing fun _ _ => .nil⟩
  | .cons first others => by
    have ⟨entries, effect⟩ := first.effect
    have ⟨later, laterEffect⟩ := others.effect
    refine ⟨_, (effect.andThen laterEffect).mono ?_⟩
    rintro before after ⟨middle, firstDone, othersDone⟩
    exact .cons firstDone othersDone

theorem ParsesFields.effect {space : Json} {fields parsed : List Json} {start stop : ParseState} :
    ParsesFields false space fields start parsed stop → ∃ entries,
      Effect (fun before after => ParsesFields false space fields before parsed after) start stop
        (namesOfFields parsed) entries
  | .nil => by exact ⟨[], .nothing fun _ _ => .nil⟩
  | .cons listed named under inner others => by
    have ⟨entries, effect⟩ := inner.effect
    have ⟨later, laterEffect⟩ := others.effect
    rw [namesOfFields_cons]
    refine ⟨_, (effect.andThen laterEffect).mono ?_⟩
    rintro before after ⟨middle, innerDone, othersDone⟩
    exact .cons listed named under innerDone othersDone

end

/-! ### Parts -/

section Parts

variable {members others : Members}
variable {value name : Json} {key : String}

/-- Attributes that are kept have other keys than those with a meaning of their own. -/
theorem nodup_kept {reserved special : List String} (distinct : (Members.keys members).Nodup)
    (specialDistinct : special.Nodup)
    (areReserved : ∀ key ∈ special, reserved.contains key = true) :
    (Members.keys (members.filter fun member => !reserved.contains member.1) ++ special).Nodup := by
  refine (distinct.sublist (List.filter_sublist.map Prod.fst)).append specialDistinct
    fun key isKept isSpecial => ?_
  obtain ⟨member, isMember, rfl⟩ := List.mem_map.mp isKept
  have notReserved := (List.mem_filter.mp isMember).2
  rw [areReserved _ isSpecial] at notReserved
  cases notReserved

private theorem nodup_keys_parsed (type : Json) (distinct : (Members.keys members).Nodup)
    (othersDistinct : ("type" :: "doc" :: Members.keys others).Nodup)
    (reserved : ∀ key ∈ Members.keys others, reservedAttributes.contains key = true) :
    (Members.keys (commonAttributes members type ++ others)).Nodup := by
  have ⟨documented, isPart, keysAre⟩ : ∃ documented : List String, documented.Sublist ["doc"] ∧
      Members.keys (commonAttributes members type ++ others) =
        Members.keys (members.filter fun member => !reservedAttributes.contains member.1) ++
          ("type" :: (documented ++ Members.keys others)) := by
    unfold commonAttributes
    cases get? members "doc" with
    | none => exact ⟨[], List.nil_sublist _, by simp [Members.keys]⟩
    | some doc => exact ⟨["doc"], List.Sublist.refl _, by simp [Members.keys]⟩
  rw [keysAre]
  refine nodup_kept distinct (othersDistinct.sublist ((isPart.append_right _).cons_cons "type")) ?_
  refine List.forall_mem_cons.mpr
    ⟨by decide, List.forall_mem_append.mpr ⟨fun key isKey => ?_, reserved⟩⟩
  rw [List.mem_singleton.mp (isPart.subset isKey)]
  decide

theorem nodup_keys_fieldMembers (distinct : (Members.keys members).Nodup) (name type : Json) :
    (Members.keys (fieldMembers members name type)).Nodup := by
  have taken (keys : List String) : (Members.keys (keys.filterMap fun key =>
      (get? members key).map fun value => (key, value))).Sublist keys := by
    induction keys with
    | nil => exact List.nil_sublist _
    | cons key rest ih =>
      rw [List.filterMap_cons]
      cases get? members key with
      | none => exact ih.cons key
      | some value => exact ih.cons_cons key
  have special := (taken ["doc", "aliases", "default"]).append_right ["name", "type"]
  rw [fieldMembers, commonFieldAttributes, Members.keys, List.map_append, List.map_append,
    List.append_assoc]
  refine nodup_kept distinct (List.Nodup.sublist special (by decide)) fun key isKey => ?_
  have reserved : ∀ key ∈ ["doc", "aliases", "default"] ++ ["name", "type"],
      reservedFieldAttributes.contains key = true := by
    decide
  exact reserved key (special.subset isKey)

variable {good : Json → Prop} (hereditary : Json.Hereditary good)

include hereditary

theorem good_get? (isGood : good (.obj members)) (found : get? members key = some value) :
    good value :=
  ((hereditary.obj members).mp isGood).2 _ (Members.mem_of_get? found)

/-- A parsed node has a property if the given node and its own attributes have it. -/
theorem good_parsed {word : String} (isGood : good (.obj members))
    (othersDistinct : ("type" :: "doc" :: Members.keys others).Nodup)
    (reserved : ∀ key ∈ Members.keys others, reservedAttributes.contains key = true)
    (othersGood : ∀ member ∈ others, good member.2) :
    good (.obj (commonAttributes members (.str word) ++ others)) := by
  have ⟨distinct, parts⟩ := (hereditary.obj members).mp isGood
  refine (hereditary.obj _).mpr ⟨nodup_keys_parsed _ distinct othersDistinct reserved, ?_⟩
  refine List.forall_mem_append.mpr ⟨fun member isMember => ?_, othersGood⟩
  rcases mem_commonAttributes isMember with rfl | given
  · exact hereditary.str word
  · exact parts member given

theorem good_common {word : String} (isGood : good (.obj members)) :
    good (.obj (commonAttributes members (.str word))) := by
  have parsed := @good_parsed members [] good hereditary word isGood (by simp [Members.keys])
    (by simp [Members.keys])
    (List.forall_mem_nil _)
  rwa [List.append_nil] at parsed

/-- A definition has its name and one further attribute of its own. -/
theorem good_definition (word : String) (isGood : good (.obj members))
    (isKey : key ∈ ["symbols", "size", "fields"]) (nameGood : good name) (valueGood : good value) :
    good (.obj (commonAttributes members (.str word) ++ [("name", name), (key, value)])) := by
  refine good_parsed hereditary isGood ?_ ?_ (by simp [nameGood, valueGood])
  · have distinct : ∀ key ∈ ["symbols", "size", "fields"],
      ("type" :: "doc" :: ["name", key]).Nodup := by decide
    exact distinct key isKey
  · have reserved : ∀ key ∈ ["symbols", "size", "fields"], ∀ own ∈ ["name", key],
        reservedAttributes.contains own = true := by
      decide
    exact reserved key isKey

theorem good_qualifiedName {space innerSpace : Json} (isGood : good (.obj members))
    (named : qualifiedName (.obj members) space = .ok (innerSpace, name)) : good name := by
  simp only [qualifiedName] at named
  cases found : get? members "name" with
  | none => simp [found] at named
  | some given =>
    have givenGood := good_get? hereditary isGood found
    simp only [found] at named
    split at named
    · cases named
      exact givenGood
    · split at named
      · simp at named
      · cases named
        exact givenGood
      · cases named
        exact hereditary.str _

theorem good_set {registry : Registry} {entry : String} {definition : Json}
    (isGood : good (.obj registry)) (definitionGood : good definition) :
    good (.obj (Members.set registry entry definition)) := by
  have ⟨distinct, parts⟩ := (hereditary.obj registry).mp isGood
  refine (hereditary.obj _).mpr ⟨Members.nodup_keys_set _ _ distinct, fun member isMember => ?_⟩
  rcases Members.mem_set isMember with rfl | isOld
  · exact definitionGood
  · exact parts member isOld

theorem good_fieldNodes (isGood : good (.obj members))
    (nodesAre : fieldNodes? members = some nodes) :
    ∀ node ∈ nodes, good node := by
  rcases fieldNodes?_eq_some nodesAre with rfl | found
  · exact List.forall_mem_nil _
  · exact (hereditary.arr nodes).mp (good_get? hereditary isGood found)

end Parts

mutual

theorem Parses.good {good : Json → Prop} (hereditary : Json.Hereditary good) {expand : Bool}
    {space node parsed : Json} {start stop : ParseState} :
    Parses expand space node start parsed stop → good node → good (.obj start.registry) →
      good parsed ∧ good (.obj stop.registry)
  | .primitive _, isGood, startGood => by exact ⟨isGood, startGood⟩
  | .reference _ _ _ _, _, startGood => by exact ⟨hereditary.str _, startGood⟩
  | .expansion _ _ known _ _, _, startGood => by
    exact ⟨good_get? hereditary startGood known, startGood⟩
  | .union parts, isGood, startGood => by
    have ⟨partsGood, stopGood⟩ := parts.good hereditary ((hereditary.arr _).mp isGood) startGood
    exact ⟨(hereditary.arr _).mpr partsGood, stopGood⟩
  | .primitiveNode _ _ _, isGood, startGood => by exact ⟨good_common hereditary isGood, startGood⟩
  | .collection _ _ isCollection under inner, isGood, startGood => by
    have ⟨partGood, stopGood⟩ := inner.good hereditary (good_get? hereditary isGood under) startGood
    refine ⟨good_parsed hereditary isGood ?_ ?_ (List.forall_mem_singleton.mpr partGood), stopGood⟩
    · have distinct : ∀ pair ∈ [("array", "items"), ("map", "values")],
        ("type" :: "doc" :: [pair.2]).Nodup := by decide
      exact distinct _ isCollection
    · have reserved : ∀ pair ∈ [("array", "items"), ("map", "values")], ∀ own ∈ [pair.2],
          reservedAttributes.contains own = true := by decide
      exact reserved _ isCollection
  | .leaf _ _ isLeaf named _ _ under, isGood, startGood => by
    have isKey : ∀ pair ∈ [("enum", "symbols"), ("fixed", "size")],
      pair.2 ∈ ["symbols", "size", "fields"] := by decide
    have leafGood (word : String) := good_definition hereditary word isGood (isKey _ isLeaf)
      (good_qualifiedName hereditary isGood named) (good_get? hereditary isGood under)
    exact ⟨leafGood _, good_set hereditary startGood (leafGood _)⟩
  | .record _ _ _ named _ _ nodesAre inner, isGood, startGood => by
    have ⟨fieldsGood, stopGood⟩ :=
      inner.good hereditary (good_fieldNodes hereditary isGood nodesAre)
      (good_set hereditary startGood (good_common hereditary isGood))
    have isKey : "fields" ∈ ["symbols", "size", "fields"] := by decide
    have recordGood (word : String) := good_definition hereditary word isGood isKey
      (good_qualifiedName hereditary isGood named) ((hereditary.arr _).mpr fieldsGood)
    exact ⟨recordGood _, good_set hereditary stopGood (recordGood _)⟩

theorem ParsesBranches.good {good : Json → Prop} (hereditary : Json.Hereditary good) {expand : Bool}
    {space : Json} {branches parsed : List Json} {start stop : ParseState} :
    ParsesBranches expand space branches start parsed stop →
      (∀ branch ∈ branches, good branch) → good (.obj start.registry) →
      (∀ branch ∈ parsed, good branch) ∧ good (.obj stop.registry)
  | .nil, isGood, startGood => by exact ⟨isGood, startGood⟩
  | .cons first others, isGood, startGood => by
    rw [List.forall_mem_cons] at isGood ⊢
    have ⟨firstGood, betweenGood⟩ := first.good hereditary isGood.1 startGood
    have ⟨othersGood, stopGood⟩ := others.good hereditary isGood.2 betweenGood
    exact ⟨⟨firstGood, othersGood⟩, stopGood⟩

theorem ParsesFields.good {good : Json → Prop} (hereditary : Json.Hereditary good) {expand : Bool}
    {space : Json} {fields parsed : List Json} {start stop : ParseState} :
    ParsesFields expand space fields start parsed stop →
      (∀ field ∈ fields, good field) → good (.obj start.registry) →
      (∀ field ∈ parsed, good field) ∧ good (.obj stop.registry)
  | .nil, isGood, startGood => by exact ⟨isGood, startGood⟩
  | .cons _ named under inner others, isGood, startGood => by
    rw [List.forall_mem_cons] at isGood ⊢
    have ⟨distinct, parts⟩ := (hereditary.obj _).mp isGood.1
    have ⟨typeGood, betweenGood⟩ :=
      inner.good hereditary (good_get? hereditary isGood.1 under) startGood
    have ⟨othersGood, stopGood⟩ := others.good hereditary isGood.2 betweenGood
    refine ⟨⟨(hereditary.obj _).mpr ⟨nodup_keys_fieldMembers distinct _ _, ?_⟩, othersGood⟩,
      stopGood⟩
    refine List.forall_mem_append.mpr
      ⟨fun member isMember => parts member (mem_commonFieldAttributes isMember), ?_⟩
    simp [good_get? hereditary isGood.1 named, typeGood]

end

/-! ### Properties of whole parses -/

section Whole

variable {good : Json → Prop} {options : ParseOptions} {registry : Registry}

private theorem good_union (hereditary : Json.Hereditary good) {entries : Registry}
    (registryGood : good (.obj registry)) (entriesGood : ∀ entry ∈ entries, good entry.2) :
    good (.obj (Members.union registry entries)) := by
  unfold Members.union
  induction entries generalizing registry with
  | nil => exact registryGood
  | cons entry rest ih =>
    rw [List.forall_mem_cons] at entriesGood
    exact ih (good_set hereditary registryGood entriesGood.1) entriesGood.2

/-- A draft whose schema has a property once a registry that has it is filled in. -/
def Draft.Good (good : Json → Prop) (draft : Draft) : Prop :=
  ∀ ⦃known : Registry⦄, good (.obj known) → good (draft.seal known)

private theorem good_parseWhole (hereditary : Json.Hereditary good) {expand mark : Bool}
    {schema : Json} {after : Registry} {draft : Draft} (schemaGood : good schema)
    (registryGood : good (.obj registry))
    (done : parseWhole expand mark schema registry = .ok draft after) :
    draft.Good good ∧ good (.obj after) := by
  unfold parseWhole at done
  cases parsed : parseNode expand (.str "") schema ⟨[], registry⟩ with
  | error error state =>
    rw [parsed] at done
    cases done
  | ok plain state =>
    obtain ⟨plainGood, stateGood⟩ :=
      (parses_of_parseNode parsed).good hereditary schemaGood registryGood
    have isMarked {members : Members} (membersGood : good (.obj members)) :
        (Draft.marked members).Good good := fun known knownGood =>
      good_set hereditary (good_set hereditary membersGood (hereditary.bool true)) knownGood
    rw [parsed] at done
    simp only at done
    split at done
    · split at done
      · cases done
        exact ⟨isMarked plainGood, stateGood⟩
      · cases done
        exact ⟨isMarked plainGood, stateGood⟩
      · cases done
        exact ⟨fun _ _ => plainGood, stateGood⟩
    · cases done
      exact ⟨fun _ _ => plainGood, stateGood⟩

private theorem good_adopt (hereditary : Json.Hereditary good) {members : Members}
    {after : Registry} {draft : Draft} (schemaGood : good (.obj members))
    (registryGood : good (.obj registry)) (done : adopt members registry = .ok draft after) :
    draft.Good good ∧ good (.obj after) := by
  unfold adopt at done
  split at done
  · cases done
  · rename_i entries found
    cases done
    have entriesGood := ((hereditary.obj _).mp (good_get? hereditary schemaGood found)).2
    exact ⟨fun _ _ => schemaGood, good_union hereditary registryGood entriesGood⟩
  · cases done

mutual

private theorem good_parseTop (hereditary : Json.Hereditary good) :
    ∀ (schema : Json) {registry after : Registry}
    {draft : Draft}, good schema → good (.obj registry) →
    parseTop options schema registry = .ok draft after → draft.Good good ∧ good (.obj after)
  | .obj members, _, _, _, schemaGood, registryGood, done => by
    rw [parseTop] at done
    split at done
    · exact good_parseWhole hereditary schemaGood registryGood done
    · exact good_adopt hereditary schemaGood registryGood done
  | .arr branches, _, _, _, schemaGood, registryGood, done => by
    rw [parseTop] at done
    split at done
    · exact good_parseWhole hereditary schemaGood registryGood done
    · obtain ⟨drafts, middle, areDrafts, done⟩ := step_bind_ok.mp done
      cases done
      have ⟨draftsGood, afterGood⟩ := good_parseTopBranches hereditary branches
        ((hereditary.arr _).mp schemaGood) registryGood areDrafts
      refine ⟨fun known knownGood => (hereditary.arr _).mpr ?_, afterGood⟩
      exact draftsGood knownGood
  | .null, _, _, _, schemaGood, registryGood, done
  | .bool _, _, _, _, schemaGood, registryGood, done
  | .int _, _, _, _, schemaGood, registryGood, done
  | .float _, _, _, _, schemaGood, registryGood, done
  | .str _, _, _, _, schemaGood, registryGood, done => by
    rw [parseTop] at done
    · exact good_parseWhole hereditary schemaGood registryGood done
    · exact nofun
    · exact nofun

theorem good_parseTopBranches (hereditary : Json.Hereditary good) : ∀ (branches : List Json)
    {registry after : Registry} {drafts : List Draft}, (∀ branch ∈ branches, good branch) →
    good (.obj registry) → parseTopBranches options branches registry = .ok drafts after →
    (∀ ⦃known : Registry⦄, good (.obj known) → ∀ sealed ∈ Draft.sealAll known drafts, good sealed) ∧
      good (.obj after)
  | [], _, _, _, _, registryGood, done => by
    cases done
    exact ⟨fun _ _ => List.forall_mem_nil _, registryGood⟩
  | branch :: rest, _, _, _, branchesGood, registryGood, done => by
    rw [List.forall_mem_cons] at branchesGood
    obtain ⟨draft, middle, isDraft, done⟩ := step_bind_ok.mp done
    obtain ⟨drafts, last, areDrafts, done⟩ := step_bind_ok.mp done
    cases done
    have ⟨draftGood, middleGood⟩ :=
      good_parseTop hereditary branch branchesGood.1 registryGood isDraft
    have ⟨draftsGood, afterGood⟩ :=
      good_parseTopBranches hereditary rest branchesGood.2 middleGood areDrafts
    refine ⟨fun known knownGood => ?_, afterGood⟩
    rw [Draft.sealAll, List.forall_mem_cons]
    exact ⟨draftGood knownGood, draftsGood knownGood⟩

end

/-- A property that goes by parts is kept by parsing. -/
theorem good_parse (hereditary : Json.Hereditary good) {schema parsed : Json} {known : Registry}
    (schemaGood : good schema) (registryGood : good (.obj registry))
    (done : parse options registry schema = .ok (parsed, known)) :
    good parsed ∧ good (.obj known) := by
  unfold parse at done
  split at done
  · rename_i draft after isDraft
    cases done
    have ⟨draftGood, afterGood⟩ := good_parseTop hereditary schema schemaGood registryGood isDraft
    exact ⟨draftGood afterGood, afterGood⟩
  · cases done

end Whole

end Schema

end Avro
