import Avro.Proofs.Members
import Avro.Proofs.Steps

/-!
Contract: successful parses as derivations.

Owns: `Schema.Parses`, one rule for each form of a schema node, and its agreement with
`Schema.parseNode`.

A rule says everything that a successful parse of its form does: what is looked up, what is checked,
and how the names and the registry change. Properties of parsed schemas are proved by recursion on
derivations, without the parser's code.
-/

namespace Avro.Schema

open Members (get? get?_cons sizeOf_lt_of_get?)

variable {entry key word : String} {start stop : ParseState} {members : Members}
  {name space parsed : Json} {expand : Bool} {nodes : List Json}

/-! ### The parts of a node -/

/-- The nodes of a record's fields. A record without that attribute has none, and neither has one
where it is empty. -/
def fieldNodes? (members : List (String × Json)) : Option (List Json) :=
  match get? members "fields" with
  | none => some []
  | some (.arr fields) => some fields
  | some (.str text) => if text.isEmpty then some [] else none
  | some (.obj inner) => if inner.isEmpty then some [] else none
  | some _ => none

def leafMembers (members : List (String × Json)) (word : String) (name : Json) (key : String)
    (value : Json) : List (String × Json) :=
  commonAttributes members (.str word) ++ [("name", name), (key, value)]

def recordMembers (members : List (String × Json)) (word : String) (name : Json)
    (fields : List Json) : List (String × Json) :=
  commonAttributes members (.str word) ++ [("name", name), ("fields", .arr fields)]

def fieldMembers (members : List (String × Json)) (name type : Json) : List (String × Json) :=
  commonFieldAttributes members ++ [("name", name), ("type", type)]

/-- The state in which the parts of a named type are parsed: the name is taken, and what is known of
the type entered. -/
def ParseState.enter (state : ParseState) (entry : String) (members : List (String × Json)) :
    ParseState :=
  ⟨entry :: state.defined, Members.set state.registry entry (.obj members)⟩

def ParseState.replace (state : ParseState) (entry : String) (members : List (String × Json)) :
    ParseState :=
  { state with registry := Members.set state.registry entry (.obj members) }

mutual

/-- A node in a namespace is parsed from one state to another. -/
inductive Parses (expand : Bool) : Json → Json → ParseState → Json → ParseState → Prop where
  | primitive {space : Json} {word : String} {state : ParseState}
      (isPrimitive : word ∈ primitiveNames) :
      Parses expand space (.str word) state (.str word) state
  | reference {space definition : Json} {text name : String} {state : ParseState}
      (notPrimitive : text ∉ primitiveNames)
      (qualified : qualifyReference (.str text) space = .ok (.str name))
      (known : get? state.registry name = some definition)
      (kept : expand = true → mentions definition "name" = .ok false) :
      Parses expand space (.str text) state (.str name) state
  | expansion {space definition : Json} {text name : String} {state : ParseState}
      (notPrimitive : text ∉ primitiveNames)
      (qualified : qualifyReference (.str text) space = .ok (.str name))
      (known : get? state.registry name = some definition)
      (expanded : expand = true) (complete : mentions definition "name" = .ok true) :
      Parses expand space (.str text) state definition state
  | union {space : Json} {branches parsed : List Json} {start stop : ParseState}
      (parts : ParsesBranches expand space branches start parsed stop) :
      Parses expand space (.arr branches) start (.arr parsed) stop
  | primitiveNode {space : Json} {members : List (String × Json)} {word : String}
      {state : ParseState}
      (typeIs : get? members "type" = some (.str word))
      (checked : checkDecimal members (.str word) = .ok ())
      (isPrimitive : word ∈ primitiveNames) :
      Parses expand space (.obj members) state (.obj (commonAttributes members (.str word))) state
  | collection {space node part : Json} {members : List (String × Json)} {word key : String}
      {start stop : ParseState}
      (typeIs : get? members "type" = some (.str word))
      (checked : checkDecimal members (.str word) = .ok ())
      (isCollection : (word, key) ∈ [("array", "items"), ("map", "values")])
      (under : get? members key = some node) (inner : Parses expand space node start part stop) :
      Parses expand space (.obj members) start
        (.obj (commonAttributes members (.str word) ++ [(key, part)])) stop
  | leaf {space innerSpace name value : Json} {members : List (String × Json)}
      {word key entry : String}
      {state : ParseState}
      (typeIs : get? members "type" = some (.str word))
      (checked : checkDecimal members (.str word) = .ok ())
      (isLeaf : (word, key) ∈ [("enum", "symbols"), ("fixed", "size")])
      (named : qualifiedName (.obj members) space = .ok (innerSpace, name))
      (entryIs : registryName name = .ok entry)
      (fresh : entry ∉ state.defined) (under : get? members key = some value) :
      Parses expand space (.obj members) state (.obj (leafMembers members word name key value))
        (state.enter entry (leafMembers members word name key value))
  | record {space innerSpace name : Json} {members : List (String × Json)} {word entry : String}
      {nodes fields : List Json} {start stop : ParseState}
      (typeIs : get? members "type" = some (.str word))
      (checked : checkDecimal members (.str word) = .ok ())
      (isRecord : word ∈ ["record", "error"])
      (named : qualifiedName (.obj members) space = .ok (innerSpace, name))
      (entryIs : registryName name = .ok entry)
      (fresh : entry ∉ start.defined) (nodesAre : fieldNodes? members = some nodes)
      (inner : ParsesFields expand innerSpace nodes
        (start.enter entry (commonAttributes members (.str word))) fields stop) :
      Parses expand space (.obj members) start (.obj (recordMembers members word name fields))
        (stop.replace entry (recordMembers members word name fields))

inductive ParsesBranches (expand : Bool) : Json → List Json → ParseState → List Json →
    ParseState → Prop where
  | nil {space : Json} {state : ParseState} : ParsesBranches expand space [] state [] state
  | cons {space branch parsed : Json} {rest parsedRest : List Json}
      {start between stop : ParseState}
      (first : Parses expand space branch start parsed between)
      (others : ParsesBranches expand space rest between parsedRest stop) :
      ParsesBranches expand space (branch :: rest) start (parsed :: parsedRest) stop

inductive ParsesFields (expand : Bool) : Json → List Json → ParseState → List Json →
    ParseState → Prop where
  | nil {space : Json} {state : ParseState} : ParsesFields expand space [] state [] state
  | cons {space name node type : Json} {members : List (String × Json)}
      {rest parsedRest : List Json}
      {start between stop : ParseState}
      (listed : checkAliases (commonFieldAttributes members) = .ok ())
      (named : get? members "name" = some name) (under : get? members "type" = some node)
      (inner : Parses expand space node start type between)
      (others : ParsesFields expand space rest between parsedRest stop) :
      ParsesFields expand space (.obj members :: rest) start
        (.obj (fieldMembers members name type) :: parsedRest) stop

end

/-! ### The elementary steps of the parser -/

theorem define_ok :
    define name members start = .ok entry stop ↔
      registryName name = .ok entry ∧ entry ∉ start.defined ∧ stop = start.enter entry members := by
  unfold define
  constructor
  · intro defined
    obtain ⟨key, entryIs, checked⟩ := parseLift_bind_ok.mp defined
    obtain ⟨state, _, got, rest⟩ := step_bind_ok.mp checked
    cases got
    split at rest
    · simp [step_bind_ok] at rest
    · rename_i fresh
      cases rest
      exact ⟨entryIs, by simpa using fresh, rfl⟩
  · rintro ⟨entryIs, fresh, rfl⟩
    refine step_bind_ok.mpr ⟨entry, start, parseLift_ok.mpr ⟨entryIs, rfl⟩, ?_⟩
    refine step_bind_ok.mpr ⟨start, start, rfl, ?_⟩
    rw [if_neg (by simpa using fresh)]
    rfl

theorem redefine_ok :
    redefine entry members start = .ok () stop ↔ stop = start.replace entry members := by
  constructor
  · intro replaced
    cases replaced
    rfl
  · rintro rfl
    rfl

theorem ParseState.replace_enter (state : ParseState) (entry : String) (first second : Members) :
    (state.enter entry first).replace entry second = state.enter entry second := by
  simp [ParseState.enter, ParseState.replace, Members.set_set]

private theorem qualifyReference_str {text : String}
    (qualified : qualifyReference (.str text) space = .ok name) : ∃ result, name = .str result := by
  simp only [qualifyReference, mentions] at qualified
  split at qualified
  · cases qualified
    exact ⟨text, rfl⟩
  · split at qualified
    · cases qualified
      exact ⟨_, rfl⟩
    · simp at qualified

theorem parseUnder_ok :
    parseUnder expand space key members start = .ok parsed stop ↔
      ∃ node, get? members key = some node ∧
        parseNode expand space node start = .ok parsed stop := by
  induction members with
  | nil => simp [parseUnder, get?]
  | cons member rest ih =>
    obtain ⟨name, node⟩ := member
    rw [parseUnder, get?_cons]
    by_cases wanted : name = key
    · simp [wanted]
    · simp [wanted, ih]

/-- The fields among attributes are those of the first attribute of that name. -/
theorem fieldNodes?_cons (name : String) (value : Json) (rest : Members) :
    fieldNodes? ((name, value) :: rest) =
      if name = "fields" then fieldNodes? [("fields", value)] else fieldNodes? rest := by
  by_cases wanted : name = "fields"
  · simp [fieldNodes?, get?_cons, wanted]
  · simp [fieldNodes?, get?_cons, wanted]

theorem parseFieldsIn_ok {fields : List Json} :
    parseFieldsIn expand space members start = .ok fields stop ↔
      ∃ nodes, fieldNodes? members = some nodes ∧
        parseFields expand space nodes start = .ok fields stop := by
  induction members with
  | nil => simp [parseFieldsIn, fieldNodes?, get?, parseFields]
  | cons member rest ih =>
    obtain ⟨name, value⟩ := member
    rw [fieldNodes?_cons]
    by_cases wanted : name = "fields"
    · subst wanted
      cases value with
      | arr nodes => simp [parseFieldsIn, fieldNodes?, get?]
      | str text =>
        by_cases blank : text = "" <;> simp [parseFieldsIn, fieldNodes?, get?, blank, parseFields]
      | obj inner =>
        by_cases blank : inner = [] <;> simp [parseFieldsIn, fieldNodes?, get?, blank, parseFields]
      | _ => simp [parseFieldsIn, fieldNodes?, get?]
    · rw [if_neg wanted, ← ih]
      cases value <;> simp [parseFieldsIn, wanted]

/-! ### Agreement of the parser with the rules -/

theorem required_ok {value : Json} :
    required members key = .ok value ↔ get? members key = some value := by
  unfold required
  cases get? members key with
  | none => simp
  | some found => simp

theorem eq_of_keyOf {document key : Json} (done : keyOf document = .ok key) : document = key := by
  cases document with
  | arr items => cases done
  | obj members => cases done
  | _ => cases done; rfl

private theorem parses_of_parseReference {reference : Json}
    (done : parseReference expand space reference start = .ok parsed stop) :
    Parses expand space reference start parsed stop := by
  obtain ⟨primitive, primitiveIs, rest⟩ := parseLift_bind_ok.mp done
  cases reference with
  | str text =>
    cases primitiveIs
    by_cases isPrimitive : text ∈ primitiveNames
    · rw [if_pos (by simpa using isPrimitive)] at rest
      cases rest
      exact .primitive isPrimitive
    · rw [if_neg (by simpa using isPrimitive)] at rest
      obtain ⟨name, qualified, rest⟩ := parseLift_bind_ok.mp rest
      obtain ⟨result, rfl⟩ := qualifyReference_str qualified
      obtain ⟨key, keyIs, rest⟩ := parseLift_bind_ok.mp rest
      cases keyIs
      obtain ⟨state, _, got, rest⟩ := step_bind_ok.mp rest
      cases got
      cases known : get? start.registry result with
      | none => simp [known] at rest
      | some definition =>
        rw [known] at rest
        cases expanded : expand with
        | false =>
          rw [expanded] at rest
          cases rest
          exact .reference isPrimitive qualified known (by simp)
        | true =>
          rw [expanded] at rest
          obtain ⟨complete, completeIs, rest⟩ := parseLift_bind_ok.mp rest
          cases complete with
          | false =>
            cases rest
            exact .reference isPrimitive qualified known fun _ => completeIs
          | true =>
            cases rest
            exact .expansion isPrimitive qualified known rfl completeIs
  | arr items => simp [isPrimitive] at primitiveIs
  | obj members => simp [isPrimitive] at primitiveIs
  | _ =>
    cases primitiveIs
    obtain ⟨name, _, qualifiedDone, -⟩ := step_bind_ok.mp rest
    exact absurd (parseLift_ok.mp qualifiedDone).1 (by simp [qualifyReference, mentions])

theorem parseLeafDefinition_ok :
    parseLeafDefinition space members (commonAttributes members (.str word)) key start =
      .ok parsed stop ↔
      ∃ innerSpace name entry value, qualifiedName (.obj members) space = .ok (innerSpace, name) ∧
        registryName name = .ok entry ∧ entry ∉ start.defined ∧ get? members key = some value ∧
        parsed = .obj (leafMembers members word name key value) ∧
        stop = start.enter entry (leafMembers members word name key value) := by
  constructor
  · intro done
    obtain ⟨⟨innerSpace, name⟩, named, rest⟩ := parseLift_bind_ok.mp done
    obtain ⟨entry, _, defined, rest⟩ := step_bind_ok.mp rest
    obtain ⟨entryIs, fresh, rfl⟩ := define_ok.mp defined
    obtain ⟨_, _, redefined, rest⟩ := step_bind_ok.mp rest
    cases redefine_ok.mp redefined
    obtain ⟨value, under, rest⟩ := parseLift_bind_ok.mp rest
    obtain ⟨_, _, redefined, rest⟩ := step_bind_ok.mp rest
    cases redefine_ok.mp redefined
    cases rest
    refine ⟨innerSpace, name, entry, value, named, entryIs, fresh, required_ok.mp under, rfl, ?_⟩
    rw [ParseState.replace_enter, ParseState.replace_enter]
    rfl
  · rintro ⟨innerSpace, name, entry, value, named, entryIs, fresh, under, rfl, rfl⟩
    refine parseLift_bind_ok.mpr ⟨_, named, ?_⟩
    refine step_bind_ok.mpr ⟨_, _, define_ok.mpr ⟨entryIs, fresh, rfl⟩, ?_⟩
    refine step_bind_ok.mpr ⟨_, _, redefine_ok.mpr rfl, ?_⟩
    refine parseLift_bind_ok.mpr ⟨_, required_ok.mpr under, ?_⟩
    refine step_bind_ok.mpr ⟨_, _, redefine_ok.mpr rfl, ?_⟩
    rw [ParseState.replace_enter, ParseState.replace_enter]
    rfl

theorem parseRecordDefinition_ok {parseParts : Json → ParseM (List Json)} :
    parseRecordDefinition space members (commonAttributes members (.str word)) parseParts start =
      .ok parsed stop ↔
      ∃ innerSpace name entry fields between, qualifiedName (.obj members) space =
        .ok (innerSpace, name) ∧
        registryName name = .ok entry ∧ entry ∉ start.defined ∧
        parseParts innerSpace (start.enter entry (commonAttributes members (.str word))) =
          .ok fields between ∧
        parsed = .obj (recordMembers members word name fields) ∧
        stop = between.replace entry (recordMembers members word name fields) := by
  constructor
  · intro done
    obtain ⟨⟨innerSpace, name⟩, named, rest⟩ := parseLift_bind_ok.mp done
    obtain ⟨entry, _, defined, rest⟩ := step_bind_ok.mp rest
    obtain ⟨entryIs, fresh, rfl⟩ := define_ok.mp defined
    obtain ⟨fields, between, inner, rest⟩ := step_bind_ok.mp rest
    obtain ⟨_, _, redefined, rest⟩ := step_bind_ok.mp rest
    cases redefine_ok.mp redefined
    cases rest
    exact ⟨innerSpace, name, entry, fields, between, named, entryIs, fresh, inner, rfl, rfl⟩
  · rintro ⟨innerSpace, name, entry, fields, between, named, entryIs, fresh, inner, rfl, rfl⟩
    refine parseLift_bind_ok.mpr ⟨_, named, ?_⟩
    refine step_bind_ok.mpr ⟨_, _, define_ok.mpr ⟨entryIs, fresh, rfl⟩, ?_⟩
    refine step_bind_ok.mpr ⟨_, _, inner, ?_⟩
    exact step_bind_ok.mpr ⟨_, _, redefine_ok.mpr rfl, rfl⟩

private theorem isPrimitive_eq_true {type : Json} (primitive : isPrimitive type = .ok true) :
    ∃ word, type = .str word ∧ word ∈ primitiveNames := by
  cases type with
  | str word => exact ⟨word, rfl, by simpa [isPrimitive] using primitive⟩
  | _ => simp [isPrimitive] at primitive

/-- The nodes of the fields are those under the attribute, or there are none. -/
theorem fieldNodes?_eq_some (found : fieldNodes? members = some nodes) :
    nodes = [] ∨ get? members "fields" = some (.arr nodes) := by
  unfold fieldNodes? at found
  split at found
  · exact Or.inl (Option.some.inj found).symm
  · rename_i present
    cases found
    exact Or.inr present
  · split at found
    · exact Or.inl (Option.some.inj found).symm
    · simp at found
  · split at found
    · exact Or.inl (Option.some.inj found).symm
    · simp at found
  · simp at found

private theorem sizeOf_lt_of_fieldNodes? (found : fieldNodes? members = some nodes) :
    sizeOf nodes < 1 + sizeOf members := by
  rcases fieldNodes?_eq_some found with rfl | present
  · cases members <;> simp
  · have smaller := sizeOf_lt_of_get? present
    simp at smaller
    omega

theorem parseField_ok {field : Json} :
    parseField expand space field start = .ok parsed stop ↔
      ∃ members name node type, field = .obj members ∧
        checkAliases (commonFieldAttributes members) = .ok () ∧
        get? members "name" = some name ∧ get? members "type" = some node ∧
        parseNode expand space node start = .ok type stop ∧
        parsed = .obj (fieldMembers members name type) := by
  cases field with
  | obj members =>
    rw [parseField]
    constructor
    · intro done
      obtain ⟨_, listed, done⟩ := parseLift_bind_ok.mp done
      obtain ⟨name, named, done⟩ := parseLift_bind_ok.mp done
      obtain ⟨type, _, typeDone, done⟩ := step_bind_ok.mp done
      obtain ⟨node, under, inner⟩ := parseUnder_ok.mp typeDone
      cases done
      exact ⟨members, name, node, type, rfl, listed, required_ok.mp named, under, inner, rfl⟩
    · rintro ⟨_, name, node, type, ⟨⟩, listed, named, under, inner, rfl⟩
      refine step_bind_ok.mpr ⟨(), start, parseLift_ok.mpr ⟨listed, rfl⟩, ?_⟩
      refine parseLift_bind_ok.mpr ⟨_, required_ok.mpr named, ?_⟩
      exact step_bind_ok.mpr ⟨_, _, parseUnder_ok.mpr ⟨node, under, inner⟩, rfl⟩
  | _ => simp [parseField]

mutual

/-- What the parser does on success is derivable, by recursion on the node. -/
theorem parses_of_parseNode {expand : Bool} {space node parsed : Json} {start stop : ParseState}
    (done : parseNode expand space node start = .ok parsed stop) :
    Parses expand space node start parsed stop := by
  match node, done with
  | .arr branches, done =>
    rw [parseNode] at done
    obtain ⟨parts, _, partsDone, rest⟩ := step_bind_ok.mp done
    cases rest
    exact .union (parsesBranches_of_parseBranches partsDone)
  | .obj members, done =>
    rw [parseNode] at done
    obtain ⟨type, typeIs, rest⟩ := parseLift_bind_ok.mp done
    obtain ⟨_, checked, rest⟩ := parseLift_bind_ok.mp rest
    have typeFound := required_ok.mp typeIs
    split at rest
    case h_1 | h_2 =>
      obtain ⟨part, _, partDone, rest⟩ := step_bind_ok.mp rest
      obtain ⟨node, under, inner⟩ := parseUnder_ok.mp partDone
      cases rest
      have := sizeOf_lt_of_get? under
      exact .collection typeFound checked (by simp) under (parses_of_parseNode inner)
    case h_3 | h_4 =>
      obtain ⟨_, name, entry, value, named, entryIs, fresh, under, rfl, rfl⟩ :=
        parseLeafDefinition_ok.mp rest
      exact .leaf typeFound checked (by simp) named entryIs fresh under
    case h_5 | h_6 =>
      obtain ⟨_, name, entry, fields, _, named, entryIs, fresh, fieldsDone, rfl, rfl⟩ :=
        parseRecordDefinition_ok.mp rest
      obtain ⟨nodes, nodesAre, inner⟩ := parseFieldsIn_ok.mp fieldsDone
      have := sizeOf_lt_of_fieldNodes? nodesAre
      exact .record typeFound checked (by simp) named entryIs fresh nodesAre
        (parsesFields_of_parseFields inner)
    case h_7 =>
      obtain ⟨primitive, primitiveIs, rest⟩ := parseLift_bind_ok.mp rest
      cases primitive with
      | false => simp at rest
      | true =>
        cases rest
        obtain ⟨word, rfl, isPrimitive⟩ := isPrimitive_eq_true primitiveIs
        exact .primitiveNode typeFound checked isPrimitive
  | .null, done | .bool _, done | .int _, done | .float _, done | .str _, done =>
    exact parses_of_parseReference (by simpa only [parseNode] using done)
termination_by sizeOf node

theorem parsesBranches_of_parseBranches {expand : Bool} {space : Json} {branches parsed : List Json}
    {start stop : ParseState} (done : parseBranches expand space branches start = .ok parsed stop) :
    ParsesBranches expand space branches start parsed stop := by
  match branches, done with
  | [], done =>
    rw [parseBranches] at done
    cases done
    exact .nil
  | branch :: rest, done =>
    rw [parseBranches] at done
    obtain ⟨first, _, firstDone, done⟩ := step_bind_ok.mp done
    obtain ⟨others, _, othersDone, done⟩ := step_bind_ok.mp done
    cases done
    exact .cons (parses_of_parseNode firstDone) (parsesBranches_of_parseBranches othersDone)
termination_by sizeOf branches

theorem parsesFields_of_parseFields {expand : Bool} {space : Json} {fields parsed : List Json}
    {start stop : ParseState} (done : parseFields expand space fields start = .ok parsed stop) :
    ParsesFields expand space fields start parsed stop := by
  match fields, done with
  | [], done =>
    rw [parseFields] at done
    cases done
    exact .nil
  | field :: rest, done =>
    rw [parseFields] at done
    obtain ⟨first, _, firstDone, done⟩ := step_bind_ok.mp done
    obtain ⟨others, _, othersDone, done⟩ := step_bind_ok.mp done
    cases done
    obtain ⟨members, name, node, type, fieldIs, listed, named, under, inner, rfl⟩ :=
      parseField_ok.mp firstDone
    have smaller : sizeOf node < sizeOf field := by
      have := sizeOf_lt_of_get? under
      simp only [fieldIs, Json.obj.sizeOf_spec]
      omega
    rw [fieldIs]
    exact .cons listed named under (parses_of_parseNode inner)
      (parsesFields_of_parseFields othersDone)
termination_by sizeOf fields

end

/-! ### Equations of the parser -/

section Equations

variable {expand : Bool} {space innerSpace node name value : Json} {members common : Members}
  {word key : String}
variable {nodes : List Json} {state : ParseState}

theorem parseUnder_of_get? (found : get? members key = some node) :
    parseUnder expand space key members = parseNode expand space node := by
  induction members with
  | nil => cases found
  | cons member rest ih =>
    obtain ⟨other, otherNode⟩ := member
    rw [get?_cons] at found
    rw [parseUnder]
    by_cases wanted : other = key
    · rw [if_pos wanted] at found ⊢
      cases found
      rfl
    · rw [if_neg wanted] at found ⊢
      exact ih found

private theorem parseFieldsIn_of_fieldNodes? (nodesAre : fieldNodes? members = some nodes) :
    parseFieldsIn expand space members = parseFields expand space nodes := by
  induction members with
  | nil =>
    cases nodesAre
    rfl
  | cons member rest ih =>
    obtain ⟨other, otherValue⟩ := member
    rw [fieldNodes?_cons] at nodesAre
    by_cases wanted : other = "fields"
    · subst wanted
      cases otherValue with
      | arr fields => simp_all [parseFieldsIn, fieldNodes?, get?]
      | str text =>
        by_cases blank : text = ""
        · simp_all [parseFieldsIn, fieldNodes?, get?, parseFields]
        · simp_all [fieldNodes?, get?]
      | obj inner =>
        by_cases blank : inner = []
        · simp_all [parseFieldsIn, fieldNodes?, get?, parseFields]
        · simp_all [fieldNodes?, get?]
      | _ => simp_all [fieldNodes?, get?]
    · rw [if_neg wanted] at nodesAre
      rw [← ih nodesAre]
      cases otherValue <;> simp [parseFieldsIn, wanted]

section

variable (typeIs : get? members "type" = some (.str word))
  (checked : checkDecimal members (.str word) = .ok ())
include typeIs checked

theorem parseNode_primitive (isPrimitive : word ∈ primitiveNames) :
    parseNode expand space (.obj members) = pure (.obj (commonAttributes members (.str word))) := by
  funext state
  rw [parseNode]
  refine (step_bind_of_ok (parseLift_ok.mpr ⟨required_ok.mpr typeIs, rfl⟩)).trans ?_
  refine (step_bind_of_ok (parseLift_ok.mpr ⟨checked, rfl⟩)).trans ?_
  simp only [primitiveNames, List.mem_cons, List.not_mem_nil, or_false] at isPrimitive
  rcases isPrimitive with rfl | rfl | rfl | rfl | rfl | rfl | rfl | rfl <;> rfl

theorem parseNode_collection (isCollection : (word, key) ∈ [("array", "items"), ("map", "values")])
    (under : get? members key = some node) :
    parseNode expand space (.obj members) = parseNode expand space node >>= fun part =>
      pure (.obj (commonAttributes members (.str word) ++ [(key, part)])) := by
  funext state
  rw [parseNode, ← parseUnder_of_get? under]
  refine (step_bind_of_ok (parseLift_ok.mpr ⟨required_ok.mpr typeIs, rfl⟩)).trans ?_
  refine (step_bind_of_ok (parseLift_ok.mpr ⟨checked, rfl⟩)).trans ?_
  rcases Members.mem_pairs.mp isCollection with ⟨rfl, rfl⟩ | ⟨rfl, rfl⟩ <;> rfl

/-- Enumerations and fixed types are parsed as definitions without parts. -/
theorem parseNode_leaf (isLeaf : (word, key) ∈ [("enum", "symbols"), ("fixed", "size")]) :
    parseNode expand space (.obj members) =
      parseLeafDefinition space members (commonAttributes members (.str word)) key := by
  funext state
  rw [parseNode]
  refine (step_bind_of_ok (parseLift_ok.mpr ⟨required_ok.mpr typeIs, rfl⟩)).trans ?_
  refine (step_bind_of_ok (parseLift_ok.mpr ⟨checked, rfl⟩)).trans ?_
  rcases Members.mem_pairs.mp isLeaf with ⟨rfl, rfl⟩ | ⟨rfl, rfl⟩ <;> rfl

/-- A record is parsed as a definition whose fields are parsed within its own namespace. -/
theorem parseNode_record (isRecord : word ∈ ["record", "error"]) :
    parseNode expand space (.obj members) =
      parseRecordDefinition space members (commonAttributes members (.str word))
      fun inner => parseFieldsIn expand inner members := by
  funext state
  rw [parseNode]
  refine (step_bind_of_ok (parseLift_ok.mpr ⟨required_ok.mpr typeIs, rfl⟩)).trans ?_
  refine (step_bind_of_ok (parseLift_ok.mpr ⟨checked, rfl⟩)).trans ?_
  rcases List.mem_pair.mp isRecord with rfl | rfl <;> rfl

end

/-- Enters an enumeration or a fixed type, first without its attribute. -/
def enterLeaf (name : Json) (common : List (String × Json)) (key : String) (value : Json) :
    ParseM Json := do
  let entry ← define name common
  redefine entry (common ++ [("name", name)])
  redefine entry (common ++ [("name", name), (key, value)])
  return .obj (common ++ [("name", name), (key, value)])

/-- Enters a record, first without its fields. -/
def enterRecord (name : Json) (common : List (String × Json)) (parseParts : ParseM (List Json)) :
    ParseM Json := do
  let entry ← define name common
  let fields ← parseParts
  redefine entry (common ++ [("name", name), ("fields", .arr fields)])
  return .obj (common ++ [("name", name), ("fields", .arr fields)])

theorem parseLeafDefinition_of_named
    (named : qualifiedName (.obj members) space = .ok (innerSpace, name))
    (under : get? members key = some value) :
    parseLeafDefinition space members common key = enterLeaf name common key value := by
  rw [parseLeafDefinition, named, required_ok.mpr under]
  rfl

theorem parseRecordDefinition_of_named
    (named : qualifiedName (.obj members) space = .ok (innerSpace, name))
    (nodesAre : fieldNodes? members = some nodes) :
    (parseRecordDefinition space members common fun inner => parseFieldsIn expand inner members) =
      enterRecord name common (parseFields expand innerSpace nodes) := by
  rw [parseRecordDefinition, named, ← parseFieldsIn_of_fieldNodes? nodesAre]
  rfl

/-- What is done with a reference once its full name is known. -/
def lookUp (expand : Bool) (name : Json) (key : String) : ParseM Json := do
  match get? (← get).registry key with
  | none => throw (.unknownType name)
  | some definition =>
    if expand then
      if ← ParseM.lift (mentions definition "name") then return definition else return name
    else return name

/-- A word that is no primitive type is looked up under its qualified name. -/
theorem parseNode_reference {text name : String} (notPrimitive : text ∉ primitiveNames)
    (qualified : qualifyReference (.str text) space = .ok (.str name)) :
    parseNode expand space (.str text) = lookUp expand (.str name) name := by
  have isReference : isPrimitive (.str text) = .ok false := by simp [isPrimitive, notPrimitive]
  change parseReference expand space (.str text) = lookUp expand (.str name) name
  funext state
  unfold parseReference
  rw [step_bind_of_ok (parseLift_ok.mpr ⟨isReference, rfl⟩), if_neg Bool.false_ne_true,
    step_bind_of_ok (parseLift_ok.mpr ⟨qualified, rfl⟩)]
  exact step_bind_of_ok (parseLift_ok.mpr ⟨rfl, rfl⟩)

theorem lookUp_known {definition : Json} (found : get? state.registry key = some definition) :
    lookUp expand name key state = (if expand then do
      if ← ParseM.lift (mentions definition "name") then return definition else return name
    else return name : ParseM Json) state := by
  refine (step_bind_of_ok rfl).trans ?_
  simp only [found]

theorem lookUp_unknown (absent : get? state.registry key = none) :
    lookUp expand name key state = .error (.unknownType name) state := by
  refine (step_bind_of_ok rfl).trans ?_
  simp only [absent]
  rfl

theorem parseNode_word (isPrimitive : word ∈ primitiveNames) :
    parseNode expand space (.str word) = pure (.str word) := by
  have isWord : Schema.isPrimitive (.str word) = .ok true := by
    simp [Schema.isPrimitive, isPrimitive]
  change parseReference expand space (.str word) = pure (.str word)
  funext state
  unfold parseReference
  rw [step_bind_of_ok (parseLift_ok.mpr ⟨isWord, rfl⟩), if_pos rfl]

theorem parseField_of_parts (listed : checkAliases (commonFieldAttributes members) = .ok ())
    (named : get? members "name" = some name) (under : get? members "type" = some node) :
    parseField expand space (.obj members) = parseNode expand space node >>= fun type =>
      pure (.obj (fieldMembers members name type)) := by
  funext state
  rw [parseField, parseUnder_of_get? under]
  refine (step_bind_of_ok (parseLift_ok.mpr ⟨listed, rfl⟩)).trans ?_
  exact step_bind_of_ok (parseLift_ok.mpr ⟨required_ok.mpr named, rfl⟩)

end Equations

mutual

/-- What is derivable is what the parser does, by recursion on the derivation. -/
theorem Parses.parseNode {expand : Bool} {space node parsed : Json} {start stop : ParseState} :
    Parses expand space node start parsed stop →
    Schema.parseNode expand space node start = .ok parsed stop
  | .primitive isPrimitive => by
    rw [parseNode_word isPrimitive]
    rfl
  | .reference notPrimitive qualified known kept => by
    rw [parseNode_reference notPrimitive qualified, lookUp_known known]
    cases expand with
    | false => rfl
    | true => exact step_bind_of_ok (parseLift_ok.mpr ⟨kept rfl, rfl⟩)
  | .expansion notPrimitive qualified known expanded complete => by
    rw [parseNode_reference notPrimitive qualified, lookUp_known known, if_pos expanded]
    exact step_bind_of_ok (parseLift_ok.mpr ⟨complete, rfl⟩)
  | .union parts => by
    rw [Schema.parseNode]
    exact step_bind_ok.mpr ⟨_, _, parts.parseBranches, rfl⟩
  | .primitiveNode typeIs checked isPrimitive => by
    rw [parseNode_primitive typeIs checked isPrimitive]
    rfl
  | .collection typeIs checked isCollection under inner => by
    rw [parseNode_collection typeIs checked isCollection under]
    exact step_bind_ok.mpr ⟨_, _, inner.parseNode, rfl⟩
  | .leaf typeIs checked isLeaf named entryIs fresh under => by
    rw [parseNode_leaf typeIs checked isLeaf]
    exact parseLeafDefinition_ok.mpr ⟨_, _, _, _, named, entryIs, fresh, under, rfl, rfl⟩
  | .record typeIs checked isRecord named entryIs fresh nodesAre inner => by
    have fieldsDone := parseFieldsIn_ok.mpr ⟨_, nodesAre, inner.parseFields⟩
    rw [parseNode_record typeIs checked isRecord]
    exact parseRecordDefinition_ok.mpr ⟨_, _, _, _, _, named, entryIs, fresh, fieldsDone, rfl, rfl⟩

theorem ParsesBranches.parseBranches {expand : Bool} {space : Json} {branches parsed : List Json}
    {start stop : ParseState} :
    ParsesBranches expand space branches start parsed stop →
      Schema.parseBranches expand space branches start = .ok parsed stop
  | .nil => rfl
  | .cons first others => by
    rw [Schema.parseBranches]
    exact step_bind_ok.mpr ⟨_, _, first.parseNode,
      step_bind_ok.mpr ⟨_, _, others.parseBranches, rfl⟩⟩

theorem ParsesFields.parseFields {expand : Bool} {space : Json} {fields parsed : List Json}
    {start stop : ParseState} :
    ParsesFields expand space fields start parsed stop →
    Schema.parseFields expand space fields start = .ok parsed stop
  | .nil => rfl
  | .cons listed named under inner others => by
    rw [Schema.parseFields]
    refine step_bind_ok.mpr ⟨_, _, ?_, step_bind_ok.mpr ⟨_, _, others.parseFields, rfl⟩⟩
    exact parseField_ok.mpr ⟨_, _, _, _, rfl, listed, named, under, inner.parseNode, rfl⟩

end

end Avro.Schema
