import Avro.Proofs.Marking

/-!
Contract: schemas that differ in their documentation only.

Owns: `Redocumented`, the relation of a schema to the schemas that one gets by adding, removing and
changing `doc` attributes of its nodes and fields at any depth, and its preservation by parsing.

Defaults, symbols and attributes without a meaning are data, not nodes: documentation within them is
part of their value, and has to stay.
-/

namespace Avro.Schema

variable {left right : Members} {name : String} {registry otherRegistry after : Registry}
  {schema parsed other : Json} {draft : Draft} {nodes : List Json} {definition : Json}
  {leftMembers rightMembers : Members}

/-- The attributes that hold a schema node. -/
def nodeKeys : List String := ["type", "items", "values"]

mutual

/-- Two documents that differ in the documentation of schema nodes and fields only. -/
inductive Redocumented : Json → Json → Prop where
  | same (document : Json) : Redocumented document document
  | arr {left right : List Json} (items : RedocumentedItems left right) :
      Redocumented (.arr left) (.arr right)
  | obj {left right : List (String × Json)} (members : RedocumentedMembers left right) :
      Redocumented (.obj left) (.obj right)

inductive RedocumentedItems : List Json → List Json → Prop where
  | nil : RedocumentedItems [] []
  | cons {left right : Json} {lefts rights : List Json} (first : Redocumented left right)
      (others : RedocumentedItems lefts rights) :
      RedocumentedItems (left :: lefts) (right :: rights)

/-- Documentation may stand among the members of either side. The registry that a parsed schema is
marked with holds the types once more, with their documentation. -/
inductive RedocumentedMembers : List (String × Json) → List (String × Json) → Prop where
  | nil : RedocumentedMembers [] []
  | kept {lefts rights : List (String × Json)} (key : String) (value : Json)
      (others : RedocumentedMembers lefts rights) :
      RedocumentedMembers ((key, value) :: lefts) ((key, value) :: rights)
  | node {left right : Json} {lefts rights : List (String × Json)} (key : String)
      (isNode : key ∈ nodeKeys)
      (value : Redocumented left right) (others : RedocumentedMembers lefts rights) :
      RedocumentedMembers ((key, left) :: lefts) ((key, right) :: rights)
  | fields {left right : List Json} {lefts rights : List (String × Json)}
      (nodes : RedocumentedItems left right)
      (others : RedocumentedMembers lefts rights) :
      RedocumentedMembers (("fields", .arr left) :: lefts) (("fields", .arr right) :: rights)
  | mark {left right : Registry} {lefts rights : List (String × Json)}
      (registries : RedocumentedRegistries left right)
      (others : RedocumentedMembers lefts rights) :
      RedocumentedMembers ((registryKey, .obj left) :: lefts) ((registryKey, .obj right) :: rights)
  | added {lefts rights : List (String × Json)} (doc : Json)
      (others : RedocumentedMembers lefts rights) :
      RedocumentedMembers lefts (("doc", doc) :: rights)
  | removed {lefts rights : List (String × Json)} (doc : Json)
      (others : RedocumentedMembers lefts rights) :
      RedocumentedMembers (("doc", doc) :: lefts) rights

/-- Two registries that have the same types, up to documentation. -/
inductive RedocumentedRegistries : Registry → Registry → Prop where
  | nil : RedocumentedRegistries [] []
  | cons {left right : Json} {lefts rights : Registry} (name : String)
      (first : Redocumented left right)
      (others : RedocumentedRegistries lefts rights) :
      RedocumentedRegistries ((name, left) :: lefts) ((name, right) :: rights)

end

theorem RedocumentedItems.refl (items : List Json) : RedocumentedItems items items := by
  induction items with
  | nil => exact .nil
  | cons item rest ih => exact .cons (.same item) ih

theorem RedocumentedMembers.refl (members : Members) : RedocumentedMembers members members := by
  induction members with
  | nil => exact .nil
  | cons member rest ih => exact .kept member.1 member.2 ih

theorem RedocumentedRegistries.refl :
    ∀ registry : Registry, RedocumentedRegistries registry registry
  | [] => .nil
  | (name, definition) :: rest => .cons name (.same definition) (refl rest)

theorem Redocumented.text {text : String} {other : Json}
    (redocumented : Redocumented (.str text) other) : other = .str text := by
  cases redocumented
  rfl

theorem Redocumented.items {items : List Json} {other : Json}
    (redocumented : Redocumented (.arr items) other) :
    ∃ others, other = .arr others ∧ RedocumentedItems items others := by
  cases redocumented with
  | same => exact ⟨items, rfl, .refl items⟩
  | arr items => exact ⟨_, rfl, items⟩

theorem Redocumented.members {members : Members} {other : Json}
    (redocumented : Redocumented (.obj members) other) :
    ∃ others, other = .obj others ∧ RedocumentedMembers members others := by
  cases redocumented with
  | same => exact ⟨members, rfl, .refl members⟩
  | obj members => exact ⟨_, rfl, members⟩

/-! ### Lookup -/

/-- How the values under a key are related that is not the one for documentation. -/
inductive RedocumentedUnder (key : String) : Json → Json → Prop where
  | kept (value : Json) : RedocumentedUnder key value value
  | node {left right : Json} (isNode : key ∈ nodeKeys) (value : Redocumented left right) :
      RedocumentedUnder key left right
  | fields {left right : List Json} (isFields : key = "fields")
      (fields : RedocumentedItems left right) :
      RedocumentedUnder key (.arr left) (.arr right)
  | mark {left right : Registry} (isMark : key = registryKey)
      (registries : RedocumentedRegistries left right) :
      RedocumentedUnder key (.obj left) (.obj right)

private theorem get?_cons_cons {relates : Json → Json → Prop} {key : String}
    {leftValue rightValue : Json} (value : name = key → relates leftValue rightValue)
    (others : Option.Rel relates (Members.get? left key) (Members.get? right key)) :
    Option.Rel relates (Members.get? ((name, leftValue) :: left) key)
      (Members.get? ((name, rightValue) :: right) key) := by
  rw [Members.get?_cons, Members.get?_cons]
  by_cases wanted : name = key
  · rw [if_pos wanted, if_pos wanted]
    exact .some (value wanted)
  · rw [if_neg wanted, if_neg wanted]
    exact others

/-- Attributes other than documentation are found on both sides or on neither. -/
theorem RedocumentedMembers.get? (key : String) (notDoc : key ≠ "doc") : ∀ {left right : Members},
    RedocumentedMembers left right →
      Option.Rel (RedocumentedUnder key) (Members.get? left key) (Members.get? right key)
  | _, _, .nil => .none
  | _, _, .kept name value others => get?_cons_cons (fun _ => .kept value) (others.get? key notDoc)
  | _, _, .node name isNode value others =>
    get?_cons_cons (fun same => .node (same ▸ isNode) value) (others.get? key notDoc)
  | _, _, .fields nodes others =>
    get?_cons_cons (fun same => .fields same.symm nodes) (others.get? key notDoc)
  | _, _, .mark registries others =>
    get?_cons_cons (fun same => .mark same.symm registries) (others.get? key notDoc)
  | _, _, .added doc others | _, _, .removed doc others => by
    rw [Members.get?_cons ("doc", doc), if_neg (Ne.symm notDoc)]
    exact others.get? key notDoc

section Lookup

variable {left right : Members} {key : String} {value : Json}
variable {word : String}

section

variable (members : RedocumentedMembers left right)
include members

/-- An attribute that is neither documentation nor a node is the same on both sides. -/
theorem RedocumentedMembers.get?_kept (key : String)
    (plain : key ∉ ["doc", "fields", registryKey] ++ nodeKeys) :
    Members.get? right key = Members.get? left key := by
  simp only [List.mem_append, List.mem_cons, List.not_mem_nil, or_false, not_or] at plain
  have related := members.get? key plain.1.1
  generalize Members.get? left key = leftFound at related ⊢
  generalize Members.get? right key = rightFound at related ⊢
  cases related with
  | none => rfl
  | some under =>
    cases under with
    | kept value => rfl
    | node isNode value => exact absurd isNode plain.2
    | fields isFields fields => exact absurd isFields plain.1.2.1
    | mark isMark => exact absurd isMark plain.1.2.2

theorem RedocumentedMembers.get?_node (isNode : key ∈ nodeKeys)
    (found : Members.get? left key = some value) :
    ∃ other, Members.get? right key = some other ∧ Redocumented value other := by
  have notDoc : ∀ name ∈ nodeKeys, name ≠ "doc" ∧ name ≠ "fields" ∧ name ≠ registryKey := by decide
  have related := members.get? key (notDoc key isNode).1
  rw [found] at related
  generalize Members.get? right key = rightFound at related ⊢
  cases related with
  | some under =>
    cases under with
    | kept => exact ⟨_, rfl, .same _⟩
    | node _ redocumented => exact ⟨_, rfl, redocumented⟩
    | fields isFields => exact absurd isFields (notDoc key isNode).2.1
    | mark isMark => exact absurd isMark (notDoc key isNode).2.2

theorem RedocumentedMembers.get?_type (found : Members.get? left "type" = some (.str word)) :
    Members.get? right "type" = some (.str word) := by
  obtain ⟨other, otherFound, redocumented⟩ := members.get?_node (by decide) found
  rw [otherFound, redocumented.text]

theorem RedocumentedMembers.get?_type_iff :
    Members.get? left "type" = some (.str word) ↔ Members.get? right "type" = some (.str word) := by
  refine ⟨members.get?_type, fun found => ?_⟩
  have related := members.get? "type" (by decide)
  rw [found] at related
  generalize Members.get? left "type" = leftFound at related ⊢
  cases related with
  | some under =>
    cases under with
    | kept => rfl
    | node _ value =>
      cases value
      rfl

theorem RedocumentedMembers.get?_fields (found : Members.get? left "fields" = some (.arr nodes)) :
    ∃ others, Members.get? right "fields" = some (.arr others) ∧
      RedocumentedItems nodes others := by
  have related := members.get? "fields" (by decide)
  rw [found] at related
  generalize Members.get? right "fields" = rightFound at related ⊢
  cases related with
  | some under =>
    cases under with
    | kept => exact ⟨_, rfl, .refl _⟩
    | node isNode => exact absurd isNode (by decide)
    | fields _ fields => exact ⟨_, rfl, fields⟩

theorem RedocumentedMembers.get?_registry {entries : Registry}
    (found : Members.get? left registryKey = some (.obj entries)) :
    ∃ others, Members.get? right registryKey = some (.obj others) ∧
      RedocumentedRegistries entries others := by
  have related := members.get? registryKey (by decide)
  rw [found] at related
  generalize Members.get? right registryKey = rightFound at related ⊢
  cases related with
  | some under =>
    cases under with
    | kept => exact ⟨_, rfl, .refl _⟩
    | node isNode => exact absurd isNode (by decide)
    | mark _ registries => exact ⟨_, rfl, registries⟩

theorem RedocumentedMembers.fieldNodes (nodesAre : fieldNodes? left = some nodes) :
    ∃ others, fieldNodes? right = some others ∧ RedocumentedItems nodes others := by
  have related := members.get? "fields" (by decide)
  unfold fieldNodes? at nodesAre ⊢
  generalize Members.get? left "fields" = leftFound at related nodesAre
  generalize Members.get? right "fields" = rightFound at related ⊢
  cases related with
  | none => exact ⟨nodes, nodesAre, .refl nodes⟩
  | some under =>
    cases under with
    | kept => exact ⟨nodes, nodesAre, .refl nodes⟩
    | node isNode => exact absurd isNode (by decide)
    | fields _ fields =>
      cases nodesAre
      exact ⟨_, rfl, fields⟩
    | mark isMark => exact absurd isMark (by decide)

end

end Lookup

/-! ### The parts of parsed nodes -/

theorem RedocumentedMembers.filter (select : String → Bool) : ∀ {left right : Members},
    RedocumentedMembers left right →
      RedocumentedMembers (left.filter fun member => select member.1)
        (right.filter fun member => select member.1)
  | _, _, .nil => .nil
  | _, _, .kept key value others => by
    rw [List.filter_cons, List.filter_cons]
    cases selected : select key with
    | true => exact .kept key value (others.filter select)
    | false => exact others.filter select
  | _, _, .node key isNode value others => by
    rw [List.filter_cons, List.filter_cons]
    cases selected : select key with
    | true => exact .node key isNode value (others.filter select)
    | false => exact others.filter select
  | _, _, .fields nodes others => by
    rw [List.filter_cons, List.filter_cons]
    cases selected : select "fields" with
    | true => exact .fields nodes (others.filter select)
    | false => exact others.filter select
  | _, _, .mark registries others => by
    rw [List.filter_cons, List.filter_cons]
    cases selected : select registryKey with
    | true => exact .mark registries (others.filter select)
    | false => exact others.filter select
  | _, _, .added doc others => by
    rw [List.filter_cons]
    cases selected : select "doc" with
    | true => exact .added doc (others.filter select)
    | false => exact others.filter select
  | _, _, .removed doc others => by
    rw [List.filter_cons]
    cases selected : select "doc" with
    | true => exact .removed doc (others.filter select)
    | false => exact others.filter select

theorem RedocumentedMembers.append {front back : Members}
    (following : RedocumentedMembers front back) :
    ∀ {left right : Members}, RedocumentedMembers left right →
      RedocumentedMembers (left ++ front) (right ++ back)
  | _, _, .nil => following
  | _, _, .kept key value others => .kept key value (append following others)
  | _, _, .node key isNode value others => .node key isNode value (append following others)
  | _, _, .fields nodes others => .fields nodes (append following others)
  | _, _, .mark registries others => .mark registries (append following others)
  | _, _, .added doc others => .added doc (append following others)
  | _, _, .removed doc others => .removed doc (append following others)

section Parts

variable {left right : Members} {fields otherFields : List Json} {value other : Json}

section

variable (members : RedocumentedMembers left right)
include members

/-- What a parse keeps of the attributes differs in documentation only. -/
theorem RedocumentedMembers.commonAttributes (word : String) :
    RedocumentedMembers (Schema.commonAttributes left (.str word))
      (Schema.commonAttributes right (.str word)) := by
  unfold Schema.commonAttributes
  refine append ?_ (append (.kept "type" (.str word) .nil)
    (members.filter fun key => !reservedAttributes.contains key))
  cases Members.get? left "doc" with
  | none =>
    cases Members.get? right "doc" with
    | none => exact .nil
    | some doc => exact .added doc .nil
  | some doc =>
    cases Members.get? right "doc" with
    | none => exact .removed doc .nil
    | some otherDoc => exact .removed doc (.added otherDoc .nil)

theorem RedocumentedMembers.commonFieldAttributes :
    RedocumentedMembers (Schema.commonFieldAttributes left)
      (Schema.commonFieldAttributes right) := by
  have aliases := members.get?_kept "aliases" (by decide)
  have default := members.get?_kept "default" (by decide)
  refine append ?_ (members.filter fun key => !reservedFieldAttributes.contains key)
  simp only [List.filterMap_cons, aliases, default]
  cases Members.get? left "doc" with
  | none =>
    cases Members.get? right "doc" with
    | none => exact .refl _
    | some doc => exact .added doc (.refl _)
  | some doc =>
    cases Members.get? right "doc" with
    | none => exact .removed doc (.refl _)
    | some otherDoc => exact .removed doc (.added otherDoc (.refl _))

theorem RedocumentedMembers.checkAliases :
    Schema.checkAliases right = Schema.checkAliases left := by
  simp only [Schema.checkAliases, members.get?_kept "aliases" (by decide)]

theorem RedocumentedMembers.checkDecimal (type : Json) :
    Schema.checkDecimal right type = Schema.checkDecimal left type := by
  simp only [Schema.checkDecimal, checkPrecision, required,
    members.get?_kept "logicalType" (by decide), members.get?_kept "scale" (by decide),
    members.get?_kept "precision" (by decide), members.get?_kept "size" (by decide)]

/-- A change of documentation leaves the qualified name as it is. -/
theorem RedocumentedMembers.qualifiedName {space : Json} {named : Json × Json}
    (isNamed : Schema.qualifiedName (.obj left) space = .ok named) :
    Schema.qualifiedName (.obj right) space = .ok named := by
  rw [← isNamed]
  simp only [Schema.qualifiedName, members.get?_kept "name" (by decide),
    members.get?_kept "namespace" (by decide)]
  cases found : Members.get? left "name" with
  | none => simp [Schema.qualifiedName, found] at isNamed
  | some name => rfl

end

end Parts

/-! ### Parsing -/

theorem RedocumentedRegistries.set (name : String) {other : Json}
    (redocumented : Redocumented definition other) {left right : Registry}
    (registries : RedocumentedRegistries left right) :
    RedocumentedRegistries (Members.set left name definition) (Members.set right name other) := by
  induction left generalizing right with
  | nil =>
    cases registries
    exact .cons name redocumented .nil
  | cons entry rest ih =>
    cases registries with
    | cons present first others =>
      rw [Members.set, Members.set]
      split
      · exact .cons name redocumented others
      · exact .cons present first (ih others)

theorem RedocumentedRegistries.union {left right additions others : Registry}
    (registries : RedocumentedRegistries left right)
    (added : RedocumentedRegistries additions others) :
    RedocumentedRegistries (Members.union left additions) (Members.union right others) := by
  unfold Members.union
  induction additions generalizing left right others with
  | nil =>
    cases added
    exact registries
  | cons addition rest ih =>
    cases added with
    | cons name first following =>
      rw [List.foldl_cons, List.foldl_cons]
      exact ih (registries.set name first) following

theorem RedocumentedRegistries.get?_some {left right : Registry}
    (registries : RedocumentedRegistries left right)
    (known : Members.get? left name = some definition) :
    ∃ other, Members.get? right name = some other ∧ Redocumented definition other := by
  induction left generalizing right with
  | nil => cases known
  | cons entry rest ih =>
    cases registries with
    | cons present first others =>
      rw [Members.get?_cons] at known ⊢
      split at known
      · rename_i wanted
        cases known
        exact ⟨_, if_pos wanted, first⟩
      · rename_i passed
        rw [if_neg passed]
        exact ih others known

/-- Two states with the same names, and registries that have the same types, up to documentation. -/
structure ParseState.Redocumented (left right : ParseState) : Prop where
  names : right.defined = left.defined
  registries : RedocumentedRegistries left.registry right.registry

theorem ParseState.Redocumented.enter {left right : ParseState} (states : left.Redocumented right)
    (entry : String) (members : RedocumentedMembers leftMembers rightMembers) :
    (left.enter entry leftMembers).Redocumented (right.enter entry rightMembers) :=
  ⟨congrArg (entry :: ·) states.names, states.registries.set entry (.obj members)⟩

theorem ParseState.Redocumented.replace {left right : ParseState} (states : left.Redocumented right)
    (entry : String) (members : RedocumentedMembers leftMembers rightMembers) :
    (left.replace entry leftMembers).Redocumented (right.replace entry rightMembers) :=
  ⟨states.names, states.registries.set entry (.obj members)⟩

mutual

/-- Parsing takes schemas that differ in documentation to schemas that differ in documentation. -/
theorem Parses.redocumented {space node parsed : Json} {start stop : ParseState} :
    Parses false space node start parsed stop → ∀ other before, Redocumented node other →
    start.Redocumented before →
      ∃ otherParsed after, Parses false space other before otherParsed after ∧
        Redocumented parsed otherParsed ∧
        stop.Redocumented after
  | .primitive isPrimitive => by
    intro other before redocumented states
    obtain rfl := redocumented.text
    exact ⟨_, before, .primitive isPrimitive, .same _, states⟩
  | .reference notPrimitive qualified known kept => by
    intro other before redocumented states
    obtain rfl := redocumented.text
    obtain ⟨definition, otherKnown, -⟩ := states.registries.get?_some known
    exact ⟨_, before, .reference notPrimitive qualified otherKnown (by simp), .same _, states⟩
  | .union parts => by
    intro other before redocumented states
    obtain ⟨others, rfl, items⟩ := redocumented.items
    obtain ⟨otherParsed, after, otherParts, parsedItems, afterStates⟩ :=
      parts.redocumented others before items states
    exact ⟨_, after, .union otherParts, .arr parsedItems, afterStates⟩
  | .primitiveNode typeIs checked isPrimitive => by
    intro other before redocumented states
    obtain ⟨others, rfl, members⟩ := redocumented.members
    refine ⟨_, before, .primitiveNode (members.get?_type typeIs) ?_ isPrimitive,
      .obj (members.commonAttributes _), states⟩
    rw [members.checkDecimal, checked]
  | .collection typeIs checked isCollection under inner => by
    intro other before redocumented states
    obtain ⟨others, rfl, members⟩ := redocumented.members
    have areNodes : ∀ pair ∈ [("array", "items"), ("map", "values")], pair.2 ∈ nodeKeys := by decide
    obtain ⟨otherNode, otherUnder, sameNode⟩ := members.get?_node (areNodes _ isCollection) under
    obtain ⟨otherPart, after, otherInner, samePart, afterStates⟩ :=
      inner.redocumented otherNode before sameNode states
    refine ⟨_, after, .collection (members.get?_type typeIs) ?_ isCollection otherUnder otherInner,
      .obj (.append (.node _ (areNodes _ isCollection) samePart .nil) (members.commonAttributes _)),
      afterStates⟩
    rw [members.checkDecimal, checked]
  | .leaf typeIs checked isLeaf named entryIs fresh under => by
    intro other before redocumented states
    obtain ⟨others, rfl, members⟩ := redocumented.members
    have plain : ∀ pair ∈ [("enum", "symbols"), ("fixed", "size")],
        pair.2 ∉ ["doc", "fields", registryKey] ++ nodeKeys := by
      decide
    have otherUnder := (members.get?_kept _ (plain _ isLeaf)).trans under
    have same (word key : String) (name value : Json) :
        RedocumentedMembers (leafMembers _ word name key value)
          (leafMembers others word name key value) :=
      .append (.refl _) (members.commonAttributes word)
    refine ⟨_, _, .leaf (members.get?_type typeIs) ?_ isLeaf (members.qualifiedName named) entryIs
      ?_ otherUnder,
      .obj (same _ _ _ _), states.enter _ (same _ _ _ _)⟩
    · rw [members.checkDecimal, checked]
    · rw [states.names]
      exact fresh
  | .record typeIs checked isRecord named entryIs fresh nodesAre inner => by
    intro other before redocumented states
    obtain ⟨others, rfl, members⟩ := redocumented.members
    obtain ⟨otherNodes, otherNodesAre, sameNodes⟩ := members.fieldNodes nodesAre
    obtain ⟨otherFields, after, otherInner, sameFields, afterStates⟩ :=
      inner.redocumented otherNodes _ sameNodes (states.enter _ (members.commonAttributes _))
    have same (word : String) (name : Json) :
        RedocumentedMembers (recordMembers _ word name _)
          (recordMembers others word name otherFields) :=
      .append (.kept "name" name (.fields sameFields .nil)) (members.commonAttributes word)
    refine ⟨_, _, .record (members.get?_type typeIs) ?_ isRecord (members.qualifiedName named)
      entryIs ?_ otherNodesAre
      otherInner, .obj (same _ _), afterStates.replace _ (same _ _)⟩
    · rw [members.checkDecimal, checked]
    · rw [states.names]
      exact fresh

theorem ParsesBranches.redocumented {space : Json} {branches parsed : List Json}
    {start stop : ParseState} :
    ParsesBranches false space branches start parsed stop →
    ∀ others before, RedocumentedItems branches others →
      start.Redocumented before →
      ∃ otherParsed after, ParsesBranches false space others before otherParsed after ∧
        RedocumentedItems parsed otherParsed ∧ stop.Redocumented after
  | .nil => by
    intro others before .nil states
    exact ⟨[], before, .nil, .nil, states⟩
  | .cons first rest => by
    intro others before (.cons sameFirst sameRest) states
    obtain ⟨parsedFirst, between, otherFirst, firstSame, betweenStates⟩ :=
      first.redocumented _ _ sameFirst states
    obtain ⟨parsedRest, after, otherRest, restSame, afterStates⟩ :=
      rest.redocumented _ _ sameRest betweenStates
    exact ⟨_, after, .cons otherFirst otherRest, .cons firstSame restSame, afterStates⟩

theorem ParsesFields.redocumented {space : Json} {fields parsed : List Json}
    {start stop : ParseState} :
    ParsesFields false space fields start parsed stop →
    ∀ others before, RedocumentedItems fields others →
      start.Redocumented before →
      ∃ otherParsed after, ParsesFields false space others before otherParsed after ∧
        RedocumentedItems parsed otherParsed ∧ stop.Redocumented after
  | .nil => by
    intro others before .nil states
    exact ⟨[], before, .nil, .nil, states⟩
  | .cons listed named under inner rest => by
    intro others before (.cons sameField sameRest) states
    obtain ⟨otherMembers, rfl, members⟩ := sameField.members
    have otherNamed := (members.get?_kept "name" (by decide)).trans named
    obtain ⟨otherNode, otherUnder, sameNode⟩ := members.get?_node (by decide) under
    obtain ⟨otherType, between, otherInner, sameType, betweenStates⟩ :=
      inner.redocumented _ _ sameNode states
    obtain ⟨parsedRest, after, otherRest, restSame, afterStates⟩ :=
      rest.redocumented _ _ sameRest betweenStates
    have fieldSame (name : Json) :
        RedocumentedMembers (fieldMembers _ name _) (fieldMembers otherMembers name otherType) :=
      .append (.kept "name" name (.node "type" (by decide) sameType .nil))
        members.commonFieldAttributes
    refine ⟨_, after, .cons ?_ otherNamed otherUnder otherInner otherRest,
      .cons (.obj (fieldSame _)) restSame, afterStates⟩
    rw [members.commonFieldAttributes.checkAliases, listed]

end

/-! ### Parsing from the top -/

/-- Marks that both sides may have: that a schema is parsed, or the registry of each. -/
inductive Marks : String → Json → Json → Prop where
  | parsed (value : Json) : Marks parsedKey value value
  | registry {left right : Registry} (registries : RedocumentedRegistries left right) :
      Marks registryKey (.obj left) (.obj right)

section Marks

variable {key : String} {leftValue rightValue : Json}

theorem RedocumentedMembers.marked {left right : Members} (marks : Marks key leftValue rightValue)
    (others : RedocumentedMembers left right) :
    RedocumentedMembers ((key, leftValue) :: left) ((key, rightValue) :: right) := by
  cases marks with
  | parsed value => exact .kept _ _ others
  | registry registries => exact .mark registries others

theorem Marks.ne_doc (marks : Marks key leftValue rightValue) : "doc" ≠ key := by
  cases marks with
  | parsed value => decide
  | registry registries => decide

theorem RedocumentedMembers.set (marks : Marks key leftValue rightValue) {left right : Members}
    (members : RedocumentedMembers left right) :
    RedocumentedMembers (Members.set left key leftValue) (Members.set right key rightValue) := by
  cases members with
  | nil => exact marked marks .nil
  | kept name value others =>
    rw [Members.set, Members.set]
    split
    · exact marked marks others
    · exact .kept name value (others.set marks)
  | node name isNode value others =>
    rw [Members.set, Members.set]
    split
    · exact marked marks others
    · exact .node name isNode value (others.set marks)
  | fields nodes others =>
    rw [Members.set, Members.set]
    split
    · exact marked marks others
    · exact .fields nodes (others.set marks)
  | mark registries others =>
    rw [Members.set, Members.set]
    split
    · exact marked marks others
    · exact .mark registries (others.set marks)
  | added doc others =>
    rw [Members.set.eq_2, if_neg marks.ne_doc]
    exact .added doc (others.set marks)
  | removed doc others =>
    rw [Members.set.eq_2, if_neg marks.ne_doc]
    exact .removed doc (others.set marks)
termination_by left.length + right.length

end Marks

/-- Two drafts that are sealed to schemas which differ in documentation only. -/
def Draft.Redocumented (left right : Draft) : Prop :=
  ∀ ⦃registry other : Registry⦄, RedocumentedRegistries registry other →
    Schema.Redocumented (left.seal registry) (right.seal other)

theorem Draft.redocumented_marked (members : RedocumentedMembers left right) :
    Draft.Redocumented (.marked left) (.marked right) :=
  fun _ _ registries => .obj (.set (.registry registries) (.set (.parsed _) members))

theorem Draft.ofParsed_congr (mark : Bool)
    (sameType : ∀ word, Members.get? left "type" = some (.str word) ↔
      Members.get? right "type" = some (.str word)) :
    ofParsed mark (.obj left) = .plain (.obj left) ∧
    ofParsed mark (.obj right) = .plain (.obj right) ∨
      ofParsed mark (.obj left) = .marked left ∧ ofParsed mark (.obj right) = .marked right := by
  by_cases hasWord : ∃ word, Members.get? left "type" = some (.str word)
  · obtain ⟨word, typeIs⟩ := hasWord
    simp only [ofParsed, typeIs, (sameType word).mp typeIs]
    cases mark && hasFields word with
    | true => exact .inr ⟨rfl, rfl⟩
    | false => exact .inl ⟨rfl, rfl⟩
  · have plainly {members : Members}
      (noWord : ∀ word, Members.get? members "type" ≠ some (.str word)) :
        ofParsed mark (.obj members) = .plain (.obj members) := by
      simp only [ofParsed]
    exact .inl ⟨plainly fun word typeIs => hasWord ⟨word, typeIs⟩,
      plainly fun word typeIs => hasWord ⟨word, (sameType word).mpr typeIs⟩⟩

/-- The marks that a parse adds are the same for both schemas. -/
theorem Redocumented.ofParsed {left right : Json} (mark : Bool)
    (redocumented : Redocumented left right) :
    (Draft.ofParsed mark left).Redocumented (Draft.ofParsed mark right) := by
  have ofMembers {left right : Members} (members : RedocumentedMembers left right) :
      (Draft.ofParsed mark (.obj left)).Redocumented (Draft.ofParsed mark (.obj right)) := by
    rcases Draft.ofParsed_congr mark fun word => members.get?_type_iff with ⟨leftIs, rightIs⟩ |
      ⟨leftIs, rightIs⟩
    · rw [leftIs, rightIs]
      exact fun _ _ _ => .obj members
    · rw [leftIs, rightIs]
      exact Draft.redocumented_marked members
  cases redocumented with
  | same =>
    cases left with
    | obj members => exact ofMembers (.refl members)
    | _ => exact fun _ _ _ => .same _
  | arr items => exact fun _ _ _ => .arr items
  | obj members => exact ofMembers members

theorem Redocumented.notUnion (redocumented : Redocumented schema other)
    (notUnion : ∀ branches, schema ≠ .arr branches) : ∀ branches, other ≠ .arr branches := by
  cases redocumented with
  | same => exact notUnion
  | arr items => exact absurd rfl (notUnion _)
  | obj members => simp

theorem Redocumented.unmarked (redocumented : Redocumented schema other)
    (notUnion : ∀ branches, schema ≠ .arr branches) (plainly : Schema.unmarked schema = true) :
    Schema.unmarked other = true := by
  cases redocumented with
  | same => exact plainly
  | arr items => exact absurd rfl (notUnion _)
  | obj members => rwa [Schema.unmarked, Members.has, members.get?_kept parsedKey (by decide)]

mutual

/-- The parse of a whole schema follows a change of its documentation. -/
theorem ParsesTop.redocumented {mark : Bool} {schema other : Json}
    {before otherBefore after : Registry} {draft : Draft} :
    ParsesTop mark schema before draft after → Redocumented schema other →
    RedocumentedRegistries before otherBefore →
      ∃ otherDraft otherAfter, ParsesTop mark other otherBefore otherDraft otherAfter ∧
        draft.Redocumented otherDraft ∧
        RedocumentedRegistries after otherAfter
  | .node notUnion plainly derivation, redocumented, registries => by
    obtain ⟨otherPlain, ⟨_, otherAfter⟩, otherDerivation, same, states⟩ :=
      derivation.redocumented other ⟨[], otherBefore⟩ redocumented ⟨rfl, registries⟩
    exact ⟨_, otherAfter, .node (redocumented.notUnion notUnion)
      (redocumented.unmarked notUnion plainly) otherDerivation,
      same.ofParsed mark, states.registries⟩
  | .adopted isMarked holds, redocumented, registries => by
    obtain ⟨others, rfl, members⟩ := redocumented.members
    obtain ⟨otherEntries, otherHolds, sameEntries⟩ := members.get?_registry holds
    refine ⟨_, _, .adopted ?_ otherHolds, fun _ _ _ => .obj members, registries.union sameEntries⟩
    rwa [Members.has, members.get?_kept parsedKey (by decide)]
  | .union parts, redocumented, registries => by
    obtain ⟨others, rfl, items⟩ := redocumented.items
    obtain ⟨otherDrafts, otherAfter, done, same, afterRegistries⟩ :=
      parts.redocumented items registries
    exact ⟨_, otherAfter, .union done, fun _ _ sealed => .arr (same _ _ sealed), afterRegistries⟩

theorem BranchesTop.redocumented {mark : Bool} {branches others : List Json}
    {before otherBefore after : Registry} {drafts : List Draft} :
    BranchesTop mark branches before drafts after → RedocumentedItems branches others →
    RedocumentedRegistries before otherBefore →
      ∃ otherDrafts otherAfter, BranchesTop mark others otherBefore otherDrafts otherAfter ∧
        (∀ final otherFinal, RedocumentedRegistries final otherFinal →
          RedocumentedItems (Draft.sealAll final drafts) (Draft.sealAll otherFinal otherDrafts)) ∧
        RedocumentedRegistries after otherAfter
  | .nil, .nil, registries => by exact ⟨[], otherBefore, .nil, fun _ _ _ => .nil, registries⟩
  | .cons first rest, .cons sameFirst sameRest, registries => by
    obtain ⟨otherDraft, otherBetween, otherFirst, firstSame, betweenRegistries⟩ :=
      first.redocumented sameFirst registries
    obtain ⟨otherDrafts, otherAfter, otherRest, restSame, afterRegistries⟩ :=
      rest.redocumented sameRest betweenRegistries
    exact ⟨_, otherAfter, .cons otherFirst otherRest,
      fun final otherFinal sealed => .cons (firstSame sealed) (restSame final otherFinal sealed),
      afterRegistries⟩

end

/-- A schema parses with other documentation as well, to a schema that differs in documentation
only. -/
theorem parse_redocumented (redocumented : Redocumented schema other)
    (isParsed : parse {} [] schema = .ok (parsed, registry)) :
    ∃ otherParsed otherRegistry, parse {} [] other = .ok (otherParsed, otherRegistry) ∧
      Redocumented parsed otherParsed := by
  obtain ⟨draft, done, rfl⟩ := parse_ok.mp isParsed
  obtain ⟨otherDraft, otherAfter, otherDone, same, registries⟩ :=
    done.redocumented redocumented .nil
  exact ⟨_, otherAfter, parse_ok.mpr ⟨otherDraft, otherDone, rfl⟩, same registries⟩

end Avro.Schema
