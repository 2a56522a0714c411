import Avro.Proofs.Lookups
import Avro.Proofs.Marking

/-!
Contract: the names of a parsed schema are in scope.

Owns: `Scoped`, in which nodes are visited in the order of the document and every reference is to a
type whose definition has been entered by then; and that a parse by force gives such a schema, with
one entry in the registry for each definition.

A type may have the name of a kind. A reference to one named `union` is taken for a union of the
letters of this word, so all lookups succeed only if no type has such a name.
-/

namespace Avro.Schema

open Decode (fieldsOf)
open Kind (ofName)
open Members (get? get?_cons get?_set)

/-! ### Visits in the order of the document -/

/-- The name that an object of a type defines, if it is a definition. -/
def definedBy (word : String) (members : Members) : List String :=
  if hasName word then nameIn members else []

/-- The entry of a name agrees with its definition in all but the marks. -/
def Agreeing (registry : Registry) (members : Members) (name : String) : Prop :=
  ∃ own, get? registry name = some (.obj own) ∧ ∀ key ∉ marks, get? own key = get? members key

/-- From some known names on, nodes are visited one after the other, each before its parts, until
the final names are known. A name is known once the visit of its definition has begun, and not
before. -/
inductive Scoped (registry : Registry) (final : List String) : List String → List Json → Prop where
  | done : Scoped registry final final []
  | primitive {known word rest} (isPrimitive : word ∈ primitiveNames)
      (others : Scoped registry final known rest) :
      Scoped registry final known (.str word :: rest)
  | reference {known name rest} (isKnown : name ∈ known)
      (others : Scoped registry final known rest) :
      Scoped registry final known (.str name :: rest)
  | union {known branches rest} (others : Scoped registry final known (branches ++ rest)) :
      Scoped registry final known (.arr branches :: rest)
  | object {known members word rest} (typeIs : get? members "type" = some (.str word))
      (isWord : word ∈ typeWords)
      (fresh : ∀ name ∈ definedBy word members, name ∉ known ∧ Agreeing registry members name)
      (others : Scoped registry final (definedBy word members ++ known)
        (partsOf registry (.obj members) ++ rest)) :
      Scoped registry final known (.obj members :: rest)

variable {registry : Registry} {known final : List String} {rest nodes : List Json}
  {members left right : Members} {word key : String} {name part node : Json}

/-! ### Parsed nodes -/

private theorem ofName_ne {kind : Kind} (notKind : word ≠ kind.word) :
    ofName word ≠ kind := fun same =>
  notKind (by rw [← same, Kind.word_ofName])

theorem partsOf_congr (typeIs : get? right "type" = some (.str word)) (isWord : word ∈ typeWords)
    (same : ∀ key ∈ namingAttributes, get? left key = get? right key) :
    partsOf registry (.obj left) = partsOf registry (.obj right) := by
  have lookups (key : String) (isKey : key ∈ namingAttributes) :
      attributeOf (.obj left) key = attributeOf (.obj right) key := by
    rw [attributeOf, required, same key isKey, attributeOf, required]
  obtain ⟨notUnion, noErrors⟩ : ofName word ≠ .union ∧ ofName word ≠ .errorUnion := by
    have apart : ∀ word ∈ typeWords, word ≠ "union" ∧ word ≠ "error_union" := by decide
    exact ⟨ofName_ne (apart word isWord).1, ofName_ne (apart word isWord).2⟩
  unfold partsOf fieldTypes fieldsOf
  rw [kindOf_obj typeIs, kindOf_obj ((same "type" (by decide)).trans typeIs),
    lookups "items" (by decide), lookups "values" (by decide), lookups "fields" (by decide)]
  split
  case h_4 isUnion => exact absurd (Except.ok.inj isUnion) notUnion
  case h_5 isUnion => exact absurd (Except.ok.inj isUnion) noErrors
  all_goals rfl

theorem definedBy_congr (same : ∀ key ∈ namingAttributes, get? left key = get? right key) :
    definedBy word left = definedBy word right := by
  rw [definedBy, definedBy, nameIn, nameIn, same "name" (by decide)]

/-- A visit depends on an object only by the attributes that are not marks. -/
theorem Scoped.congr (same : ∀ key ∉ marks, get? left key = get? right key)
    (visit : Scoped registry final known (.obj right :: rest)) :
    Scoped registry final known (.obj left :: rest) := by
  have sameNaming (key : String) (isKey : key ∈ namingAttributes) :
      get? left key = get? right key :=
    same key ((show ∀ key ∈ namingAttributes, key ∉ marks by decide) key isKey)
  cases visit with
  | object typeIs isWord fresh others =>
    rw [← definedBy_congr sameNaming] at fresh others
    rw [← partsOf_congr typeIs isWord sameNaming] at others
    refine .object ((sameNaming "type" (by decide)).trans typeIs) isWord
      (fun name isName => ?_) others
    obtain ⟨isFresh, own, found, agrees⟩ := fresh name isName
    exact ⟨isFresh, own, found, fun key notMark =>
      (agrees key notMark).trans (same key notMark).symm⟩

/-- A parsed object defines a name and has parts by its own attributes. -/
theorem Scoped.parsed {others : Members} {parts : List Json} {taken : List String}
    (isWord : word ∈ typeWords) (takenAre : definedBy word (("type", .str word) :: others) = taken)
    (partsAre : partsOf registry (.obj (("type", .str word) :: others)) = parts)
    (fresh : ∀ name ∈ taken, name ∉ known ∧
      get? registry name = some (.obj (commonAttributes members (.str word) ++ others)))
    (visit : Scoped registry final (taken ++ known) (parts ++ rest)) :
    Scoped registry final known
      (.obj (commonAttributes members (.str word) ++ others) :: rest) := by
  have own : ∀ key ∈ namingAttributes, key ∈ reservedAttributes.erase "doc" := by decide
  have same (key : String) (isKey : key ∈ namingAttributes) :
      get? (commonAttributes members (.str word) ++ others) key =
        get? (("type", .str word) :: others) key := get?_own (own key isKey)
  rw [← takenAre, ← definedBy_congr same] at fresh visit
  rw [← partsAre, ← partsOf_congr rfl isWord same] at visit
  exact .object (get?_type_commonAttributes members others _) isWord
    (fun name isName => ⟨(fresh name isName).1, _, (fresh name isName).2, fun _ _ => rfl⟩) visit

theorem fieldTypes_cons {type : Json} {fields : List Json} :
    ((.obj (fieldMembers members name type) :: fields).filterMap fun field =>
      (attributeOf field "type").toOption) =
      type :: fields.filterMap fun field => (attributeOf field "type").toOption := by
  refine List.filterMap_cons_some ?_
  rw [attributeOf, required, get?_fieldMembers members name type (by decide)]
  rfl

/-! ### States of a parse -/

def ParseState.Keyed (state : ParseState) : Prop := Members.keys state.registry ⊆ state.defined

section States

variable {step next : ParseState → ParseState → Prop} {start middle stop : ParseState}
  {taken others : List String} {entries later : Registry}

theorem Effect.keyed (effect : Effect step start stop taken entries) (keyed : start.Keyed) :
    stop.Keyed := by
  rw [effect.stopIs]
  intro name isKey
  rcases Members.mem_keys_union.mp isKey with isOld | isNew
  · exact List.mem_append_right _ (keyed isOld)
  · exact List.mem_append_left _ (List.mem_reverse.mpr ((effect.entered name).mp isNew))

/-- What the first of two steps has entered is still there after the second. -/
theorem Effect.settled (first : Effect step start middle taken entries)
    (second : Effect next middle stop others later)
    (settled : ∀ name ∈ taken ++ others, get? registry name = get? stop.registry name) :
    ∀ name ∈ taken, get? registry name = get? middle.registry name := by
  intro name isTaken
  have isDefined : name ∈ middle.defined := by
    rw [first.stopIs]
    exact List.mem_append_left _ (List.mem_reverse.mpr isTaken)
  rw [settled name (List.mem_append_left _ isTaken), second.stopIs, ParseState.extend,
    Members.get?_union_of_notMem]
  exact fun isEntry => second.free name ((second.entered name).mp isEntry) isDefined

end States

mutual

/-- What is parsed is visited from the names that are taken before, once the rest is from those that
are taken then. -/
theorem Parses.scoped {space node parsed : Json} {start stop : ParseState} {rest : List Json} :
    Parses false space node start parsed stop → start.Keyed →
      (∀ name ∈ names parsed, get? registry name = get? stop.registry name) →
      Scoped registry final stop.defined rest →
      Scoped registry final start.defined (parsed :: rest)
  | .primitive isPrimitive, _, _, visit => by exact .primitive isPrimitive visit
  | .reference _ _ found _, keyed, _, visit => by
    exact .reference (keyed (Members.isSome_get?.mp (by rw [found]; rfl))) visit
  | .expansion _ _ _ expanded _, _, _, _ => by simp at expanded
  | .union parts, keyed, settled, visit => by exact .union (parts.scoped keyed settled visit)
  | .primitiveNode _ _ isPrimitive, _, _, visit => by
    rw [← List.append_nil (commonAttributes _ _)]
    simp only [primitiveNames, List.mem_cons, List.not_mem_nil, or_false] at isPrimitive
    rcases isPrimitive with rfl | rfl | rfl | rfl | rfl | rfl | rfl | rfl <;>
      exact .parsed (by decide) rfl rfl (List.forall_mem_nil _) visit
  | .collection _ _ isCollection _ inner, keyed, settled, visit => by
    rw [names_collection isCollection] at settled
    have visit := inner.scoped keyed settled visit
    rcases Members.mem_pairs.mp isCollection with ⟨rfl, rfl⟩ |
      ⟨rfl, rfl⟩ <;> exact .parsed (by decide) rfl rfl (List.forall_mem_nil _) visit
  | .leaf _ _ isLeaf _ entryIs fresh _, _, settled, visit => by
    rw [names_leaf isLeaf entryIs, List.forall_mem_singleton, ParseState.enter, get?_set,
      if_pos rfl] at settled
    rcases Members.mem_pairs.mp isLeaf with ⟨rfl, rfl⟩ | ⟨rfl, rfl⟩ <;>
      exact .parsed (by decide)
        (by simp [definedBy, nameIn, get?, hasName, entryIs, Except.toOption]) rfl
        (List.forall_mem_singleton.mpr ⟨fresh, settled⟩) visit
  | @Parses.record _ _ _ _ _ _ _ _ fields _ stop _ _ isRecord _ entryIs fresh _ inner, keyed,
      settled, visit => by
    have ⟨entries, effect⟩ := inner.effect
    rw [names_record isRecord entryIs, List.forall_mem_cons, ParseState.replace, get?_set,
      if_pos rfl] at settled
    -- The entry is replaced at the end, and it is none of the names that are taken below it.
    have innerSettled : ∀ name ∈ namesOfFields fields,
        get? registry name = get? stop.registry name := fun name isName => by
      rw [settled.2 name isName, get?_set, if_neg]
      rintro rfl
      exact effect.free _ isName List.mem_cons_self
    have visit := inner.scoped ((Effect.enter _ fresh).keyed keyed) innerSettled visit
    rcases List.mem_pair.mp isRecord with rfl | rfl <;>
      exact .parsed (by decide)
        (by simp [definedBy, nameIn, get?, hasName, hasFields, entryIs, Except.toOption]) rfl
        (List.forall_mem_singleton.mpr ⟨fresh, settled.1⟩) visit

theorem ParsesBranches.scoped {space : Json} {branches parsed : List Json} {start stop : ParseState}
    {rest : List Json} :
    ParsesBranches false space branches start parsed stop → start.Keyed →
      (∀ name ∈ branchNames parsed, get? registry name = get? stop.registry name) →
      Scoped registry final stop.defined rest →
      Scoped registry final start.defined (parsed ++ rest)
  | .nil, _, _, visit => by exact visit
  | .cons first others, keyed, settled, visit => by
    have ⟨_, effect⟩ := first.effect
    have ⟨_, laterEffect⟩ := others.effect
    exact first.scoped keyed (effect.settled laterEffect settled)
      (others.scoped (effect.keyed keyed) (List.forall_mem_append.mp settled).2 visit)

theorem ParsesFields.scoped {space : Json} {fields parsed : List Json} {start stop : ParseState}
    {rest : List Json} :
    ParsesFields false space fields start parsed stop → start.Keyed →
      (∀ name ∈ namesOfFields parsed, get? registry name = get? stop.registry name) →
      Scoped registry final stop.defined rest →
      Scoped registry final start.defined
        ((parsed.filterMap fun field => (attributeOf field "type").toOption) ++ rest)
  | .nil, _, _, visit => by exact visit
  | .cons _ _ _ inner others, keyed, settled, visit => by
    have ⟨_, effect⟩ := inner.effect
    have ⟨_, laterEffect⟩ := others.effect
    rw [namesOfFields_cons] at settled
    rw [fieldTypes_cons]
    exact inner.scoped keyed (effect.settled laterEffect settled)
      (others.scoped (effect.keyed keyed) (List.forall_mem_append.mp settled).2 visit)

end

/-! ### What is within a visited schema -/

theorem Scoped.subset (visit : Scoped registry final known nodes) : known ⊆ final := by
  induction visit with
  | done => exact List.Subset.refl _
  | primitive _ _ ih => exact ih
  | reference _ _ ih => exact ih
  | union _ ih => exact ih
  | object _ _ _ _ ih => exact List.Subset.trans (List.subset_append_right _ _) ih

/-- A node is visited at some time. -/
def Visited (registry : Registry) (final : List String) (node : Json) : Prop :=
  ∃ known rest, Scoped registry final known (node :: rest)

theorem Scoped.visited (visit : Scoped registry final known nodes) :
    ∀ node ∈ nodes, Visited registry final node := by
  induction visit with
  | done => exact List.forall_mem_nil _
  | primitive isPrimitive others ih =>
    exact List.forall_mem_cons.mpr ⟨⟨_, _, .primitive isPrimitive others⟩, ih⟩
  | reference isKnown others ih =>
    exact List.forall_mem_cons.mpr ⟨⟨_, _, .reference isKnown others⟩, ih⟩
  | union others ih =>
    exact List.forall_mem_cons.mpr ⟨⟨_, _, .union others⟩, (List.forall_mem_append.mp ih).2⟩
  | object typeIs isWord fresh others ih =>
    exact List.forall_mem_cons.mpr
      ⟨⟨_, _, .object typeIs isWord fresh others⟩, (List.forall_mem_append.mp ih).2⟩

/-- The entry of a name that becomes known might be visited in the place of its definition. -/
theorem Scoped.entries (visit : Scoped registry final known nodes) :
    ∀ name ∈ final, name ∈ known ∨ ∃ definition, get? registry name = some definition ∧
      Visited registry final definition := by
  induction visit with
  | done => exact fun name isFinal => .inl isFinal
  | primitive _ _ ih => exact ih
  | reference _ _ ih => exact ih
  | union _ ih => exact ih
  | object typeIs isWord fresh others ih =>
    intro name isFinal
    refine (ih name isFinal).elim (fun isKnown => ?_) .inr
    refine (List.mem_append.mp isKnown).elim (fun isNew => .inr ?_) .inl
    obtain ⟨-, own, found, agrees⟩ := fresh name isNew
    exact ⟨_, found, _, _, (Scoped.object typeIs isWord fresh others).congr agrees⟩

theorem typeWords_builtIn : ∀ word ∈ typeWords,
    (ofName word).isBuiltIn = true ∧ word ≠ "union" ∧ word ≠ "error_union" ∧ word ≠ "request" := by
  decide

/-- A text goes on to the definition of this name, or it is a word for a union. -/
theorem partsOf_str (isPart : part ∈ partsOf registry (.str word)) :
    word = "union" ∨ word = "error_union" ∨
      ((ofName word).isBuiltIn = false ∨ word = "request") ∧ get? registry word = some part := by
  have wordIs := Kind.word_ofName word
  have kindIs : kindOf (.str word) = .ok (ofName word) := rfl
  unfold partsOf at isPart
  rw [kindIs] at isPart
  cases kind : ofName word <;> rw [kind] at wordIs isPart <;>
    simp_all [Kind.word, Kind.isBuiltIn, attributeOf, fieldTypes, fieldsOf, bind, Except.bind,
      Except.toOption]

/-- The parts of what is visited are visited, too. -/
theorem Scoped.visited_part {whole : Json} (visit : Scoped registry final [] [whole])
    (notUnion : "union" ∉ final) (noErrors : "error_union" ∉ final)
    (visited : Visited registry final node) (isPart : part ∈ partsOf registry node) :
    Visited registry final part := by
  obtain ⟨known, rest, here⟩ := visited
  cases here with
  | primitive isPrimitive =>
    obtain ⟨builtIn, apart⟩ := typeWords_builtIn _ (List.mem_append_left _ isPrimitive)
    rcases partsOf_str isPart with isUnion | isUnion | ⟨notBuiltIn | isRequest, -⟩
    · exact absurd isUnion apart.1
    · exact absurd isUnion apart.2.1
    · exact absurd builtIn (Bool.eq_false_iff.mp notBuiltIn)
    · exact absurd isRequest apart.2.2
  | reference isKnown others =>
    rcases partsOf_str isPart with rfl | rfl | ⟨-, found⟩
    · exact absurd (others.subset isKnown) notUnion
    · exact absurd (others.subset isKnown) noErrors
    · rcases visit.entries _ (others.subset isKnown) with isStart | ⟨definition, isEntry, visited⟩
      · cases isStart
      · cases found.symm.trans isEntry
        exact visited
  | union others => exact others.visited _ (List.mem_append_left _ isPart)
  | object _ _ _ others => exact others.visited _ (List.mem_append_left _ isPart)

/-- Whatever is within a visited schema is visited, or might be. -/
theorem Scoped.within (visit : Scoped registry final [] [node]) (notUnion : "union" ∉ final)
    (noErrors : "error_union" ∉ final) (within : Within registry node part) :
    Visited registry final part := by
  induction within with
  | refl => exact ⟨_, _, visit⟩
  | tail _ isPart ih => exact visit.visited_part notUnion noErrors ih isPart

theorem Visited.kind (visited : Visited registry final part) :
    ∃ word, kindOf part = .ok (ofName word) ∧
      (word ∈ final ∨ word = "union" ∨ word ∈ typeWords) := by
  obtain ⟨known, rest, here⟩ := visited
  cases here with
  | primitive isPrimitive => exact ⟨_, rfl, .inr (.inr (List.mem_append_left _ isPrimitive))⟩
  | reference isKnown others => exact ⟨_, rfl, .inl (others.subset isKnown)⟩
  | union => exact ⟨_, rfl, .inr (.inl rfl)⟩
  | object typeIs isWord => exact ⟨_, kindOf_obj typeIs, .inr (.inr isWord)⟩

/-- What a visited node looks up is the name of a definition. -/
theorem Visited.lookup {name : String} (visited : Visited registry final part)
    (isName : lookup? part = some name) : name ∈ final := by
  obtain ⟨word, kindIs, either⟩ := visited.kind
  have wordIs := Kind.word_ofName word
  have notWord (isWord : word = "union" ∨ word ∈ typeWords) :
      (ofName word).isBuiltIn = true ∧ word ≠ "request" := by
    rcases isWord with rfl | isWord
    · exact ⟨rfl, by decide⟩
    · have apart := typeWords_builtIn word isWord
      exact ⟨apart.1, apart.2.2.2⟩
  rw [lookup?, kindIs] at isName
  cases builtIn : (ofName word).isBuiltIn with
  | false =>
    rw [ofName_of_isBuiltIn_false builtIn] at isName
    cases isName
    exact either.resolve_right fun isWord =>
      Bool.false_ne_true (builtIn.symm.trans (notWord isWord).1)
  | true =>
    cases kind : ofName word <;> rw [kind] at isName wordIs builtIn
    case request =>
      cases isName
      cases wordIs
      exact either.resolve_right fun isWord => (notWord isWord).2 rfl
    case named => cases builtIn
    case foreign => cases builtIn
    all_goals cases isName

/-! ### Parses by force -/

private theorem parse_force_ok {schema parsed : Json}
    (parses : parse { force := true } [] schema = .ok (parsed, registry)) :
    ∃ plain defined, Parses false (.str "") schema ⟨[], []⟩ plain ⟨defined, registry⟩ ∧
      (parsed = plain ∨ ∃ members, plain = .obj members ∧
        parsed = .obj (sealedMembers registry members)) := by
  have whole : parseTop { force := true } schema [] = parseWhole false true schema [] := by
    cases schema <;> rfl
  cases done : parseNode false (.str "") schema ⟨[], []⟩ with
  | error error state => simp [parse, whole, parseWhole, done] at parses
  | ok plain state =>
    obtain ⟨draft, drafted, isDraft⟩ : ∃ draft, parseWhole false true schema [] =
      .ok draft state.registry ∧
        (draft = .plain plain ∨ ∃ members, plain = .obj members ∧ draft = .marked members) := by
      unfold parseWhole
      rw [done]
      simp only
      split
      · split
        · exact ⟨_, rfl, .inr ⟨_, rfl, rfl⟩⟩
        · exact ⟨_, rfl, .inr ⟨_, rfl, rfl⟩⟩
        · exact ⟨_, rfl, .inl rfl⟩
      · exact ⟨_, rfl, .inl rfl⟩
    rw [parse, whole, drafted] at parses
    cases parses
    refine ⟨plain, state.defined, parses_of_parseNode done, isDraft.imp ?_ ?_⟩
    · rintro rfl
      rfl
    · rintro ⟨members, rfl, rfl⟩
      exact ⟨members, rfl, rfl⟩

/-- A parse by force gives a schema in which every reference is to a type whose definition has begun
before it; no name is defined twice; the registry has an entry for each definition, which agrees
with it, and no other. If no type has the name of a union, every name that is looked up on the way
through the schema is found, and values are checked, written, read and skipped alike by all
registries that agree on the names that are defined: no other name is looked up. -/
theorem parse_force_scoped {schema parsed : Json}
    (parses : parse { force := true } [] schema = .ok (parsed, registry)) :
    Scoped registry (names parsed).reverse [] [parsed] ∧ (names parsed).Nodup ∧
      (∀ name, name ∈ Members.keys registry ↔ name ∈ names parsed) ∧
      ("union" ∉ names parsed → "error_union" ∉ names parsed →
        (∀ part, Within registry parsed part → ∀ name, lookup? part = some name →
          ∃ definition, resolve registry name = .ok definition) ∧
        ∀ other, (∀ name ∈ names parsed, get? registry name = get? other name) →
          UsedAlike registry other parsed) := by
  obtain ⟨plain, defined, derivation, parsedIs⟩ := parse_force_ok parses
  obtain ⟨entries, effect⟩ := derivation.effect
  have stopIs := effect.stopIs
  rw [ParseState.extend, List.append_nil, ParseState.mk.injEq] at stopIs
  obtain ⟨rfl, registryIs⟩ := stopIs
  have visitPlain : Scoped registry (names plain).reverse [] [plain] :=
    derivation.scoped (List.nil_subset _) (fun _ _ => rfl) .done
  have ⟨namesAre, visit⟩ : names parsed = names plain ∧
      Scoped registry (names plain).reverse [] [parsed] := by
    rcases parsedIs with rfl | ⟨members, rfl, rfl⟩
    · exact ⟨rfl, visitPlain⟩
    · have notMarks : ∀ key ∈ namingAttributes, key ∉ marks := by decide
      exact ⟨names_obj_congr fun key isKey => get?_sealed members registry (notMarks key isKey),
        visitPlain.congr fun key => get?_sealed members registry⟩
  rw [← namesAre] at visit
  have keysAre (name : String) : name ∈ Members.keys registry ↔ name ∈ names parsed := by
    rw [registryIs, Members.mem_keys_union, effect.entered, namesAre]
    simp [Members.keys]
  refine ⟨visit, namesAre ▸ effect.distinct, keysAre, fun notUnion noErrors => ?_⟩
  rw [← List.mem_reverse] at notUnion noErrors
  refine ⟨fun part within name isName => ?_, fun other agrees => ?_⟩
  · have isDefined := (visit.within notUnion noErrors within).lookup isName
    obtain ⟨definition, found⟩ := Option.isSome_iff_exists.mp
      (Members.isSome_get?.mpr ((keysAre name).mpr (List.mem_reverse.mp isDefined)))
    exact ⟨definition, by rw [resolve, found]⟩
  · have covers : Covers registry other (Visited registry (names parsed).reverse) :=
      ⟨fun _ _ visited isPart => visit.visited_part notUnion noErrors visited isPart,
        fun _ name visited isName => agrees name (List.mem_reverse.mp (visited.lookup isName))⟩
    exact covers.usedAlike ⟨_, _, visit⟩

/-- A list of numbers under their names, by references to the record around them and to a type
before. -/
def nestedSchema : Json :=
  .obj [("type", .str "record"), ("name", .str "Node"), ("namespace", .str "org"), ("fields", .arr [
    .obj [("name", .str "mark"),
      ("type", .obj [("type", .str "fixed"), ("name", .str "Mark"), ("size", .int 1)])],
    .obj [("name", .str "next"), ("type", .arr [.str "Node", .str "org.Mark"])]])]

theorem parse_force_nestedSchema :
    ∃ parsed registry, parse { force := true } [] nestedSchema = .ok (parsed, registry) ∧
      names parsed = ["org.Node", "org.Mark"] ∧
      (∀ part, Within registry parsed part → ∀ name, lookup? part = some name →
        ∃ definition, resolve registry name = .ok definition) ∧
      UsedAlike registry (registry ++ [("Mark", .str "null")]) parsed := by
  have ⟨parsed, registry, parses, namesAre⟩ : ∃ parsed registry,
      parse { force := true } [] nestedSchema = .ok (parsed, registry) ∧
      names parsed = ["org.Node", "org.Mark"] :=
    ⟨_, _, rfl, rfl⟩
  obtain ⟨-, -, keysAre, looksUp⟩ := parse_force_scoped parses
  obtain ⟨found, alike⟩ := looksUp (by rw [namesAre]; decide) (by rw [namesAre]; decide)
  refine ⟨parsed, registry, parses, namesAre, found, alike _ fun name isName => ?_⟩
  obtain ⟨definition, isEntry⟩ :=
    Option.isSome_iff_exists.mp (Members.isSome_get?.mpr ((keysAre name).mpr isName))
  rw [Members.get?_append, isEntry, Option.some_or]

/-- A reference to a type named `union` is understood, but what is looked up is the first letter of
this word. -/
theorem lookup_of_union_letter :
    ∃ parsed registry, parse { force := true } []
      (.obj [("type", .str "record"), ("name", .str "R"), ("fields", .arr [
        .obj [("name", .str "a"),
          ("type", .obj [("type", .str "enum"), ("name", .str "union"),
          ("symbols", .arr [.str "A"])])],
        .obj [("name", .str "b"), ("type", .str "union")]])]) = .ok (parsed, registry) ∧
      Within registry parsed (.str "u") ∧ resolve registry "u" = .error .missingKey := by
  refine ⟨_, _, rfl, .tail (.tail .refl (show .str "union" ∈ partsOf _ _ from ?_)) ?_, rfl⟩
  · exact .tail _ (.head _)
  · exact .head _

end Avro.Schema
