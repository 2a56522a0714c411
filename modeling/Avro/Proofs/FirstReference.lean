import Avro.Proofs.DocumentedReading
import Avro.Schema.Inject

/-!
Contract: a search replaces the first reference to a definition and keeps the others.

Owns: `Refills`, a node with the nodes within it and the same node with others in their places;
`Fills`, the references of a schema in document order and what becomes of the schema if other
documents take their places; and that the search fills the first place that refers to the definition
with it and every other place with a reference to the same type.

Names are those of parsing: the references of a parsed schema are, in the same order, the full names
of those that it had before.
-/

namespace Avro

theorem Members.set_of_get? {members : Members} {key : String} {value : Json}
    (found : get? members key = some value) : set members key value = members := by
  induction members with
  | nil => cases found
  | cons member rest ih =>
    rw [get?_cons] at found
    unfold set
    by_cases sameKey : member.1 = key
    · rw [if_pos sameKey] at found ⊢
      rw [← sameKey, ← Option.some.inj found]
    · rw [if_neg sameKey] at found ⊢
      rw [ih found]

namespace Schema

open Members (get? get?_cons set_of_get?)

variable {inner node part space scope result : Json} {name text word key : String}
  {members : Members} {nodes parts types filled : List Json} {found : Bool}

/-! ### The parts of a node -/

def fieldType? : Json → Option Json
  | .obj attributes => get? attributes "type"
  | _ => none

def withType : Json → Json → Json
  | .obj attributes, type => .obj (Members.set attributes "type" type)
  | field, _ => field

/-- A record with other fields; one without fields stays as it is. -/
def withFields (members : Members) (fields : List Json) : Json :=
  .obj (if fields.isEmpty then members else Members.set members "fields" (.arr fields))

/-- A node holds parts, which stand in a namespace, and becomes another node if others take their
places. -/
inductive Refills (space : Json) : Json → Json → List Json → List Json → Json → Prop where
  | union {branches filled : List Json} :
      Refills space (.arr branches) space branches filled (.arr filled)
  | leaf {members : Members} {word : String} (typeIs : get? members "type" = some (.str word))
      (isLeaf : word ∈ "enum" :: "fixed" :: primitiveNames) :
      Refills space (.obj members) space [] [] (.obj members)
  | collection {node part : Json} {members : Members} {word key : String}
      (typeIs : get? members "type" = some (.str word))
      (isCollection : (word, key) ∈ [("array", "items"), ("map", "values")])
      (under : get? members key = some node) :
      Refills space (.obj members) space [node] [part] (.obj (Members.set members key part))
  | record {own name : Json} {members : Members} {word : String} {nodes types filled : List Json}
      (typeIs : get? members "type" = some (.str word)) (isRecord : word ∈ ["record", "error"])
      (named : qualifiedName (.obj members) space = .ok (own, name))
      (nodesAre : fieldNodes? members = some nodes)
      (typesAre : nodes.mapM fieldType? = some types) :
      Refills space (.obj members) own types filled
        (withFields members (nodes.zipWith withType filled))

theorem mapM_fieldType?_cons {field : Json}
    (typesAre : (field :: nodes).mapM fieldType? = some types) :
    ∃ attributes type others, field = .obj attributes ∧ get? attributes "type" = some type ∧
      nodes.mapM fieldType? = some others ∧ types = type :: others := by
  rw [List.mapM_cons] at typesAre
  obtain ⟨type, typeIs, typesAre⟩ := Option.bind_eq_some_iff.mp typesAre
  obtain ⟨others, othersAre, ⟨⟩⟩ := Option.bind_eq_some_iff.mp typesAre
  cases field with
  | obj attributes => exact ⟨attributes, type, others, rfl, typeIs, othersAre, rfl⟩
  | _ => cases typeIs

theorem zipWith_withType (typesAre : nodes.mapM fieldType? = some types) :
    nodes.zipWith withType types = nodes := by
  induction nodes generalizing types with
  | nil => rfl
  | cons field rest ih =>
    obtain ⟨attributes, type, others, rfl, typeIs, othersAre, rfl⟩ := mapM_fieldType?_cons typesAre
    rw [List.zipWith_cons_cons, ih othersAre, withType, set_of_get? typeIs]

private theorem withFields_self (nodesAre : fieldNodes? members = some nodes) :
    withFields members nodes = .obj members := by
  unfold withFields
  split
  · rfl
  · rename_i nonempty
    rcases fieldNodes?_eq_some nodesAre with rfl | present
    · simp at nonempty
    · rw [set_of_get? present]

/-- With its own parts a node stays as it is. -/
theorem Refills.self (refills : Refills space node scope parts filled result) :
    Refills space node scope parts parts node := by
  cases refills with
  | union => exact .union
  | leaf typeIs isLeaf => exact .leaf typeIs isLeaf
  | @collection node _ _ _ _ typeIs isCollection under =>
    have refilled : Refills space _ space _ [node] _ := .collection typeIs isCollection under
    rwa [set_of_get? under] at refilled
  | record typeIs isRecord named nodesAre typesAre =>
    have refilled : Refills space _ _ _ parts _ := .record typeIs isRecord named nodesAre typesAre
    rwa [zipWith_withType typesAre, withFields_self nodesAre] at refilled

/-! ### References and what takes their places -/

/-- A reference of a schema: the namespace in which it stands, its text, and the document that takes
its place. -/
structure Place where
  scope : Json
  text : String
  filling : Json

/-- A reference refers to the type of a full name. -/
def Place.Names (place : Place) (name : String) : Prop :=
  qualifyReference (.str place.text) place.scope = .ok (.str name)

/-- What takes the place of a reference is a reference to the same type. -/
def Place.Kept (place : Place) : Prop :=
  ∃ text name, place.filling = .str text ∧ text ∉ primitiveNames ∧ place.Names name ∧
    { place with text }.Names name

mutual

/-- A schema in a namespace has references at places, in document order, and it becomes another
schema if they are filled. -/
inductive Fills : Json → Json → List Place → Json → Prop where
  | primitive {space : Json} {word : String} (isPrimitive : word ∈ primitiveNames) :
      Fills space (.str word) [] (.str word)
  | reference {space filling : Json} {text : String} (notPrimitive : text ∉ primitiveNames) :
      Fills space (.str text) [⟨space, text, filling⟩] filling
  | node {space node scope result : Json} {parts filled : List Json} {places : List Place}
      (refills : Refills space node scope parts filled result)
      (inner : FillsAll scope parts places filled) :
      Fills space node places result

inductive FillsAll : Json → List Json → List Place → List Json → Prop where
  | nil {space : Json} : FillsAll space [] [] []
  | cons {space node part : Json} {rest filled : List Json} {places others : List Place}
      (first : Fills space node places part)
      (later : FillsAll space rest others filled) :
      FillsAll space (node :: rest) (places ++ others) (part :: filled)

end

/-- A full name refers to itself. -/
theorem qualifyReference_full (qualified : qualifyReference (.str text) space = .ok (.str name)) :
    qualifyReference (.str name) space = .ok (.str name) := by
  have given := qualified
  simp only [qualifyReference, mentions] at qualified
  split at qualified
  · cases qualified
    exact given
  · split at qualified
    · rename_i own suffix textIs _
      cases textIs
      cases qualified
      have dotted : Text.occursIn ".".toList (own ++ "." ++ text).toList = true := by
        rw [show ".".toList = ['.'] from rfl]
        exact occursIn_singleton (by simp)
      simp only [qualifyReference, mentions, dotted, Bool.true_or, if_true]
    · cases qualified

mutual

/-- Every reference that can be resolved may stay as it is. -/
theorem Fills.stays {space node other : Json} {places : List Place} :
    Fills space node places other →
    (∀ place ∈ places, ∃ name, place.Names name) →
    ∃ own, Fills space node own node ∧ ∀ place ∈ own, place.Kept
  | .primitive isPrimitive, _ => ⟨[], .primitive isPrimitive, by simp⟩
  | .reference notPrimitive, resolved => by
    obtain ⟨name, names⟩ := resolved _ List.mem_cons_self
    exact ⟨_, .reference notPrimitive, by simpa using ⟨_, name, rfl, notPrimitive, names, names⟩⟩
  | .node refills inner, resolved => by
    obtain ⟨own, fills, kept⟩ := inner.stay resolved
    exact ⟨own, .node refills.self fills, kept⟩

theorem FillsAll.stay {space : Json} {nodes others : List Json} {places : List Place} :
    FillsAll space nodes places others →
    (∀ place ∈ places, ∃ name, place.Names name) →
    ∃ own, FillsAll space nodes own nodes ∧ ∀ place ∈ own, place.Kept
  | .nil, _ => ⟨[], .nil, by simp⟩
  | .cons first later, resolved => by
    rw [List.forall_mem_append] at resolved
    obtain ⟨own, fills, kept⟩ := first.stays resolved.1
    obtain ⟨laterOwn, laterFills, laterKept⟩ := later.stay resolved.2
    exact ⟨own ++ laterOwn, .cons fills laterFills, List.forall_mem_append.mpr ⟨kept, laterKept⟩⟩

end

/-! ### The place of the definition -/

/-- The first reference to a type, if there is one, gives way to its definition, and every other
reference is kept. -/
inductive ReplacesFirst (name : String) (inner : Json) : List Place → Bool → Prop where
  | nothing {places : List Place} (others : ∀ place ∈ places, ¬ place.Names name ∧ place.Kept) :
      ReplacesFirst name inner places false
  | first {before after : List Place} {place : Place}
      (others : ∀ place ∈ before, ¬ place.Names name ∧ place.Kept)
      (names : place.Names name) (isInner : place.filling = inner)
      (kept : ∀ place ∈ after, place.Kept) :
      ReplacesFirst name inner (before ++ place :: after) true

namespace ReplacesFirst

variable {places later : List Place}

/-- What follows the definition is kept. -/
theorem stop (replaces : ReplacesFirst name inner places true)
    (kept : ∀ place ∈ later, place.Kept) :
    ReplacesFirst name inner (places ++ later) true := by
  cases replaces with
  | first others names isInner afterKept =>
    rw [List.append_assoc]
    exact .first others names isInner (List.forall_mem_append.mpr ⟨afterKept, kept⟩)

/-- If there is no place for the definition, the search goes on. -/
theorem goOn (replaces : ReplacesFirst name inner places false)
    (laterReplaces : ReplacesFirst name inner later found) :
    ReplacesFirst name inner (places ++ later) found := by
  cases replaces with
  | nothing others =>
    cases laterReplaces with
    | nothing laterOthers => exact .nothing (List.forall_mem_append.mpr ⟨others, laterOthers⟩)
    | first before names isInner kept =>
      rw [← List.append_assoc]
      exact .first (List.forall_mem_append.mpr ⟨others, before⟩) names isInner kept

end ReplacesFirst

/-! ### The search -/

theorem injectUnder_of_get? (under : get? members key = some node) :
    injectUnder inner space key members = injectNode inner space node := by
  induction members with
  | nil => cases under
  | cons member rest ih =>
    rw [get?_cons] at under
    rw [injectUnder]
    by_cases wanted : member.1 = key
    · rw [if_pos wanted] at under ⊢
      cases under
      rfl
    · rw [if_neg wanted] at under ⊢
      exact ih under

private theorem injectFieldsIn_of_fieldNodes? (nodesAre : fieldNodes? members = some nodes) :
    injectFieldsIn inner space members = injectFields inner space nodes := by
  induction members with
  | nil =>
    cases nodesAre
    rfl
  | cons member rest ih =>
    obtain ⟨other, otherValue⟩ := member
    rw [fieldNodes?_cons] at nodesAre
    by_cases wanted : other = "fields"
    · subst wanted
      cases otherValue with
      | arr fields => simp_all [injectFieldsIn, fieldNodes?, get?]
      | str text =>
        by_cases blank : text = "" <;> simp_all [injectFieldsIn, fieldNodes?, get?, injectFields]
      | obj inner =>
        by_cases blank : inner = [] <;> simp_all [injectFieldsIn, fieldNodes?, get?, injectFields]
      | _ => simp_all [fieldNodes?, get?]
    · rw [if_neg wanted] at nodesAre
      rw [← ih nodesAre]
      cases otherValue <;> simp [injectFieldsIn, wanted]

/-- The fields of a record are searched like the branches of a union. -/
theorem injectFields_of_types (typesAre : nodes.mapM fieldType? = some types)
    (done : injectBranches inner space types = .ok (filled, found)) :
    injectFields inner space nodes = .ok (nodes.zipWith withType filled, found) := by
  induction nodes generalizing types filled with
  | nil =>
    cases typesAre
    cases done
    rfl
  | cons field rest ih =>
    obtain ⟨attributes, type, others, rfl, typeIs, othersAre, rfl⟩ := mapM_fieldType?_cons typesAre
    rw [injectBranches] at done
    obtain ⟨⟨searched, foundFirst⟩, firstDone, done⟩ := outcome_bind_ok.mp done
    have fieldDone : injectField inner space (.obj attributes) =
        .ok (withType (.obj attributes) searched, foundFirst) := by
      rw [injectField, injectUnder_of_get? typeIs, firstDone]
      rfl
    rw [injectFields, fieldDone]
    cases foundFirst with
    | true =>
      cases done
      rw [List.zipWith_cons_cons, zipWith_withType othersAre]
      rfl
    | false =>
      obtain ⟨⟨later, foundLater⟩, laterDone, ⟨⟩⟩ := outcome_bind_ok.mp done
      rw [outcome_ok_bind, ih othersAre laterDone]
      rfl

/-- A search of a node is a search of its parts, one after the other. -/
theorem Refills.search {given : List Json} {other : Json}
    (refills : Refills space node scope parts given other)
    (done : injectBranches inner scope parts = .ok (filled, found)) :
    ∃ result, injectNode inner space node = .ok (result, found) ∧
      Refills space node scope parts filled result := by
  cases refills with
  | union =>
    refine ⟨_, ?_, .union⟩
    rw [injectNode, done]
    rfl
  | leaf typeIs isLeaf =>
    cases done
    refine ⟨_, ?_, .leaf typeIs isLeaf⟩
    rw [injectNode, required_ok.mpr typeIs]
    simp only [primitiveNames, List.mem_cons, List.not_mem_nil, or_false] at isLeaf
    rcases isLeaf with rfl | rfl | rfl | rfl | rfl | rfl | rfl | rfl | rfl | rfl <;> rfl
  | collection typeIs isCollection under =>
    rw [injectBranches] at done
    obtain ⟨⟨searched, foundPart⟩, partDone, done⟩ := outcome_bind_ok.mp done
    obtain ⟨rfl, rfl⟩ : [searched] = filled ∧ foundPart = found := by
      cases foundPart <;> cases done <;> exact ⟨rfl, rfl⟩
    refine ⟨_, ?_, .collection typeIs isCollection under⟩
    rw [← injectUnder_of_get? under] at partDone
    rw [injectNode, required_ok.mpr typeIs, outcome_ok_bind]
    rcases Members.mem_pairs.mp isCollection with ⟨rfl, rfl⟩ | ⟨rfl, rfl⟩
    · exact outcome_bind_ok.mpr ⟨_, partDone, rfl⟩
    · exact outcome_bind_ok.mpr ⟨_, partDone, rfl⟩
  | @record _ _ members _ nodes _ _ typeIs isRecord named nodesAre typesAre =>
    refine ⟨_, ?_, .record typeIs isRecord named nodesAre typesAre⟩
    have searched : injectRecord members (fun own => injectFieldsIn inner own members) space =
        .ok (withFields members (nodes.zipWith withType filled), found) := by
      have fieldsDone := (injectFieldsIn_of_fieldNodes? nodesAre).trans
        (injectFields_of_types typesAre done)
      exact outcome_bind_ok.mpr ⟨_, named, outcome_bind_ok.mpr ⟨_, fieldsDone, rfl⟩⟩
    rw [← searched, injectNode, required_ok.mpr typeIs]
    rcases List.mem_pair.mp isRecord with rfl | rfl <;> rfl

mutual

/-- A search of a schema in a namespace finds the place of a definition, if there is one. -/
theorem Fills.search {name : String} {inner space node other : Json} {given : List Place}
    (nameIs : attributeOf inner "name" = .ok (.str name)) : Fills space node given other →
      (∀ place ∈ given, ∃ name, place.Names name) → ∃ result found places,
        injectNode inner space node = .ok (result, found) ∧ Fills space node places result ∧
        ReplacesFirst name inner places found
  | .primitive isPrimitive, _ => by
    refine ⟨_, false, [], ?_, .primitive isPrimitive, .nothing (by simp)⟩
    rw [injectNode, injectReference, Schema.isPrimitive, List.contains_iff_mem.mpr isPrimitive]
    · rfl
    all_goals nofun
  | @Fills.reference _ _ text notPrimitive, resolved => by
    obtain ⟨full, qualified⟩ := resolved _ List.mem_cons_self
    have unknown : primitiveNames.contains text = false := by simpa using notPrimitive
    have done : injectNode inner space (.str text) =
        if (full == name) = true then .ok (inner, true) else .ok (.str full, false) := by
      rw [injectNode, injectReference, isPrimitive, unknown, qualified, nameIs, ← Json.same]
      · rfl
      all_goals nofun
    by_cases same : full = name
    · rw [if_pos (by simpa using same)] at done
      exact ⟨inner, true, _, done, .reference notPrimitive,
        @ReplacesFirst.first _ _ [] [] _ (by simp) (same ▸ qualified) rfl (by simp)⟩
    · rw [if_neg (by simpa using same)] at done
      have differs : ¬ Place.Names ⟨space, text, .str full⟩ name := fun names =>
        same (Json.str.inj (Except.ok.inj (qualified.symm.trans names)))
      have kept : Place.Kept ⟨space, text, .str full⟩ :=
        ⟨full, full, rfl, notPrimitive_qualified notPrimitive qualified, qualified,
          qualifyReference_full qualified⟩
      exact ⟨.str full, false, _, done, .reference notPrimitive,
        .nothing (by simpa using ⟨differs, kept⟩)⟩
  | .node refills inner, resolved => by
    obtain ⟨filled, found, places, done, fills, replaces⟩ := inner.search nameIs resolved
    obtain ⟨result, nodeDone, refilled⟩ := refills.search done
    exact ⟨result, found, places, nodeDone, .node refilled fills, replaces⟩

theorem FillsAll.search {name : String} {inner space : Json} {nodes others : List Json}
    {given : List Place} (nameIs : attributeOf inner "name" = .ok (.str name)) :
    FillsAll space nodes given others →
      (∀ place ∈ given, ∃ name, place.Names name) → ∃ results found places,
        injectBranches inner space nodes = .ok (results, found) ∧
        FillsAll space nodes places results ∧
          ReplacesFirst name inner places found
  | .nil, _ => ⟨[], false, [], rfl, .nil, .nothing (by simp)⟩
  | .cons first later, resolved => by
    rw [List.forall_mem_append] at resolved
    obtain ⟨result, found, places, done, fills, replaces⟩ := first.search nameIs resolved.1
    rw [injectBranches, done, outcome_ok_bind]
    cases found with
    | true =>
      obtain ⟨own, ownFills, kept⟩ := later.stay resolved.2
      exact ⟨_, true, _, rfl, .cons fills ownFills, replaces.stop kept⟩
    | false =>
      obtain ⟨results, foundLater, laterPlaces, laterDone, laterFills, laterReplaces⟩ :=
        later.search nameIs resolved.2
      dsimp only
      rw [if_neg Bool.false_ne_true, laterDone]
      exact ⟨_, foundLater, _, rfl, .cons fills laterFills, replaces.goOn laterReplaces⟩

end

/-! ### The references of a parsed schema -/

theorem notLeaf {word : String} :
    word ∈ ["array", "map", "record", "error"] → word ∉ "enum" :: "fixed" :: primitiveNames := by
  revert word
  decide

section Inversion

variable {places : List Place} (typeIs : get? members "type" = some (.str word))

include typeIs

theorem Fills.places_leaf (isLeaf : word ∈ "enum" :: "fixed" :: primitiveNames)
    (fills : Fills space (.obj members) places result) : places = [] := by
  cases fills with
  | node refills inner =>
    cases refills with
    | leaf =>
      cases inner
      rfl
    | collection otherIs isCollection => exact absurd isLeaf (notLeaf (by grind))
    | record otherIs isRecord => exact absurd isLeaf (notLeaf (by grind))

theorem Fills.part_collection (isCollection : (word, key) ∈ [("array", "items"), ("map", "values")])
    (under : get? members key = some node) (fills : Fills space (.obj members) places result) :
    ∃ part, FillsAll space [node] places [part] := by
  cases fills with
  | node refills inner =>
    cases refills with
    | leaf otherIs isLeaf => exact absurd isLeaf (notLeaf (by grind))
    | @collection _ part _ _ otherKey otherIs otherCollection otherUnder =>
      obtain rfl : key = otherKey := by grind
      cases under.symm.trans otherUnder
      exact ⟨part, inner⟩
    | record otherIs isRecord => grind

theorem Fills.types_record {own full : Json} (isRecord : word ∈ ["record", "error"])
    (named : qualifiedName (.obj members) space = .ok (own, full))
    (nodesAre : fieldNodes? members = some nodes)
    (fills : Fills space (.obj members) places result) :
    ∃ types filled, nodes.mapM fieldType? = some types ∧ FillsAll own types places filled := by
  cases fills with
  | node refills inner =>
    cases refills with
    | leaf otherIs isLeaf => exact absurd isLeaf (notLeaf (by grind))
    | collection otherIs isCollection => grind
    | record _ _ otherNamed otherNodes typesAre =>
      cases named.symm.trans otherNamed
      cases nodesAre.symm.trans otherNodes
      exact ⟨_, _, typesAre, inner⟩

end Inversion

/-- A reference that stands outside of any namespace under the full name of another. -/
def Place.IsFullForm (full place : Place) : Prop := full.scope = .str "" ∧ place.Names full.text

mutual

/-- The references of a parsed schema are the full names of those it had before. -/
theorem Parses.fills_full {space node parsed filled : Json} {start stop : ParseState}
    {places : List Place} :
    Parses false space node start parsed stop → Fills space node places filled →
      ∃ full, Fills (.str "") parsed full parsed ∧ List.Forall₂ Place.IsFullForm full places
  | .primitive isPrimitive, fills => by
    cases fills with
    | primitive => exact ⟨[], .primitive isPrimitive, .nil⟩
    | reference notPrimitive => exact absurd isPrimitive notPrimitive
    | node refills => cases refills
  | .reference notPrimitive qualified _ _, fills => by
    cases fills with
    | primitive isPrimitive => exact absurd isPrimitive notPrimitive
    | reference =>
      exact ⟨_, .reference (notPrimitive_qualified notPrimitive qualified),
        .cons ⟨rfl, qualified⟩ .nil⟩
    | node refills => cases refills
  | .expansion _ _ _ expanded _, _ => by exact absurd expanded (by simp)
  | .union parts, fills => by
    cases fills with
    | node refills inner =>
      cases refills
      obtain ⟨full, fullFills, areFull⟩ := parts.fills_full inner
      exact ⟨full, .node .union fullFills, areFull⟩
  | .primitiveNode typeIs _ isPrimitive, fills => by
    have isLeaf := List.mem_cons_of_mem "enum" (List.mem_cons_of_mem "fixed" isPrimitive)
    obtain rfl := fills.places_leaf typeIs isLeaf
    refine ⟨[], .node (.leaf ?_ isLeaf) .nil, .nil⟩
    rw [← List.append_nil (commonAttributes _ _)]
    exact get?_type_commonAttributes _ [] _
  | @Parses.collection _ _ node part members word key _ _ typeIs _ isCollection under
      inner, fills => by
    obtain ⟨_, _ | ⟨fillsPart, ⟨⟩⟩⟩ := fills.part_collection typeIs isCollection under
    obtain ⟨full, fullFills, areFull⟩ := inner.fills_full fillsPart
    have isOwn : ∀ pair ∈ [("array", "items"), ("map", "values")],
        pair.2 ∈ reservedAttributes.erase "doc" ∧ "type" ≠ pair.2 := by
      decide
    have underParsed : get? (commonAttributes members (.str word) ++ [(key, part)]) key =
        some part := by
      rw [get?_own (isOwn _ isCollection).1, get?_cons, if_neg (isOwn _ isCollection).2,
        get?_cons, if_pos rfl]
    have refills : Refills (.str "") _ _ _ [part] _ :=
      .collection (get?_type_commonAttributes members _ _) isCollection underParsed
    exact ⟨full ++ [], .node refills.self (.cons fullFills .nil), List.rel_append areFull .nil⟩
  | .leaf typeIs _ isLeaf _ _ _ _, fills => by
    have isWord : ∀ pair ∈ [("enum", "symbols"), ("fixed", "size")], pair.1 ∈ "enum" :: "fixed" ::
      primitiveNames := by decide
    obtain rfl := fills.places_leaf typeIs (isWord _ isLeaf)
    exact ⟨[], .node (.leaf (get?_type_commonAttributes _ _ _) (isWord _ isLeaf)) .nil, .nil⟩
  | @Parses.record _ _ _ fullName members word _ _ fields _ _ typeIs _ isRecord named _ _ nodesAre
      inner, fills => by
    obtain ⟨types, filled, typesAre, fillsTypes⟩ :=
      fills.types_record typeIs isRecord named nodesAre
    obtain ⟨parsedTypes, full, parsedAre, fullFills, areFull⟩ :=
      inner.fills_full typesAre fillsTypes
    have parsedNodes : fieldNodes? (recordMembers members word fullName fields) = some fields := by
      rw [fieldNodes?, recordMembers, get?_own (by decide)]
      rfl
    have refills : Refills (.str "") _ _ _ parsedTypes _ :=
      .record (get?_type_commonAttributes members _ _) isRecord (qualifiedName_parsed rfl rfl)
        parsedNodes parsedAre
    exact ⟨full, .node refills.self fullFills, areFull⟩

theorem ParsesBranches.fills_full {space : Json} {branches parsed filled : List Json}
    {start stop : ParseState} {places : List Place} :
    ParsesBranches false space branches start parsed stop → FillsAll space branches places filled →
      ∃ full, FillsAll (.str "") parsed full parsed ∧ List.Forall₂ Place.IsFullForm full places
  | .nil, .nil => ⟨[], .nil, .nil⟩
  | .cons first others, .cons fillsFirst fillsOthers => by
    obtain ⟨full, fullFills, areFull⟩ := first.fills_full fillsFirst
    obtain ⟨fullOthers, othersFills, othersAreFull⟩ := others.fills_full fillsOthers
    exact ⟨full ++ fullOthers, .cons fullFills othersFills, List.rel_append areFull othersAreFull⟩

theorem ParsesFields.fills_full {space : Json} {nodes parsed types filled : List Json}
    {start stop : ParseState} {places : List Place} :
    ParsesFields false space nodes start parsed stop → nodes.mapM fieldType? = some types →
      FillsAll space types places filled →
      ∃ parsedTypes full, parsed.mapM fieldType? = some parsedTypes ∧
        FillsAll (.str "") parsedTypes full parsedTypes ∧ List.Forall₂ Place.IsFullForm full places
  | .nil, typesAre, fills => by
    cases typesAre
    cases fills
    exact ⟨[], [], rfl, .nil, .nil⟩
  | .cons listed named under inner others, typesAre, fills => by
    obtain ⟨_, _, _, ⟨⟩, otherUnder, othersAre, rfl⟩ := mapM_fieldType?_cons typesAre
    cases under.symm.trans otherUnder
    obtain _ | ⟨fillsFirst, fillsOthers⟩ := fills
    obtain ⟨full, fullFills, areFull⟩ := inner.fills_full fillsFirst
    obtain ⟨parsedTypes, fullOthers, parsedAre, othersFills, othersAreFull⟩ :=
      others.fills_full othersAre fillsOthers
    refine ⟨_, full ++ fullOthers, ?_, .cons fullFills othersFills,
      List.rel_append areFull othersAreFull⟩
    rw [List.mapM_cons, fieldType?, get?_fieldMembers _ _ _ (by decide), parsedAre]
    rfl

end

/-! ### The first reference -/

end Schema

end Avro
