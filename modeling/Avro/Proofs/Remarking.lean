import Avro.Proofs.Rereading

/-!
Contract: what the marks of a schema do to its parse by force.

Owns: `unmark`, a schema freed from its marks; `Remarked`, schemas that differ in marks only, which
are accepted by force alike; and that a schema with some of its marks is parsed by force to one with
the same marks.
-/

namespace Avro.Schema

open Members (get? get?_erase has keys)

open Json (mapFloats mapItems mapMembers itemsDistinct sameItems)

variable {members : Members} {registry : Registry}

/-! ### Schemas that differ in marks -/

mutual

/-- A schema freed from its marks, at the top and at the branches of a union. -/
def unmark : Json → Json
  | .obj members => .obj (Members.erase (Members.erase members parsedKey) registryKey)
  | .arr branches => .arr (unmarkBranches branches)
  | schema => schema
termination_by structural schema => schema

def unmarkBranches : List Json → List Json
  | [] => []
  | branch :: rest => unmark branch :: unmarkBranches rest
termination_by structural branches => branches

end

mutual

/-- Two schemas that differ in marks only, at the top and at the branches of a union. -/
inductive Remarked : Json → Json → Prop where
  | refl (schema : Json) : Remarked schema schema
  | obj {left right : List (String × Json)}
      (same : ∀ key, key ∉ marks → get? left key = get? right key) :
      Remarked (.obj left) (.obj right)
  | arr {left right : List Json} (branches : RemarkedBranches left right) :
      Remarked (.arr left) (.arr right)

inductive RemarkedBranches : List Json → List Json → Prop where
  | nil : RemarkedBranches [] []
  | cons {left right : Json} {lefts rights : List Json} (first : Remarked left right)
      (others : RemarkedBranches lefts rights) :
      RemarkedBranches (left :: lefts) (right :: rights)

end

mutual

theorem Remarked.symm {left right : Json} : Remarked left right → Remarked right left
  | .refl schema => .refl schema
  | .obj same => .obj fun key notMark => (same key notMark).symm
  | .arr branches => .arr branches.symm

theorem RemarkedBranches.symm {left right : List Json} :
    RemarkedBranches left right → RemarkedBranches right left
  | .nil => .nil
  | .cons first others => .cons first.symm others.symm

end

mutual

theorem remarked_unmark : ∀ schema : Json, Remarked schema (unmark schema)
  | .null | .bool _ | .int _ | .float _ | .str _ => .refl _
  | .arr branches => .arr (remarkedBranches_unmark branches)
  | .obj members => by
    refine .obj fun key notMark => ?_
    simp only [marks, List.mem_cons, List.not_mem_nil, or_false, not_or] at notMark
    rw [get?_erase (Ne.symm notMark.2), get?_erase (Ne.symm notMark.1)]

theorem remarkedBranches_unmark :
    ∀ branches : List Json, RemarkedBranches branches (unmarkBranches branches)
  | [] => .nil
  | branch :: rest => .cons (remarked_unmark branch) (remarkedBranches_unmark rest)

end

mutual

theorem Remarked.mapFloats (change : Double → Double) {left right : Json} : Remarked left right →
    Remarked (Json.mapFloats change left) (Json.mapFloats change right)
  | .refl schema => .refl _
  | .obj same => by
    refine .obj fun key notMark => ?_
    rw [get?_mapMembers, get?_mapMembers, same key notMark]
  | .arr branches => .arr (branches.mapItems change)

theorem RemarkedBranches.mapItems (change : Double → Double) {left right : List Json} :
    RemarkedBranches left right →
    RemarkedBranches (Json.mapItems change left) (Json.mapItems change right)
  | .nil => .nil
  | .cons first others => .cons (first.mapFloats change) (others.mapItems change)

end

section Nodes

variable {left right : Members} {space parsed : Json} {start stop other : ParseState}

/-- What is under a key of a parsed node depends on what is under that key of the given node. -/
theorem get?_parsed_congr {type : Json} {own : Members} (areOwn : Schema.areOwn own = true)
    {key : String} (same : get? left key = get? right key) :
    get? (commonAttributes left type ++ own) key =
      get? (commonAttributes right type ++ own) key := by
  by_cases isReserved : reservedAttributes.contains key = true
  · by_cases isType : "type" = key
    · rw [← isType, get?_type_commonAttributes, get?_type_commonAttributes]
    · by_cases isDoc : "doc" = key
      · subst isDoc
        rw [get?_doc_parsed areOwn, get?_doc_parsed areOwn, same]
      · rw [get?_behind_common isReserved isType isDoc, get?_behind_common isReserved isType isDoc]
  · have notReserved : reservedAttributes.contains key = false := by simpa using isReserved
    have absent := notMem_keys_of_notReserved areOwn notReserved
    rw [get?_kept notReserved absent, get?_kept notReserved absent, same]

/-- Marks play no part in the parse of a node, except that they are kept among its common
attributes. -/
theorem Parses.remarked_obj (same : ∀ key, key ∉ marks → get? left key = get? right key)
    (derivation : Parses false space (.obj left) start parsed stop)
    (understood : ∀ name, Understands start.registry name → Understands other.registry name)
    (free : ∀ name ∈ names parsed, name ∉ other.defined) :
    ∃ word own after, areOwn own = true ∧ parsed = .obj (commonAttributes left (.str word) ++ own) ∧
      Parses false space (.obj right) other
        (.obj (commonAttributes right (.str word) ++ own)) after ∧
      ∀ name, Understands stop.registry name → Understands after.registry name := by
  have checkedAs (word : String) : checkDecimal right (.str word) =
      checkDecimal left (.str word) := by
    have notMarks : ∀ key ∈ ["logicalType", "scale", "precision"], key ∉ marks := by decide
    exact (checkDecimal_congr (fun key isKey => same key (notMarks key isKey)) fun _ =>
      same "size" (by decide)).symm
  have typeAs := same "type" (by decide)
  cases derivation with
  | primitiveNode typeIs checked isPrimitive =>
    have done : Parses false space (.obj right) other _ other :=
      .primitiveNode (typeAs ▸ typeIs) ((checkedAs _).trans checked) isPrimitive
    exact ⟨_, [], other, rfl, by rw [List.append_nil], by rwa [List.append_nil], understood⟩
  | collection typeIs checked isCollection under inner =>
    obtain ⟨entries, effect⟩ := inner.effect
    have notMarks : ∀ pair ∈ [("array", "items"), ("map", "values")], pair.2 ∉ marks := by decide
    rw [names_collection isCollection] at free
    refine ⟨_, _, _, areOwn_collection isCollection _, rfl,
      .collection (typeAs ▸ typeIs) ((checkedAs _).trans checked)
      isCollection (same _ (notMarks _ isCollection) ▸ under)
        (effect.replays other understood free), ?_⟩
    rw [effect.stopIs]
    exact understands_union understood
  | leaf typeIs checked isLeaf named entryIs fresh under =>
    have notMarks : ∀ pair ∈ [("enum", "symbols"), ("fixed", "size")], pair.2 ∉ marks := by decide
    rw [names_leaf isLeaf entryIs, List.forall_mem_singleton] at free
    exact ⟨_, _, _, areOwn_leaf isLeaf _ _, rfl,
      .leaf (typeAs ▸ typeIs) ((checkedAs _).trans checked) isLeaf
      (qualifiedName_congr (same "name" (by decide)) (same "namespace" (by decide)) named) entryIs
        free
      (same _ (notMarks _ isLeaf) ▸ under), understands_set understood _ _ _⟩
  | @record _ _ name _ word entry nodes fields _ between typeIs checked isRecord named entryIs fresh
      nodesAre inner =>
    obtain ⟨entries, effect⟩ := inner.effect
    rw [names_record isRecord entryIs, List.forall_mem_cons] at free
    have nodesAgain : fieldNodes? right = some nodes := by
      rw [← nodesAre, fieldNodes?, fieldNodes?, same "fields" (by decide)]
    have innerUnderstood := understands_set understood entry (commonAttributes left (.str word))
      (commonAttributes right (.str word))
    have innerFree (taken) (isTaken : taken ∈ namesOfFields fields) :
        taken ∉ (other.enter entry (commonAttributes right (.str word))).defined := by
      have notEntry := effect.free taken isTaken
      simp only [ParseState.enter, List.mem_cons, not_or] at notEntry ⊢
      exact ⟨notEntry.1, free.2 taken isTaken⟩
    refine ⟨_, _, _, rfl, rfl, .record (typeAs ▸ typeIs) ((checkedAs _).trans checked) isRecord
      (qualifiedName_congr (same "name" (by decide)) (same "namespace" (by decide)) named) entryIs
        free.1 nodesAgain
      (effect.replays _ innerUnderstood innerFree), ?_⟩
    rw [effect.stopIs]
    exact understands_set (understands_union innerUnderstood) _ _ _

/-- Names that the rest of a union defines stay free while its first branch is parsed in another
state. -/
theorem Parses.free_rest {first plain otherFirst otherPlain : Json} {branches parsed : List Json}
    {between otherBetween : ParseState} (done : Parses false (.str "") first start plain between)
    (restDone : ParsesBranches false (.str "") branches between parsed stop)
    (again : Parses false (.str "") otherFirst other otherPlain otherBetween)
    (sameNames : names otherPlain = names plain)
    (free : ∀ name ∈ branchNames parsed, name ∉ other.defined) :
    ∀ name ∈ branchNames parsed, name ∉ otherBetween.defined := by
  have ⟨_, effect⟩ := done.effect
  have ⟨_, againEffect⟩ := again.effect
  have ⟨_, restEffect⟩ := restDone.effect
  have restFree := restEffect.free
  rw [effect.stopIs] at restFree
  intro name isLater isDefined
  rw [againEffect.stopIs, ParseState.extend, sameNames] at isDefined
  rcases List.mem_append.mp isDefined with isTaken | wasDefined
  · exact restFree name isLater (List.mem_append_left _ isTaken)
  · exact free name isLater wasDefined

end Nodes

mutual

/-- Schemas that differ in marks only are parsed to schemas that define the same names. -/
theorem Remarked.parses {left right parsed : Json} {start stop other : ParseState} :
    Remarked left right →
    Parses false (.str "") left start parsed stop →
      (∀ name, Understands start.registry name → Understands other.registry name) →
      (∀ name ∈ names parsed, name ∉ other.defined) →
      ∃ otherParsed after, Parses false (.str "") right other otherParsed after ∧
        names otherParsed = names parsed ∧
        ∀ name, Understands stop.registry name → Understands after.registry name
  | .refl schema, derivation, understood, free => by
    have ⟨entries, effect⟩ := derivation.effect
    refine ⟨parsed, _, effect.replays other understood free, rfl, ?_⟩
    rw [effect.stopIs]
    exact understands_union understood
  | .obj same, derivation, understood, free => by
    obtain ⟨word, own, after, areOwn, rfl, done, stillUnderstood⟩ :=
      derivation.remarked_obj same understood free
    exact ⟨_, after, done, by rw [names_parsed, names_parsed], stillUnderstood⟩
  | .arr branches, .union parts, understood, free => by
    have ⟨otherParts, after, done, sameNames, stillUnderstood⟩ :=
      branches.parses parts understood free
    exact ⟨.arr otherParts, after, .union done, sameNames, stillUnderstood⟩

theorem RemarkedBranches.parses {lefts rights parsed : List Json} {start stop other : ParseState} :
    RemarkedBranches lefts rights → ParsesBranches false (.str "") lefts start parsed stop →
      (∀ name, Understands start.registry name → Understands other.registry name) →
      (∀ name ∈ branchNames parsed, name ∉ other.defined) →
      ∃ otherParsed after, ParsesBranches false (.str "") rights other otherParsed after ∧
        branchNames otherParsed = branchNames parsed ∧ ∀ name, Understands stop.registry name →
        Understands after.registry name
  | .nil, .nil, understood, _ => by exact ⟨[], other, .nil, rfl, understood⟩
  | .cons first others, .cons firstDone othersDone, understood, free => by
    rw [branchNames] at free
    have ⟨firstFree, othersFree⟩ := List.forall_mem_append.mp free
    have ⟨otherFirst, between, firstAgain, firstNames, betweenUnderstood⟩ :=
      first.parses firstDone understood firstFree
    have ⟨otherRest, after, restAgain, restNames, afterUnderstood⟩ :=
      others.parses othersDone betweenUnderstood
        (firstDone.free_rest othersDone firstAgain firstNames othersFree)
    refine ⟨otherFirst :: otherRest, after, .cons firstAgain restAgain, ?_, afterUnderstood⟩
    rw [branchNames, branchNames, firstNames, restNames]

end

/-- Schemas that differ in marks only are accepted by force alike. -/
theorem Remarked.forced {left right : Json} (remarked : Remarked left right)
    (accepted : ∃ plain registry, parse .forced [] left = .ok (plain, registry)) :
    ∃ plain registry, parse .forced [] right = .ok (plain, registry) := by
  have ⟨plain, registry, forced⟩ := accepted
  have ⟨defined, derivation⟩ := parse_forced_ok.mp forced
  have nothing : ∀ name ∈ names plain, name ∉ (ParseState.mk [] []).defined := by simp
  have ⟨otherPlain, after, again, _, _⟩ := remarked.parses derivation (fun _ => id) nothing
  exact ⟨otherPlain, after.registry, parse_forced_ok.mpr ⟨after.defined, again⟩⟩

/-! ### Schemas with some of their marks -/

/-- The marks of a record are kept when it is parsed by force, and the rest of it stays as it is. -/
theorem PartlyMarked.parses_adopted {others : Members} {start stop other : ParseState}
    (isMarked : marked registry (.obj members) = .obj (sealedMembers registry members))
    (same : ∀ key, get? others key = get? (sealedMembers registry members) key)
    (derivation : Parses false (.str "") (.obj members) start (.obj members) stop)
    (understood : ∀ name, Understands start.registry name → Understands other.registry name)
    (free : ∀ name ∈ names (.obj members), name ∉ other.defined) :
    ∃ parsed after, Parses false (.str "") (.obj others) other parsed after ∧
      PartlyMarked registry (.obj members) parsed parsed ∧
      names parsed = names (.obj members) ∧ ∀ name, Understands stop.registry name →
      Understands after.registry name := by
  have offMarks (key : String) (notMark : key ∉ marks) : get? members key = get? others key := by
    rw [same, get?_sealed members registry notMark]
  have ⟨word, own, after, areOwn, isParsed, done, stillUnderstood⟩ :=
    derivation.remarked_obj offMarks understood free
  have membersAre : members = commonAttributes members (.str word) ++ own := Json.obj.inj isParsed
  have notReserved : ∀ mark ∈ marks, reservedAttributes.contains mark = false := by decide
  refine ⟨_, after, done, .adopted isMarked fun key => ?_, ?_, stillUnderstood⟩
  · by_cases isMark : key ∈ marks
    · have absent := notMem_keys_of_notReserved areOwn (notReserved key isMark)
      rw [get?_kept (notReserved key isMark) absent, same]
    · rw [← get?_parsed_congr areOwn (offMarks key isMark), ← membersAre,
        get?_sealed members registry isMark]
  · rw [names_parsed, membersAre, names_parsed]

mutual

/-- A schema with some of its marks is parsed by force to one with the same marks. -/
theorem PartlyMarked.parses {registry : Registry} {plain given result : Json}
    {start stop other : ParseState} :
    PartlyMarked registry plain given result → Parses false (.str "") plain start plain stop →
      (∀ name, Understands start.registry name → Understands other.registry name) →
      (∀ name ∈ names plain, name ∉ other.defined) →
      ∃ parsed after next, Parses false (.str "") given other parsed after ∧
        PartlyMarked registry plain parsed next ∧
        names parsed = names plain ∧ ∀ name, Understands stop.registry name →
        Understands after.registry name
  | .plain notUnion, derivation, understood, free => by
    have ⟨entries, effect⟩ := derivation.effect
    refine ⟨plain, _, _, effect.replays other understood free, .plain notUnion, rfl, ?_⟩
    rw [effect.stopIs]
    exact understands_union understood
  | .adopted isMarked same, derivation, understood, free => by
    have ⟨parsed, after, done, partly, sameNames, stillUnderstood⟩ :=
      PartlyMarked.parses_adopted isMarked same derivation understood free
    exact ⟨parsed, after, parsed, done, partly, sameNames, stillUnderstood⟩
  | .union branches, .union parts, understood, free => by
    have ⟨parsed, after, next, done, partly, sameNames, stillUnderstood⟩ :=
      branches.parses parts understood free
    exact ⟨.arr parsed, after, .arr next, .union done, .union partly, sameNames, stillUnderstood⟩

theorem BranchesPartlyMarked.parses {registry : Registry} {plains givens results : List Json}
    {start stop other : ParseState} :
    BranchesPartlyMarked registry plains givens results →
    ParsesBranches false (.str "") plains start plains stop →
      (∀ name, Understands start.registry name → Understands other.registry name) →
      (∀ name ∈ branchNames plains, name ∉ other.defined) →
      ∃ parsed after next, ParsesBranches false (.str "") givens other parsed after ∧
        BranchesPartlyMarked registry plains parsed next ∧ branchNames parsed = branchNames plains ∧
        ∀ name, Understands stop.registry name → Understands after.registry name
  | .nil, .nil, understood, _ => by exact ⟨[], other, [], .nil, .nil, rfl, understood⟩
  | .cons first others, .cons firstDone othersDone, understood, free => by
    rw [branchNames] at free
    have ⟨firstFree, othersFree⟩ := List.forall_mem_append.mp free
    have ⟨parsed, between, next, firstAgain, partly, firstNames, betweenUnderstood⟩ :=
      first.parses firstDone understood firstFree
    have ⟨rest, after, restNext, restAgain, restPartly, restNames, afterUnderstood⟩ :=
      others.parses othersDone betweenUnderstood
        (firstDone.free_rest othersDone firstAgain firstNames othersFree)
    refine ⟨parsed :: rest, after, next :: restNext, .cons firstAgain restAgain,
      .cons partly restPartly, ?_, afterUnderstood⟩
    rw [branchNames, branchNames, firstNames, restNames]

end

mutual

/-- What a schema with some of its marks is parsed to equals what the schema without them is parsed
to. -/
theorem PartlyMarked.same_eq {registry : Registry} {plain given result : Json} :
    PartlyMarked registry plain given result →
    (marked registry plain).keysDistinct = true → given.keysDistinct = true →
      ∀ other : Json, other.same result = other.same (marked registry plain)
  | .plain _, _, _, _ => by rfl
  | .adopted isMarked same, distinct, givenDistinct, other => by
    rw [isMarked, Json.keysDistinct, Bool.and_eq_true, decide_eq_true_eq] at distinct
    rw [Json.keysDistinct, Bool.and_eq_true, decide_eq_true_eq] at givenDistinct
    rw [isMarked]
    exact Json.same_obj_congr givenDistinct.1 distinct.1 same other
  | .union branches, distinct, givenDistinct, other => by
    exact Json.same_arr_congr (branches.same_eq distinct givenDistinct) other

theorem BranchesPartlyMarked.same_eq {registry : Registry} {plains givens results : List Json} :
    BranchesPartlyMarked registry plains givens results →
    itemsDistinct (markedBranches registry plains) = true →
      itemsDistinct givens = true →
      ∀ items, sameItems items results = sameItems items (markedBranches registry plains)
  | .nil, _, _, _ | .cons _ _, _, _, [] => by rfl
  | .cons first others, distinct, givenDistinct, item :: rest => by
    rw [markedBranches, itemsDistinct, Bool.and_eq_true] at distinct
    rw [itemsDistinct, Bool.and_eq_true] at givenDistinct
    rw [markedBranches, sameItems, sameItems, first.same_eq distinct.1 givenDistinct.1 item,
      others.same_eq distinct.2 givenDistinct.2 rest]

end

/-! ### Schemas freed from their marks -/

theorem notMem_keys_of_bare (plainly : bare (.obj members) = true) :
    parsedKey ∉ keys members ∧ registryKey ∉ keys members := by
  rw [bare, Bool.and_eq_true, Bool.not_eq_true', Bool.not_eq_true'] at plainly
  rw [← Members.isSome_get?, ← Members.isSome_get?]
  exact ⟨ne_true_of_eq_false plainly.1, ne_true_of_eq_false plainly.2⟩

private theorem bare_of_notMem_keys (noFlag : parsedKey ∉ keys members)
    (noRegistry : registryKey ∉ keys members) : bare (.obj members) = true := by
  rw [bare, has, has, Members.get?_eq_none_iff.mpr noFlag, Members.get?_eq_none_iff.mpr noRegistry]
  rfl

mutual

theorem bare_unmark : ∀ schema : Json, schema.keysDistinct = true → bare (unmark schema) = true
  | .null, _ | .bool _, _ | .int _, _ | .float _, _ | .str _, _ => rfl
  | .arr branches, distinct => by exact branchesBare_unmark branches distinct
  | .obj members, distinct => by
    rw [Json.keysDistinct, Bool.and_eq_true, decide_eq_true_eq] at distinct
    have erased := Members.erase_sublist members parsedKey
    have erasedAgain := Members.erase_sublist (Members.erase members parsedKey) registryKey
    refine bare_of_notMem_keys (fun isKey => ?_)
      (Members.notMem_keys_erase (distinct.1.sublist (erased.map Prod.fst)) registryKey)
    exact Members.notMem_keys_erase distinct.1 parsedKey ((erasedAgain.map Prod.fst).subset isKey)

theorem branchesBare_unmark : ∀ branches : List Json, itemsDistinct branches = true →
    branchesBare (unmarkBranches branches) = true
  | [], _ => rfl
  | branch :: rest, distinct => by
    rw [itemsDistinct, Bool.and_eq_true] at distinct
    rw [unmarkBranches, branchesBare, bare_unmark branch distinct.1,
      branchesBare_unmark rest distinct.2]
    rfl

end

mutual

theorem unmark_of_bare : ∀ schema : Json, bare schema = true → unmark schema = schema
  | .null, _ | .bool _, _ | .int _, _ | .float _, _ | .str _, _ => rfl
  | .arr branches, plainly => by rw [unmark, unmarkBranches_of_bare branches plainly]
  | .obj members, plainly => by
    have ⟨noFlag, noRegistry⟩ := notMem_keys_of_bare plainly
    rw [unmark, Members.erase_of_notMem noFlag, Members.erase_of_notMem noRegistry]

theorem unmarkBranches_of_bare :
    ∀ branches : List Json, branchesBare branches = true → unmarkBranches branches = branches
  | [], _ => rfl
  | branch :: rest, plainly => by
    rw [branchesBare, Bool.and_eq_true] at plainly
    rw [unmarkBranches, unmark_of_bare branch plainly.1, unmarkBranches_of_bare rest plainly.2]

end

mutual

theorem unmark_marked (registry : Registry) :
    ∀ plain : Json, bare plain = true → unmark (marked registry plain) = plain
  | .null, _ | .bool _, _ | .int _, _ | .float _, _ | .str _, _ => rfl
  | .arr branches, plainly => by
    rw [marked, unmark, unmarkBranches_marked registry branches plainly]
  | .obj members, plainly => by
    have ⟨noFlag, noRegistry⟩ := notMem_keys_of_bare plainly
    unfold marked
    split
    · split
      · rw [Draft.seal, unmark, Members.erase_set_comm _ (by decide), Members.erase_set _ noFlag,
          Members.erase_set _ noRegistry]
      · exact unmark_of_bare _ plainly
    · exact unmark_of_bare _ plainly

theorem unmarkBranches_marked (registry : Registry) :
    ∀ branches : List Json, branchesBare branches = true →
    unmarkBranches (markedBranches registry branches) = branches
  | [], _ => rfl
  | branch :: rest, plainly => by
    rw [branchesBare, Bool.and_eq_true] at plainly
    rw [markedBranches, unmarkBranches, unmark_marked registry branch plainly.1,
      unmarkBranches_marked registry rest plainly.2]

end

mutual

theorem bare_mapFloats (change : Double → Double) :
    ∀ schema : Json, bare (mapFloats change schema) = bare schema
  | .null | .bool _ | .int _ | .float _ | .str _ => rfl
  | .arr branches => by rw [mapFloats, bare, bare, branchesBare_mapItems change branches]
  | .obj members => by
    rw [mapFloats, bare, bare, has, has, has, has, get?_mapMembers, get?_mapMembers,
      Option.isSome_map, Option.isSome_map]

theorem branchesBare_mapItems (change : Double → Double) : ∀ branches : List Json,
    branchesBare (mapItems change branches) = branchesBare branches
  | [] => rfl
  | branch :: rest => by
    rw [mapItems, branchesBare, branchesBare, bare_mapFloats change branch,
      branchesBare_mapItems change rest]

end

/-- A schema without its marks, as it is read back from a text. -/
def reread (schema : Json) : Json := mapFloats Json.rereadFloat (unmark schema)

/-- A schema that has been given without marks, or that such a schema has been parsed to, is read
back as one that the writer accepts, with the same names. -/
theorem parse_reread {given parsed schema : Json} (plainly : bare given = true)
    (parses : parse {} [] given = .ok (parsed, registry))
    (isForm : schema = given ∨ schema = parsed) :
    ∃ reparsed known, parse {} [] (reread schema) = .ok (reparsed, known) ∧
      names reparsed = names parsed := by
  obtain ⟨plain, apart, rfl⟩ := (parse_unmarked_iff (unmarked_of_bare given plainly)).mp parses
  have ⟨form, formApart, formIs, formPlainly⟩ : ∃ form, ParsesApart form [] plain registry ∧
    unmark schema = form ∧
      bare form = true := by
    rcases isForm with rfl | rfl
    · exact ⟨_, apart, unmark_of_bare _ plainly, plainly⟩
    · exact ⟨plain, apart.again, unmark_marked registry plain (apart.bare plainly),
        apart.bare plainly⟩
  have ⟨changed, sameNames⟩ := formApart.mapFloats keepsNumbers_rereadFloat
  have stillPlainly : bare (reread schema) = true := by
    rw [reread, bare_mapFloats, formIs, formPlainly]
  refine ⟨_, _, (parse_unmarked_iff (unmarked_of_bare _ stillPlainly)).mpr
    ⟨_, formIs ▸ changed, rfl⟩, ?_⟩
  rw [names_marked, names_marked, sameNames]

end Avro.Schema
