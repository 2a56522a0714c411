import Avro.Encode.Datum
import Avro.Proofs.Documentation
import Avro.Proofs.Projection

/-!
Contract: reading does not depend on documentation.

Owns: `Schema.Regular`, the parsed schemas for which it does not, `KeepsBranches`, which says that
no union of the writer's schema is ambiguous at a place where the reader's differs, and the equality
of reading by a reader's schema that differs in documentation only with reading without one.

A reader's schema that equals the writer's is dropped, level by level. Where documentation differs,
values are resolved instead: fields are looked up by name, symbols are looked up again, and the
branch of a union is chosen again by the first match. The equality says that all of these find what
is there already.
-/

namespace Avro

open Decode (Reader fieldsOf firstMatching indexFields readArray readFields readKind readMap
  readRecord readUnion setUnder)
open Kind (ofName)
open Members (get? get?_cons)
open Resolution (matchSchemas matchTypes sharedParts?)

variable {word : String} {writer reader type : Json} {kind : Kind} {depth place : Nat}
  {registry : Registry} {names : List String} {nodes left right : List Json} {first second : Json}

namespace Schema

def isScalar : Json → Bool
  | .arr _ => false
  | .obj _ => false
  | _ => true

mutual

/-- Parsed schemas whose records have fields of different names, and whose aliases can be looked
up. -/
inductive Regular : Json → Prop where
  | name (text : String) : Regular (.str text)
  | union {branches : List Json} (parts : ∀ branch ∈ branches, Regular branch) :
      Regular (.arr branches)
  | primitive {members : List (String × Json)} {word : String}
      (typeIs : get? members "type" = some (.str word))
      (isPrimitive : word ∈ primitiveNames) : Regular (.obj members)
  | collection {members : List (String × Json)} {word key : String} {node : Json}
      (typeIs : get? members "type" = some (.str word))
      (isCollection : (word, key) ∈ [("array", "items"), ("map", "values")])
      (under : get? members key = some node) (part : Regular node) : Regular (.obj members)
  | enum {members : List (String × Json)} (typeIs : get? members "type" = some (.str "enum")) :
      Regular (.obj members)
  | fixed {members : List (String × Json)} (typeIs : get? members "type" = some (.str "fixed")) :
      Regular (.obj members)
  | record {members : List (String × Json)} {word : String} {nodes : List Json}
      {names : List String}
      (typeIs : get? members "type" = some (.str word)) (isRecord : word ∈ ["record", "error"])
      (under : get? members "fields" = some (.arr nodes)) (fields : RegularFields nodes names) :
      Regular (.obj members)

/-- Fields with their names, which are all different. -/
inductive RegularFields : List Json → List String → Prop where
  | nil : RegularFields [] []
  | cons {members : List (String × Json)} {rest : List Json} {name : String} {names : List String}
      {type : Json}
      (named : get? members "name" = some (.str name)) (fresh : name ∉ names)
      (aliases : ∀ value, get? members "aliases" = some value →
        ∃ items, value = .arr items ∧ ∀ item ∈ items, isScalar item = true)
      (typed : get? members "type" = some type) (inner : Regular type)
      (others : RegularFields rest names) :
      RegularFields (.obj members :: rest) (name :: names)

end

/-- No branch of the writer's union matches a branch that stands earlier in the reader's. -/
def Apart (left right : List Json) : Prop :=
  ∀ ⦃earlier later : Nat⦄ ⦃branch candidate : Json⦄, earlier < later → left[later]? = some branch →
    right[earlier]? = some candidate → matchTypes branch candidate = .ok false

/-- Wherever two unions at corresponding places differ, their branches are apart. -/
inductive KeepsBranches : Json → Json → Prop where
  | name (text : String) : KeepsBranches (.str text) (.str text)
  | union {left right : List Json} (separate : (Json.arr left).same (.arr right) = true ∨
      Apart left right)
      (parts : ∀ ⦃place : Nat⦄ ⦃first second : Json⦄, left[place]? = some first →
        right[place]? = some second →
        KeepsBranches first second) : KeepsBranches (.arr left) (.arr right)
  | object {left right : List (String × Json)}
      (parts : ∀ ⦃key : String⦄ ⦃first second : Json⦄, key ∈ ["items", "values"] →
        get? left key = some first →
        get? right key = some second → KeepsBranches first second)
      (fields : ∀ ⦃leftNodes rightNodes : List Json⦄ ⦃place : Nat⦄
        ⦃firstMembers secondMembers : List (String × Json)⦄ ⦃first second : Json⦄,
        get? left "fields" = some (.arr leftNodes) →
        get? right "fields" = some (.arr rightNodes) →
        leftNodes[place]? = some (.obj firstMembers) →
        rightNodes[place]? = some (.obj secondMembers) → get? firstMembers "type" = some first →
        get? secondMembers "type" = some second → KeepsBranches first second) :
      KeepsBranches (.obj left) (.obj right)

end Schema

open Schema (Redocumented RedocumentedItems RedocumentedMembers Regular RegularFields KeepsBranches
  Apart nodeKeys typeOf)

/-! ### Matching -/

theorem Schema.Regular.typed {members : Members} (regular : Regular (.obj members)) :
    ∃ word, get? members "type" = some (.str word) ∧ (ofName word).isBuiltIn = true := by
  have builtIn : ∀ word ∈ Schema.primitiveNames ++ ["array", "map", "record", "error"],
      (ofName word).isBuiltIn = true := by decide
  cases regular with
  | primitive typeIs isPrimitive =>
    exact ⟨_, typeIs, builtIn _ (List.mem_append_left _ isPrimitive)⟩
  | collection typeIs isCollection =>
    refine ⟨_, typeIs, builtIn _ (List.mem_append_right _ ?_)⟩
    rcases Members.mem_pairs.mp isCollection with ⟨rfl, _⟩ | ⟨rfl, _⟩
    · decide
    · decide
  | enum typeIs | fixed typeIs => exact ⟨_, typeIs, rfl⟩
  | record typeIs isRecord =>
    refine ⟨_, typeIs, builtIn _ (List.mem_append_right _ ?_)⟩
    simp only [List.mem_cons, List.not_mem_nil, or_false] at isRecord ⊢
    exact .inr (.inr isRecord)

private theorem matchSchemas_of_word {left right : Members}
    (leftType : get? left "type" = some (.str word))
    (rightType : get? right "type" = some (.str word))
    (unshared : sharedParts? (.str word) (.str word) = none) :
    matchSchemas (.obj left) (.obj right) = .ok (.obj right) := by
  rw [matchSchemas_of_words (.object leftType) (.object rightType) unshared,
    matchNames_self, select_true]

private theorem sharedParts?_of_ne (notMap : word ≠ "map") (notArray : word ≠ "array") :
    sharedParts? (.str word) (.str word) = none := by
  simp [sharedParts?, Resolution.bothAre, Json.same, notMap, notArray]

theorem matchTypes_of_objects (regular : Regular writer) (redocumented : Redocumented writer reader)
    (objects : ∀ left right, writer = .obj left → reader = .obj right →
      matchSchemas (.obj left) (.obj right) = .ok (.obj right)) :
    matchTypes writer reader = .ok true := by
  cases writer with
  | arr branches => rw [matchTypes]
  | obj members =>
    obtain ⟨others, rfl, sameMembers⟩ := redocumented.members
    obtain ⟨word, typeIs, -⟩ := regular.typed
    rw [matchTypes, objects members others rfl rfl]
    · exact congrArg Except.ok (obj_truthy (sameMembers.get?_type typeIs))
    · simp
  | str text =>
    rw [redocumented.text, matchTypes]
    · rw [matchNames_self]
    all_goals simp
  | _ => cases regular

theorem matchSchemas_redocumented : ∀ {left right : Members}, Regular (.obj left) →
    RedocumentedMembers left right → matchSchemas (.obj left) (.obj right) = .ok (.obj right)
  | _, _, .primitive typeIs isPrimitive, members => by
    have apart : ∀ word ∈ Schema.primitiveNames, word ≠ "map" ∧ word ≠ "array" := by decide
    have unshared := sharedParts?_of_ne (apart _ isPrimitive).1 (apart _ isPrimitive).2
    exact matchSchemas_of_word typeIs (members.get?_type typeIs) unshared
  | _, _, .enum typeIs, members =>
    matchSchemas_of_word typeIs (members.get?_type typeIs) (by decide)
  | _, _, .fixed typeIs, members =>
    matchSchemas_of_word typeIs (members.get?_type typeIs) (by decide)
  | _, _, .record typeIs isRecord _ _, members => by
    have apart : ∀ word ∈ ["record", "error"], word ≠ "map" ∧ word ≠ "array" := by decide
    have unshared := sharedParts?_of_ne (apart _ isRecord).1 (apart _ isRecord).2
    exact matchSchemas_of_word typeIs (members.get?_type typeIs) unshared
  | left, right, @Regular.collection _ word key node typeIs isCollection under part, members => by
    have collections : ∀ pair ∈ [("array", "items"), ("map", "values")],
        pair.2 ∈ nodeKeys ∧ sharedParts? (.str pair.1) (.str pair.1) = some pair.2 := by decide
    obtain ⟨isNode, shared⟩ := collections _ isCollection
    obtain ⟨other, otherUnder, redocumented⟩ := members.get?_node isNode under
    have inner : matchTypes node other = .ok true := by
      refine matchTypes_of_objects part redocumented ?_
      rintro nodeMembers otherMembers rfl rfl
      obtain ⟨_, ⟨⟩, sameMembers⟩ := redocumented.members
      have := Members.sizeOf_lt_of_get? under
      exact matchSchemas_redocumented part sameMembers
    rw [matchSchemas_of_parts typeIs (members.get?_type typeIs) shared under otherUnder,
      inner, select_true]
termination_by left => sizeOf left
decreasing_by simp_all; omega

private theorem matchTypes_redocumented (regular : Regular writer)
    (redocumented : Redocumented writer reader) : matchTypes writer reader = .ok true := by
  refine matchTypes_of_objects regular redocumented ?_
  rintro left right rfl rfl
  obtain ⟨_, ⟨⟩, members⟩ := redocumented.members
  exact matchSchemas_redocumented regular members

/-! ### Reading one level -/

variable {σ α β : Type}

private theorem finish_of_typeOf (typeIs : typeOf reader = .ok type) (writer : Json)
    (datum : Datum) :
    Decode.finish writer reader type datum = Decode.finish writer .null type datum := by
  unfold Decode.finish
  refine congrArg (fun next => _ >>= next) (funext fun mentioned => ?_)
  dsimp only
  congr 2 with logical
  all_goals
    cases logical with
    | some logical => rfl
    | none =>
      cases reader with
      | null => rfl
      | _ => simp [typeIs, promote_self, pure, Except.pure]

theorem resolveReader_same (same : writer.same reader = true) (truthy : reader.truthy = true) :
    Decode.resolveReader writer reader = .ok .null := by
  simp [Decode.resolveReader, same, truthy]

private theorem read_of_same [Source σ] (typeIs : typeOf writer = .ok type)
    (kindIs : Kind.ofType type = .ok kind) (builtIn : kind.isBuiltIn = true)
    (same : writer.same reader = true) (truthy : reader.truthy = true) (named : Bool) :
    (Decode.read registry depth writer reader named : ReadM σ Datum) =
      Decode.read registry depth writer .null named := by
  cases depth with
  | zero => rfl
  | succ depth =>
    rw [read_of_isBuiltIn typeIs kindIs builtIn, read_of_isBuiltIn typeIs kindIs builtIn,
      resolveReader_null, resolveReader_same same truthy]

theorem occursIn_singleton {character : Char} {text : List Char} (isMember : character ∈ text) :
    Text.occursIn [character] text = true := by
  induction text with
  | nil => cases isMember
  | cons head rest ih =>
    rw [Text.occursIn, Bool.or_eq_true]
    rcases List.mem_cons.mp isMember with rfl | later
    · exact .inl (by simp [List.isPrefixOf])
    · exact .inr (ih later)

private theorem resolveSymbol_known {symbols symbol : Json} {index : Int}
    (distinct : symbols.keysDistinct = true)
    (symbolIs : Schema.documentItemAt symbols index = .ok symbol)
    (symbolsAre : Schema.attributeOf reader "symbols" = .ok symbols) :
    Decode.resolveSymbol symbol reader = Decode.resolveSymbol symbol .null := by
  unfold Decode.resolveSymbol
  by_cases truthy : reader.truthy = true
  · rw [if_neg (by simp [truthy]), symbolsAre, outcome_ok_bind]
    cases symbols with
    | arr items =>
      have isMember : symbol ∈ items := mem_of_itemAt symbolIs
      have same := symbol.same_self (Json.itemsDistinct_iff.mp distinct symbol isMember)
      have known : (items.any fun item => symbol.same item) = true :=
        List.any_eq_true.mpr ⟨symbol, isMember, same⟩
      simp only [pure_bind, known]
      rfl
    | str text =>
      obtain ⟨character, characterIs, ⟨⟩⟩ := outcome_bind_ok.mp symbolIs
      have known := occursIn_singleton (mem_of_itemAt characterIs)
      simp only [pure_bind, String.toList_ofList, known]
      rfl
    | _ => cases symbolIs
  · rw [if_pos (by simp [truthy])]
    rfl

/-! ### Records -/

private theorem addAliases_ok {items : List Json}
    (scalars : ∀ item ∈ items, Schema.isScalar item = true) (field : Json)
    (index : Decode.FieldIndex) :
    ∃ aliases, Decode.addAliases field index items = .ok ⟨index.byName, aliases⟩ := by
  induction items generalizing index with
  | nil => exact ⟨index.byAlias, rfl⟩
  | cons item rest ih =>
    rw [List.forall_mem_cons] at scalars
    have isKey : Schema.keyOf item = .ok item := by
      cases item with
      | arr items => cases scalars.1
      | obj members => cases scalars.1
      | _ => rfl
    rw [Decode.addAliases, isKey, outcome_ok_bind]
    exact ih scalars.2 { index with byAlias := setUnder index.byAlias item field }

theorem Schema.RegularFields.nodup (fields : RegularFields nodes names) : names.Nodup := by
  induction nodes generalizing names with
  | nil =>
    cases fields
    exact List.nodup_nil
  | cons node rest ih =>
    cases fields with
    | cons named isNew aliases typed inner following =>
      exact List.nodup_cons.mpr ⟨isNew, ih following⟩

/-- The fields of a reader who has the same names stand in the index in their order. -/
theorem indexFields_ok {others : List Json} (fields : RegularFields nodes names)
    (redocumented : RedocumentedItems nodes others) (index : Decode.FieldIndex)
    (fresh : ∀ entry ∈ index.byName, ∀ name ∈ names, entry.1.same (.str name) = false) :
    ∃ aliases, indexFields index others =
      .ok ⟨index.byName ++ underNames names others, aliases⟩ := by
  induction nodes generalizing others names index with
  | nil =>
    cases fields
    cases redocumented
    exact ⟨index.byAlias, by simp [underNames, indexFields]⟩
  | cons node rest ih =>
    obtain _ | @⟨otherRest, _, _, _, first, sameRest⟩ := redocumented
    cases fields with
    | @cons members _ name names type named isNew aliases typed inner following =>
      obtain ⟨otherMembers, rfl, sameMembers⟩ := first.members
      have otherNamed := (sameMembers.get?_kept "name" (by decide)).trans named
      obtain ⟨items, itemsAre, scalars⟩ : ∃ items,
        ((get? otherMembers "aliases").getD (.arr [])) = .arr items ∧
          ∀ item ∈ items, Schema.isScalar item = true := by
        rw [sameMembers.get?_kept "aliases" (by decide)]
        cases found : get? members "aliases" with
        | none => exact ⟨[], rfl, by simp⟩
        | some value => exact aliases value found
      have placed : setUnder index.byName (.str name) (.obj otherMembers) =
          index.byName ++ [(.str name, .obj otherMembers)] :=
        setUnder_new (fun entry isEntry => fresh entry isEntry name List.mem_cons_self) _
      obtain ⟨ownAliases, added⟩ := addAliases_ok scalars (.obj otherMembers)
        { index with byName := index.byName ++ [(.str name, .obj otherMembers)] }
      have laterFresh : ∀ entry ∈ index.byName ++ [(Json.str name, Json.obj otherMembers)],
        ∀ later ∈ names,
          entry.1.same (.str later) = false := by
        intro entry isEntry later isLater
        rcases List.mem_append.mp isEntry with earlier | isOwn
        · exact fresh entry earlier later (List.mem_cons_of_mem _ isLater)
        · cases List.mem_singleton.mp isOwn
          have different : name ≠ later := fun equal => isNew (equal ▸ isLater)
          simp [Json.same, different]
      obtain ⟨allAliases, indexed⟩ := ih following sameRest
        ⟨index.byName ++ [(.str name, .obj otherMembers)], ownAliases⟩ laterFresh
      refine ⟨allAliases, ?_⟩
      rw [indexFields, fieldKey_of_named otherNamed, outcome_ok_bind, Json.get?, itemsAre,
        Schema.iterate, outcome_ok_bind, placed, added, outcome_ok_bind, indexed]
      simp [underNames]

section Record

variable {read : Reader σ} {skip : Json → ReadM σ Unit} {nodes others : List Json}
  {names : List String}

/-- Reading the types of two lists of fields by each other is the same as reading those of the
first. -/
def ReadsFields (read : Reader σ) (nodes others : List Json) : Prop :=
  ∀ ⦃place : Nat⦄ ⦃members otherMembers : List (String × Json)⦄ ⦃first second : Json⦄,
    nodes[place]? = some (.obj members) → others[place]? = some (.obj otherMembers) →
    get? members "type" = some first → get? otherMembers "type" = some second →
    Regular first → Redocumented first second → read first second false = read first .null false

/-- Fields that the index holds under their names are all read. -/
theorem readResolvedFields_eq {index : Decode.FieldIndex} (fields : RegularFields nodes names)
    (redocumented : RedocumentedItems nodes others)
    (found : ∀ ⦃place : Nat⦄ ⦃name : String⦄ ⦃other : Json⦄, names[place]? = some name →
      others[place]? = some other → index.find? (.str name) = some other)
    (below : ReadsFields read nodes others) (record : List (Datum × Datum)) :
    Decode.readResolvedFields read skip false index record nodes =
      readFields read false record nodes := by
  induction nodes generalizing others names record with
  | nil => rfl
  | cons node rest ih =>
    obtain _ | @⟨otherRest, _, _, _, first, sameRest⟩ := redocumented
    cases fields with
    | @cons members _ name names type named isNew aliases typed inner following =>
      obtain ⟨otherMembers, rfl, sameMembers⟩ := first.members
      obtain ⟨otherType, otherTyped, sameType⟩ := sameMembers.get?_node (by decide) typed
      have otherNamed := (sameMembers.get?_kept "name" (by decide)).trans named
      have isFound : (index.find? (.str name)).filter Json.truthy = some (.obj otherMembers) := by
        rw [@found 0 name _ rfl rfl, Option.filter_some, if_pos (obj_truthy otherNamed)]
      have valueRead := @below 0 members otherMembers type otherType rfl rfl typed otherTyped
        inner sameType
      have later := ih following sameRest
        (fun place _ _ nameAt otherAt => @found (place + 1) _ _ nameAt otherAt)
        (fun place _ _ _ _ nodeAt otherAt => @below (place + 1) _ _ _ _ nodeAt otherAt)
      rw [Decode.readResolvedFields, readFields, fieldKey_of_named named, readLift_ok_bind, isFound]
      simp only [attributeOf_obj typed, attributeOf_obj otherTyped, fieldKey_of_named otherNamed,
        readLift_ok_bind, valueRead, later]

private theorem readFields_length {named : Bool} (fields : RegularFields nodes names)
    {record result : List (Datum × Datum)} {state after : σ}
    (fresh : ∀ name ∈ names, Datum.str name ∉ record.map Prod.fst)
    (done : readFields read named record nodes state = .ok result after) :
    result.length = record.length + names.length := by
  induction nodes generalizing names record state with
  | nil =>
    cases fields
    cases done
    rfl
  | cons node rest ih =>
    cases fields with
    | @cons members _ name names type hasName isNew aliases typed inner following =>
      rw [readFields, attributeOf_obj typed, readLift_ok_bind, fieldKey_of_named hasName] at done
      obtain ⟨value, between, valueDone, done⟩ := step_bind_ok.mp done
      rw [readLift_ok_bind, Decode.insertField,
        insert_new value (fresh name List.mem_cons_self)] at done
      have later := ih following ?_ done
      · simp only [later, List.length_append, List.length_cons, List.length_nil]
        omega
      · intro other isOther
        simp only [List.map_append, List.map_cons, List.map_nil, List.mem_append,
          List.mem_singleton, Datum.str.injEq]
        rintro (present | rfl)
        · exact fresh other (List.mem_cons_of_mem _ isOther) present
        · exact isNew isOther

private theorem readRecord_redocumented {left right : Members}
    (leftFields : get? left "fields" = some (.arr nodes))
    (rightFields : get? right "fields" = some (.arr others)) (fields : RegularFields nodes names)
    (redocumented : RedocumentedItems nodes others) (below : ReadsFields read nodes others) :
    readRecord read skip (.obj left) (.obj right) false =
      readRecord read skip (.obj left) .null false := by
  obtain ⟨aliases, indexIs⟩ := indexFields_ok fields redocumented ⟨[], []⟩ (by simp)
  have leftNodes : fieldsOf (.obj left) = .ok nodes := by
    rw [fieldsOf, attributeOf_obj leftFields]
    rfl
  have rightNodes : fieldsOf (.obj right) = .ok others := by
    rw [fieldsOf, attributeOf_obj rightFields]
    rfl
  have found : ∀ ⦃place : Nat⦄ ⦃name : String⦄ ⦃other : Json⦄, names[place]? = some name →
    others[place]? = some other →
      (Decode.FieldIndex.mk ([] ++ underNames names others) aliases).find? (.str name) =
        some other := by
    intro place name other nameAt otherAt
    rw [Decode.FieldIndex.find?, List.nil_append,
      fieldUnder?_underNames fields.nodup nameAt otherAt, Option.some_or]
  unfold readRecord
  rw [rightNodes, outcome_ok_bind, indexIs, readLift_ok_bind, leftNodes, readLift_ok_bind,
    readLift_ok_bind, readResolvedFields_eq fields redocumented found below]
  refine step_bind_congr fun state record after done => ?_
  have length := readFields_length fields (by simp) done
  rw [if_neg]
  simp [length, underNames]

end Record

/-! ### Unions -/

theorem Schema.RedocumentedItems.getElem? (items : RedocumentedItems left right) {branch : Json}
    (branchAt : left[place]? = some branch) :
    ∃ candidate, right[place]? = some candidate ∧ Redocumented branch candidate := by
  induction place generalizing left right with
  | zero =>
    cases items with
    | nil => cases branchAt
    | cons first others =>
      cases branchAt
      exact ⟨_, rfl, first⟩
  | succ place ih =>
    cases items with
    | nil => cases branchAt
    | cons first others => exact ih others branchAt

/-- The first branch that matches is the one before which none does. -/
theorem firstMatching_of_getElem? {branch candidate : Json} {candidates : List Json}
    (candidateAt : candidates[place]? = some candidate)
    (isMatch : matchTypes branch candidate = .ok true)
    (others : ∀ ⦃earlier : Nat⦄ ⦃other : Json⦄, earlier < place →
      candidates[earlier]? = some other →
      matchTypes branch other = .ok false) :
    firstMatching branch candidates = .ok (some candidate) := by
  induction place generalizing candidates with
  | zero =>
    obtain _ | ⟨first, rest⟩ := candidates
    · cases candidateAt
    cases candidateAt
    rw [firstMatching, isMatch]
    rfl
  | succ place ih =>
    obtain _ | ⟨first, rest⟩ := candidates
    · cases candidateAt
    rw [firstMatching, others (Nat.succ_pos place) rfl]
    exact ih candidateAt fun earlier _ isEarlier otherAt =>
      others (Nat.succ_lt_succ isEarlier) otherAt

/-- A union whose branches are apart is read as if there were no reader's schema. -/
theorem readUnion_redocumented [Source σ] {read : Reader σ}
    (regular : ∀ branch ∈ left, Regular branch)
    (items : RedocumentedItems left right) (apart : Apart left right)
    (below : ∀ ⦃place : Nat⦄ ⦃branch candidate : Json⦄, left[place]? = some branch →
      right[place]? = some candidate →
      Redocumented branch candidate → read branch candidate false = read branch .null false) :
    readUnion registry read (.arr left) (.arr right) false =
      readUnion registry read (.arr left) .null false := by
  unfold readUnion
  refine step_bind_congr fun _ index _ _ =>
    congrFun (step_bind_congr fun state branch after branchIs => congrFun ?_ after) _
  obtain ⟨place, branchAt⟩ := List.mem_iff_getElem?.mp (mem_of_itemAt (readLift_ok.mp branchIs).1)
  obtain ⟨candidate, candidateAt, redocumented⟩ := items.getElem? branchAt
  have isMatch := matchTypes_redocumented
    (regular branch (List.mem_of_getElem? branchAt)) redocumented
  have found := firstMatching_of_getElem? candidateAt isMatch fun _ _ isEarlier otherAt =>
    apart isEarlier branchAt otherAt
  have truthy : (Json.arr right).truthy = true := by
    obtain _ | ⟨first, rest⟩ := right
    · cases candidateAt
    · rfl
  rw [if_pos truthy, Decode.readResolvedBranch, found, readLift_ok_bind]
  exact below branchAt candidateAt redocumented

/-! ### Reading every level -/

def Schema.RegularDefinitions (registry : Registry) : Prop :=
  ∀ ⦃name : String⦄ ⦃definition : Json⦄, get? registry name = some definition →
    ∃ members, definition = .obj members ∧ Regular (.obj members)

/-- Reading by other documentation is the same as reading without a reader's schema. -/
def ReadsRedocumented (read : Reader σ) : Prop :=
  ∀ ⦃writer reader : Json⦄, writer.keysDistinct = true → Regular writer →
    Redocumented writer reader →
    KeepsBranches writer reader → read writer reader false = read writer .null false

section Level

variable {registry : Registry} {read : Reader σ} {skip : Json → ReadM σ Unit}
variable {left right : Members}

private theorem read_part {key : String} {node : Json} (below : ReadsRedocumented read)
    (isPart : key ∈ ["items", "values"]) (distinct : (Json.obj left).keysDistinct = true)
    (members : RedocumentedMembers left right) (keeps : KeepsBranches (.obj left) (.obj right))
    (under : get? left key = some node) (part : Regular node) :
    ∃ other, Decode.readerPart (.obj right) key = .ok other ∧
      read node other false = read node .null false := by
  have isNode : key ∈ nodeKeys := List.mem_cons_of_mem _ isPart
  obtain ⟨other, otherUnder, redocumented⟩ := members.get?_node isNode under
  obtain _ | _ | ⟨parts, fields⟩ := keeps
  have partDistinct := Schema.good_get? Json.hereditary_keysDistinct distinct under
  refine ⟨other, ?_, below partDistinct part redocumented (parts isPart under otherUnder)⟩
  rw [Decode.readerPart, if_pos (obj_truthy otherUnder), attributeOf_obj otherUnder]

/-- One level of an object is read as if there were no reader's schema. -/
theorem readKind_redocumented [Source σ] {word : String} (below : ReadsRedocumented read)
    (distinct : (Json.obj left).keysDistinct = true) (regular : Regular (.obj left))
    (members : RedocumentedMembers left right) (keeps : KeepsBranches (.obj left) (.obj right))
    (wordIs : get? left "type" = some (.str word)) :
    readKind registry read skip (.obj left) (.obj right) false (ofName word) =
      readKind registry read skip (.obj left) .null false (ofName word) := by
  cases regular with
  | primitive typeIs isPrimitive =>
    cases wordIs.symm.trans typeIs
    simp only [Schema.primitiveNames, List.mem_cons, List.not_mem_nil, or_false] at isPrimitive
    rcases isPrimitive with rfl | rfl | rfl | rfl | rfl | rfl | rfl | rfl
    all_goals rfl
  | collection typeIs isCollection under part =>
    cases wordIs.symm.trans typeIs
    rcases Members.mem_pairs.mp isCollection with ⟨rfl, rfl⟩ | ⟨rfl, rfl⟩
    · obtain ⟨other, partIs, sameRead⟩ :=
        read_part below (by decide) distinct members keeps under part
      change readArray _ _ _ _ = readArray _ _ _ _
      unfold readArray
      simp only [attributeOf_obj under, partIs, readLift_ok_bind, sameRead]
      rfl
    · obtain ⟨other, partIs, sameRead⟩ :=
        read_part below (by decide) distinct members keeps under part
      change readMap _ _ _ _ = readMap _ _ _ _
      unfold readMap
      simp only [attributeOf_obj under, partIs, readLift_ok_bind, sameRead]
      rfl
  | enum typeIs =>
    cases wordIs.symm.trans typeIs
    simp only [ofName, readKind]
    refine step_bind_congr fun _ symbols _ symbolsAre =>
      congrFun (step_bind_congr fun _ index _ _ =>
      congrFun (step_bind_congr fun _ symbol after symbolIs =>
        congrFun (congrArg ReadM.lift ?_) after) _) _
    have symbolsIn : get? left "symbols" = some symbols :=
      Schema.required_ok.mp (readLift_ok.mp symbolsAre).1
    have symbolsDistinct := Schema.good_get? Json.hereditary_keysDistinct distinct symbolsIn
    refine resolveSymbol_known symbolsDistinct (readLift_ok.mp symbolIs).1 ?_
    exact attributeOf_obj ((members.get?_kept "symbols" (by decide)).trans symbolsIn)
  | fixed typeIs =>
    cases wordIs.symm.trans typeIs
    rfl
  | record typeIs isRecord under fields =>
    cases wordIs.symm.trans typeIs
    obtain ⟨others, otherUnder, redocumented⟩ := members.get?_fields under
    obtain _ | _ | ⟨parts, keepsFields⟩ := keeps
    have alike : readRecord read skip (.obj left) (.obj right) false =
        readRecord read skip (.obj left) .null false := by
      refine readRecord_redocumented under otherUnder fields redocumented ?_
      intro _ _ _ _ _ nodeAt otherAt typed otherTyped inner sameType
      have nodesDistinct := Schema.good_get? Json.hereditary_keysDistinct distinct under
      have nodeDistinct := Json.itemsDistinct_iff.mp nodesDistinct _ (List.mem_of_getElem? nodeAt)
      have typeDistinct := Schema.good_get? Json.hereditary_keysDistinct nodeDistinct typed
      exact below typeDistinct inner sameType
        (keepsFields under otherUnder nodeAt otherAt typed otherTyped)
    rcases List.mem_pair.mp isRecord with rfl | rfl
    · exact alike
    · exact alike

end Level

/-- A level that is read alike by a reader's schema of the same type gives the same value. -/
theorem read_of_resolved [Source σ] {resolved : Json} (typeIs : typeOf writer = .ok type)
    (kindIs : Kind.ofType type = .ok kind) (builtIn : kind.isBuiltIn = true)
    (resolvedIs : Decode.resolveReader writer reader = .ok resolved)
    (resolvedType : typeOf resolved = .ok type)
    (alike : readKind registry (Decode.read registry depth) (Decode.skip registry depth) writer
      resolved false kind =
      (readKind registry (Decode.read registry depth) (Decode.skip registry depth) writer
        .null false kind :
        ReadM σ Datum)) :
    (Decode.read registry (depth + 1) writer reader false : ReadM σ Datum) =
      Decode.read registry (depth + 1) writer .null false := by
  rw [read_of_isBuiltIn typeIs kindIs builtIn, read_of_isBuiltIn typeIs kindIs builtIn, resolvedIs,
    resolveReader_null, readLift_ok_bind, readLift_ok_bind, alike]
  exact step_bind_congr fun _ datum after _ => by rw [finish_of_typeOf resolvedType]

/-- A name is read as itself: a definition is read against itself as if there were no reader's
schema. -/
theorem read_name [Source σ] (distinct : (Json.obj registry).keysDistinct = true)
    (definitions : Schema.RegularDefinitions registry) (depth : Nat) (text : String) :
    (Decode.read registry (depth + 1) (.str text) (.str text) false : ReadM σ Datum) =
      Decode.read registry (depth + 1) (.str text) .null false := by
  cases builtIn : (ofName text).isBuiltIn with
  | true =>
    have notEmpty : text ≠ "" := by
      rintro rfl
      cases builtIn
    exact read_of_same rfl rfl builtIn (by simp [Json.same]) (by simp [Json.truthy, notEmpty]) false
  | false =>
    have isName := ofName_of_isBuiltIn_false builtIn
    rw [read_of_named isName, read_of_named isName]
    refine step_bind_congr fun state definition after found => congrFun ?_ after
    have known : get? registry text = some definition :=
      Schema.required_ok.mp (readLift_ok.mp found).1
    obtain ⟨members, rfl, regular⟩ := definitions known
    have same := Json.same_self _ (Schema.good_get? Json.hereditary_keysDistinct distinct known)
    obtain ⟨word, typeIs, isBuiltIn⟩ := regular.typed
    simp only [Decode.resolveReaderName, known, Option.getD_some, readLift_ok_bind]
    exact read_of_same (TypedNode.object typeIs).typeOf rfl isBuiltIn same (obj_truthy typeIs) false

private theorem resolveReader_union (left right : List Json) :
    Decode.resolveReader (.arr left) (.arr right) = .ok .null ∨
      Decode.resolveReader (.arr left) (.arr right) = .ok (.arr right) := by
  unfold Decode.resolveReader
  split
  · exact .inr rfl
  · split
    · exact .inl rfl
    · exact .inr (by rw [matchSchemas])

theorem Schema.KeepsBranches.branch (keeps : KeepsBranches (.arr left) (.arr right))
    (firstAt : left[place]? = some first) (secondAt : right[place]? = some second) :
    KeepsBranches first second := by
  obtain _ | ⟨_, parts⟩ := keeps
  exact parts firstAt secondAt

theorem Schema.KeepsBranches.apart {left right : List Json}
    (keeps : KeepsBranches (.arr left) (.arr right))
    (kept : Decode.resolveReader (.arr left) (.arr right) = .ok (.arr right))
    (items : RedocumentedItems left right) : Apart left right := by
  obtain _ | ⟨same | apart, _⟩ := keeps
  · obtain _ | ⟨first, rest⟩ := right
    · cases items
      intro _ _ _ _ _ branchAt _
      cases branchAt
    · rw [resolveReader_same same rfl] at kept
      cases kept
  · exact apart

private theorem resolveReader_object {left right : Members} (regular : Regular (.obj left))
    (members : RedocumentedMembers left right) :
    Decode.resolveReader (.obj left) (.obj right) = .ok .null ∨
      Decode.resolveReader (.obj left) (.obj right) = .ok (.obj right) := by
  unfold Decode.resolveReader
  split
  · exact .inr rfl
  · split
    · exact .inl rfl
    · exact .inr (matchSchemas_redocumented regular members)

/-- Reading by a schema that differs from the writer's in documentation only is the same as reading
without one. -/
theorem read_redocumented [Source σ] (definitionsDistinct : (Json.obj registry).keysDistinct = true)
    (definitions : Schema.RegularDefinitions registry) (depth : Nat) :
    ReadsRedocumented (Decode.read registry depth : Reader σ) := by
  induction depth with
  | zero => exact fun _ _ _ _ _ _ => rfl
  | succ depth ih =>
    intro writer reader distinct regular redocumented keeps
    cases writer with
    | str text =>
      rw [redocumented.text]
      exact read_name definitionsDistinct definitions depth text
    | arr left =>
      obtain ⟨right, rfl, items⟩ := redocumented.items
      rcases resolveReader_union left right with dropped | kept
      · rw [read_of_isBuiltIn rfl rfl rfl, read_of_isBuiltIn rfl rfl rfl, dropped,
          resolveReader_null]
      · cases regular with
        | union parts =>
          refine read_of_resolved rfl rfl rfl kept rfl ?_
          refine readUnion_redocumented parts items (keeps.apart kept items) ?_
          intro place branch candidate branchAt candidateAt sameBranch
          have isBranch := List.mem_of_getElem? branchAt
          exact ih (Json.itemsDistinct_iff.mp distinct branch isBranch)
            (parts branch isBranch) sameBranch
            (keeps.branch branchAt candidateAt)
    | obj left =>
      obtain ⟨right, rfl, members⟩ := redocumented.members
      obtain ⟨word, typeIs, builtIn⟩ := regular.typed
      have leftType := (TypedNode.object typeIs).typeOf
      rcases resolveReader_object regular members with dropped | kept
      · rw [read_of_isBuiltIn leftType rfl builtIn, read_of_isBuiltIn leftType rfl builtIn, dropped,
          resolveReader_null]
      · exact read_of_resolved leftType rfl builtIn kept
          (TypedNode.object (members.get?_type typeIs)).typeOf
          (readKind_redocumented ih distinct regular members keeps typeIs)
    | _ => cases regular

/-! ### Reading whole values -/

/-- A schema that parses counts as given, apart from the union without branches. -/
theorem truthy_of_parse {schema : Json} {result : Json × Registry}
    (isParsed : Schema.parse {} [] schema = .ok result) (notEmpty : schema ≠ .arr []) :
    schema.truthy = true := by
  cases schema with
  | null => cases isParsed
  | bool value | int value | float value => cases isParsed
  | str text =>
    by_cases isEmpty : text = ""
    · subst isEmpty
      cases isParsed
    · simp [Json.truthy, isEmpty]
  | arr items =>
    obtain _ | ⟨item, rest⟩ := items
    · exact absurd rfl notEmpty
    · rfl
  | obj members =>
    obtain _ | ⟨member, rest⟩ := members
    · cases isParsed
    · rfl

/-- Documentation does not change what is read: whatever the bytes, a reader's schema that differs
from the writer's in documentation only gives the same outcome as none, if unions that differ are
not ambiguous. -/
theorem single_redocumented {writer reader parsed : Json} {registry : Registry}
    (distinct : writer.keysDistinct = true) (redocumented : Redocumented writer reader)
    (isParsed : Schema.parse {} [] writer = .ok (parsed, registry)) (regular : Regular parsed)
    (definitions : Schema.RegularDefinitions registry)
    (keeps : ∀ parsedReader readerRegistry, Schema.parse {} [] reader =
      .ok (parsedReader, readerRegistry) → KeepsBranches parsed parsedReader)
    (bytes : Bytes) :
    Decode.single writer reader false bytes = Decode.single writer .null false bytes := by
  obtain ⟨parsedReader, readerRegistry, readerIs, sameParsed⟩ :=
    Schema.parse_redocumented redocumented isParsed
  obtain ⟨parsedDistinct, definitionsDistinct⟩ :=
    Schema.good_parse Json.hereditary_keysDistinct distinct rfl isParsed
  have sameRead : (Decode.read registry Schema.depthLimit parsed parsedReader false :
    ReadM BinaryInput Datum) =
      Decode.read registry Schema.depthLimit parsed .null false :=
    read_redocumented definitionsDistinct definitions Schema.depthLimit parsedDistinct
      regular sameParsed
      (keeps _ _ readerIs)
  cases same : writer.same reader with
  | true => simp only [Decode.single, same, if_true, ite_self]
  | false =>
    have notEmpty : reader ≠ .arr [] := by
      rintro rfl
      cases redocumented with
      | same => cases same
      | arr items =>
        cases items
        cases same
    have truthy := truthy_of_parse readerIs notEmpty
    have nullTruthy : Json.null.truthy = false := rfl
    simp only [Decode.single, same, if_false, isParsed, readerIs, truthy, nullTruthy, ite_self,
      if_true, outcome_ok_bind, pure_bind, Bool.false_eq_true, sameRead]

section Doors

/-- The states of a door, with or without documentation. -/
private def stateSchema (doc : List (String × Json)) : Json :=
  .obj (("type", .str "enum") :: doc ++
    [("name", .str "State"), ("symbols", .arr [.str "OPEN", .str "SHUT"])])

private def doorSchema (doc : List (String × Json)) : Json :=
  .obj (("type", .str "record") :: doc ++ [("name", .str "Door"), ("fields", .arr
    [.obj [("name", .str "state"), ("type", stateSchema doc)],
      .obj (doc ++ [("name", .str "next"), ("type", .arr [.str "null", .str "Door"])])])])

/-- Doors, some of which are missing, each with the doors behind it. -/
private def doorsSchema (doc : List (String × Json)) : Json :=
  .obj [("type", .str "array"), ("items", .arr [.str "null", doorSchema doc])]

private def doorsDoc : List (String × Json) := [("doc", .str "A door and the one behind it.")]

private theorem doors_redocumented : Redocumented (doorsSchema []) (doorsSchema doorsDoc) := by
  have states : Redocumented (stateSchema []) (stateSchema doorsDoc) :=
    .obj (.kept _ _ (.added _ (.refl _)))
  have nodes : RedocumentedItems
      [.obj [("name", .str "state"), ("type", stateSchema [])],
        .obj [("name", .str "next"), ("type", .arr [.str "null", .str "Door"])]]
      [.obj [("name", .str "state"), ("type", stateSchema doorsDoc)],
        .obj (doorsDoc ++ [("name", .str "next"), ("type", .arr [.str "null", .str "Door"])])] :=
    .cons (.obj (.kept _ _ (.node _ (by decide) states .nil)))
      (.cons (.obj (.added _ (.refl _))) .nil)
  have doors : Redocumented (doorSchema []) (doorSchema doorsDoc) :=
    .obj (.kept _ _ (.added _ (.kept _ _ (.fields nodes .nil))))
  exact .obj (.kept _ _ (.node _ (by decide) (.arr (.cons (.same _) (.cons doors .nil))) .nil))

private theorem regular_pair (firstRegular : Regular first) (secondRegular : Regular second) :
    Regular (.arr [first, second]) :=
  .union (List.forall_mem_cons.mpr ⟨firstRegular, List.forall_mem_singleton.mpr secondRegular⟩)

private theorem state_regular : Regular (stateSchema []) := .enum rfl

private theorem door_regular : Regular (doorSchema []) := by
  have references : Regular (.arr [.str "null", .str "Door"]) := regular_pair (.name _) (.name _)
  have fields : RegularFields
      [.obj [("name", .str "state"), ("type", stateSchema [])],
        .obj [("name", .str "next"), ("type", .arr [.str "null", .str "Door"])]]
        ["state", "next"] :=
    .cons rfl (by decide) (fun _ found => by cases found) rfl state_regular
      (.cons rfl (by decide) (fun _ found => by cases found) rfl references .nil)
  exact .record rfl (by decide) rfl fields

private theorem doors_regular : Regular (doorsSchema []) :=
  @Regular.collection _ _ "items" _ rfl (by decide) rfl (regular_pair (.name _) door_regular)

private theorem state_keepsBranches : KeepsBranches (stateSchema []) (stateSchema doorsDoc) := by
  refine .object (fun key _ _ isPart firstAt _ => ?_)
    (fun _ _ _ _ _ _ _ leftFields => by cases leftFields)
  simp only [List.mem_cons, List.not_mem_nil, or_false] at isPart
  rcases isPart with rfl | rfl
  · cases firstAt
  · cases firstAt

private theorem door_keepsBranches : KeepsBranches (doorSchema []) (doorSchema doorsDoc) := by
  refine .object (fun key _ _ isPart firstAt _ => ?_)
    (fun _ _ place _ _ _ _ leftFields rightFields firstAt secondAt firstType secondType => ?_)
  · simp only [List.mem_cons, List.not_mem_nil, or_false] at isPart
    rcases isPart with rfl | rfl
    · cases firstAt
    · cases firstAt
  · cases leftFields
    cases rightFields
    rcases place with _ | _ | place
    · cases firstAt
      cases secondAt
      cases firstType
      cases secondType
      exact state_keepsBranches
    · cases firstAt
      cases secondAt
      cases firstType
      cases secondType
      refine .union (.inl rfl) fun place _ _ firstAt secondAt => ?_
      rcases place with _ | _ | place
      · cases firstAt
        cases secondAt
        exact .name _
      · cases firstAt
        cases secondAt
        exact .name _
      · cases firstAt
    · cases firstAt

private theorem doors_keepsBranches : KeepsBranches (doorsSchema []) (doorsSchema doorsDoc) := by
  refine .object (fun key _ _ isPart firstAt secondAt => ?_)
    (fun _ _ _ _ _ _ _ leftFields => by cases leftFields)
  simp only [List.mem_cons, List.not_mem_nil, or_false] at isPart
  rcases isPart with rfl | rfl
  · cases firstAt
    cases secondAt
    refine .union (.inr ?_) fun place _ _ firstAt secondAt => ?_
    · intro earlier later branch candidate isEarlier branchAt candidateAt
      rcases later with _ | _ | later
      · omega
      · obtain rfl : earlier = 0 := by omega
        cases branchAt
        cases candidateAt
        cbv
      · cases branchAt
    · rcases place with _ | _ | place
      · cases firstAt
        cases secondAt
        exact .name _
      · cases firstAt
        cases secondAt
        exact door_keepsBranches
      · cases firstAt
  · cases firstAt

private theorem doors_definitions : Schema.RegularDefinitions
    [("Door", doorSchema []), ("State", stateSchema [])] := by
  intro name definition known
  rw [get?_cons, get?_cons] at known
  split at known
  · cases known
    exact ⟨_, rfl, door_regular⟩
  · split at known
    · cases known
      exact ⟨_, rfl, state_regular⟩
    · cases known

/-- Doors are read by a reader's schema with documentation as they are read without one. -/
theorem single_redocumented_doors :
    Decode.single (doorsSchema []) (doorsSchema doorsDoc) false [4, 0, 2, 2, 2, 0, 0, 0] =
        Decode.single (doorsSchema []) .null false [4, 0, 2, 2, 2, 0, 0, 0] ∧
      Decode.single (doorsSchema []) .null false [4, 0, 2, 2, 2, 0, 0, 0] =
        .ok (.list [.null, .dict [(.str "state", .str "SHUT"),
          (.str "next", .dict [(.str "state", .str "OPEN"), (.str "next", .null)])]], []) := by
  have isParsed : Schema.parse {} [] (doorsSchema []) =
      .ok (doorsSchema [], [("Door", doorSchema []), ("State", stateSchema [])]) := rfl
  have readerIs : ∃ registry, Schema.parse {} [] (doorsSchema doorsDoc) =
    .ok (doorsSchema doorsDoc, registry) := ⟨_, rfl⟩
  refine ⟨single_redocumented (by decide) doors_redocumented isParsed doors_regular
    doors_definitions ?_ _, by cbv⟩
  intro parsedReader readerRegistry parsedIs
  obtain ⟨registry, readerIs⟩ := readerIs
  cases readerIs.symm.trans parsedIs
  exact doors_keepsBranches

end Doors

/-- Without that condition documentation counts: the branch of a union is chosen again, and the
first record is taken for the second one. -/
theorem documentation_changes_branch :
    ∃ writer reader : Json, Redocumented writer reader ∧
      Encode.single writer (.dict [(.str "b", .int 5)]) = .ok [2, 10] ∧
      Decode.single writer .null false [2, 10] = .ok (.dict [(.str "b", .int 5)], []) ∧
      Decode.single writer reader false [2, 10] = .error (.noDefault (.str "a")) := by
  refine ⟨.arr [.obj [("type", .str "record"), ("name", .str "First"), ("fields", .arr
        [.obj [("name", .str "a"), ("type", .str "int")]])],
      .obj [("type", .str "record"), ("name", .str "Second"), ("fields", .arr
        [.obj [("name", .str "b"), ("type", .str "int")]])]],
    .arr [.obj [("type", .str "record"), ("name", .str "First"), ("doc", .str "A first."),
      ("fields", .arr
        [.obj [("name", .str "a"), ("type", .str "int")]])],
      .obj [("type", .str "record"), ("name", .str "Second"), ("fields", .arr
        [.obj [("name", .str "b"), ("type", .str "int")]])]], ?_, ?_, ?_, ?_⟩
  · exact .arr (.cons (.obj (.kept _ _ (.kept _ _ (.added _ (.refl _))))) (.refl _))
  · rfl
  · cbv
  · cbv

end Avro
