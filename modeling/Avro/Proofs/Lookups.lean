import Avro.Encode.Datum
import Avro.Proofs.Answers
import Avro.Proofs.ReadingLevel
import Mathlib.Logic.Relation

/-!
Contract: a schema is used by the definitions of the names within it.

Owns: `partsOf` and `lookup?`, the nodes that a node leads to and the name that it looks up;
`Covers`, in which two registries agree on all names that nodes within a set look up; and that
values are checked, written, read and skipped alike by two such registries.

A name that were looked up in vain would be found in a registry that has it besides, so whatever is
the same for all registries that agree on some names looks up no others.
-/

namespace Avro

open Decode (fieldsOf)
open Members (get?)

variable {σ : Type} {left right registry : Registry} {inside : Json → Prop}
  {schema node part : Json} {kind : Kind} {depth : Nat} {datum value : Datum}

namespace Schema

/-! ### Nodes and names -/

/-- The types of the fields of a node. -/
def fieldTypes (node : Json) : List Json :=
  ((fieldsOf node).toOption.getD []).filterMap fun field => (attributeOf field "type").toOption

/-- The nodes to which a schema goes on from a node: the definition behind a name, the branches of a
union, the types of the parts of a collection or a record. -/
def partsOf (registry : Registry) (node : Json) : List Json :=
  match kindOf node with
  | .ok (.named name) => (get? registry name).toList
  | .ok .array => (attributeOf node "items").toOption.toList
  | .ok .map => (attributeOf node "values").toOption.toList
  | .ok .union | .ok .errorUnion => (iterate node).toOption.getD []
  | .ok .record | .ok .error => fieldTypes node
  | .ok .request => (get? registry "request").toList ++ fieldTypes node
  | _ => []

/-- The second node is met on the way down from the first. -/
def Within (registry : Registry) : Json → Json → Prop :=
  Relation.ReflTransGen fun node part => part ∈ partsOf registry node

/-- The name that a node looks up. Requests are written by a definition of that name. -/
def lookup? (node : Json) : Option String :=
  match kindOf node with
  | .ok (.named name) => some name
  | .ok .request => some "request"
  | .ok (.foreign value) => (registryName value).toOption
  | _ => none

/-- Two registries that have the same under every name that is looked up from a set of nodes, which
holds the parts of its nodes. -/
structure Covers (left right : Registry) (inside : Json → Prop) : Prop where
  parts : ∀ ⦃node part⦄, inside node → part ∈ partsOf left node → inside part
  names : ∀ ⦃node name⦄, inside node → lookup? node = some name → get? left name = get? right name

namespace Covers

variable {name : String} (covers : Covers left right inside) (isInside : inside node)

include covers isInside

theorem resolve_eq (isName : lookup? node = some name) :
    resolve left name = resolve right name := by
  rw [resolve, resolve, covers.names isInside isName]

/-- What is found under a name is within. -/
theorem definition {definition : Json} (isName : lookup? node = some name)
    (notForeign : ∀ value, kindOf node ≠ .ok (.foreign value))
    (resolved : resolve left name = .ok definition) : inside definition := by
  have found : get? left name = some definition := by
    unfold resolve at resolved
    split at resolved
    · cases resolved
      assumption
    · cases resolved
  refine covers.parts isInside ?_
  unfold lookup? at isName
  unfold partsOf
  split at isName
  · cases isName
    simp [*]
  · cases isName
    simp [*]
  · exact absurd ‹_› (notForeign _)
  · cases isName

end Covers

theorem kindOf_ok {type : Json} (typeIs : typeOf schema = .ok type)
    (kindIs : Kind.ofType type = .ok kind) : kindOf schema = .ok kind := by
  rw [kindOf, typeIs]
  exact kindIs

section Parts

variable (kindIs : kindOf node = .ok kind)

include kindIs

theorem mem_partsOf_branch (isUnion : kind = .union ∨ kind = .errorUnion) {branches : List Json}
    (branchesAre : iterate node = .ok branches) (isBranch : part ∈ branches) :
    part ∈ partsOf registry node := by
  have partsAre : partsOf registry node = branches := by
    rcases isUnion with rfl | rfl
    all_goals
      rw [partsOf, kindIs, branchesAre]
      rfl
  rwa [partsAre]

theorem mem_partsOf_field (isRecord : kind = .record ∨ kind = .error ∨ kind = .request)
    {fields : List Json} {field : Json} (fieldsAre : fieldsOf node = .ok fields)
    (isField : field ∈ fields) (typeIs : attributeOf field "type" = .ok part) :
    part ∈ partsOf registry node := by
  have isType : part ∈ fieldTypes node := by
    rw [fieldTypes, fieldsAre]
    exact List.mem_filterMap.mpr ⟨field, isField, by rw [typeIs]; rfl⟩
  rcases isRecord with rfl | rfl | rfl
  · rwa [partsOf, kindIs]
  · rwa [partsOf, kindIs]
  · rw [partsOf, kindIs]
    exact List.mem_append_right _ isType

theorem mem_partsOf_collection {key : String}
    (isCollection : (kind, key) = (.array, "items") ∨ (kind, key) = (.map, "values"))
    (partIs : attributeOf node key = .ok part) : part ∈ partsOf registry node := by
  rcases isCollection with ⟨⟨⟩⟩ | ⟨⟨⟩⟩
  all_goals
    rw [partsOf, kindIs, partIs]
    exact List.mem_singleton_self part

end Parts

theorem fieldsOf_ok {fields : Json} {nodes : List Json}
    (fieldsAre : attributeOf node "fields" = .ok fields) (nodesAre : iterate fields = .ok nodes) :
    fieldsOf node = .ok nodes := by
  rw [fieldsOf, fieldsAre, outcome_ok_bind, nodesAre]

theorem documentItemAt_mem {index : Int} {item : Json}
    (found : documentItemAt schema index = .ok item) :
    ∃ items, iterate schema = .ok items ∧ item ∈ items := by
  cases schema with
  | arr items => exact ⟨items, rfl, mem_of_itemAt found⟩
  | str text =>
    obtain ⟨character, isCharacter, ⟨⟩⟩ := outcome_bind_ok.mp found
    exact ⟨_, rfl, List.mem_map_of_mem (mem_of_itemAt isCharacter)⟩
  | _ => cases found

end Schema

open Schema

/-! ### Checks -/

namespace Validation

theorem Inspects.mem_partsOf (inspects : Inspects registry datum schema kind value node)
    (kindIs : kindOf schema = .ok kind) : node ∈ partsOf registry schema := by
  cases inspects with
  | item _ _ nodeIs => exact mem_partsOf_collection kindIs (.inl rfl) nodeIs
  | entry _ _ nodeIs => exact mem_partsOf_collection kindIs (.inr rfl) nodeIs
  | branch isUnion branchesAre isBranch =>
    exact mem_partsOf_branch kindIs isUnion branchesAre isBranch
  | chosen isUnion _ branchesAre isBranch =>
    exact mem_partsOf_branch kindIs isUnion branchesAre isBranch
  | @field _ _ _ field _ view isRecord _ fieldsAre nodesAre isNode viewIs =>
    have typeIs : attributeOf field "type" = .ok view.type := by
      cases field with
      | obj members =>
        obtain ⟨name, -, viewIs⟩ := outcome_bind_ok.mp viewIs
        obtain ⟨key, -, viewIs⟩ := outcome_bind_ok.mp viewIs
        obtain ⟨type, typeIs, ⟨⟩⟩ := outcome_bind_ok.mp viewIs
        exact typeIs
      | _ => cases viewIs
    exact mem_partsOf_field kindIs isRecord (fieldsOf_ok fieldsAre nodesAre) isNode typeIs
  | definition found =>
    rw [partsOf, kindIs]
    exact Option.mem_toList.mpr found

theorem check_of_covers (covers : Covers left right inside) (strict : Bool) (isInside : inside node)
    (datum : Datum) (field : Json) :
    check left strict depth datum node field = check right strict depth datum node field := by
  induction depth generalizing node datum field with
  | zero => rfl
  | succ depth ih =>
    have answering := answering_eq strict
    refine answering.after (.typeOf node) fun type typeIs =>
      answering.after (.prepareFor node datum) fun prepared _ =>
        answering.after (.ofType type) fun kind ofType => ?_
    have kindIs := kindOf_ok typeIs ofType
    have parts (value : Datum) (part place : Json)
      (inspects : Inspects left prepared node kind value part) :
        check left strict depth value part place = check right strict depth value part place :=
      ih (covers.parts isInside (inspects.mem_partsOf kindIs)) value place
    have inner : checkKind left strict (check left strict depth) node field prepared kind =
        checkKind right strict (check right strict depth) node field prepared kind := by
      refine answering.checkKind (fun value part => parts value part field)
        (fun isRecord => answering.checkRecord isRecord
          (fun value part text => parts value part (.str text)) field)
        fun name isName => ?_
      subst isName
      have sameName := covers.names isInside (show lookup? node = some name by rw [lookup?, kindIs])
      simp only [checkKind, ← sameName]
      split
      · rename_i definition found
        exact parts _ _ _ (.definition found)
      · rfl
    rw [inner]

end Validation

/-! ### Writing -/

theorem Branch.search_congr {accepts second : Json → Outcome Bool} {branches : List Json}
    (same : ∀ branch ∈ branches, accepts branch = second branch) (best : Option Candidate)
    (index : Nat) :
    search accepts datum best index branches = search second datum best index branches := by
  induction branches generalizing best index with
  | nil => rfl
  | cons branch rest ih =>
    rw [List.forall_mem_cons] at same
    have ih := ih same.2
    rw [search, search, same.1]
    simp only [ih]

theorem Branch.choose_of_covers (covers : Covers left right inside) (isInside : inside node)
    (kindIs : kindOf node = .ok kind) (isUnion : kind = .union ∨ kind = .errorUnion)
    (field : Json) :
    choose left depth node field datum = choose right depth node field datum := by
  have accepted {branches : List Json} (branchesAre : iterate node = .ok branches) :
      ∀ branch ∈ branches, Validation.check left false depth datum branch .null =
        Validation.check right false depth datum branch .null := fun branch isBranch =>
    Validation.check_of_covers covers false
      (covers.parts isInside (mem_partsOf_branch kindIs isUnion branchesAre isBranch)) datum .null
  unfold choose
  cases branchesAre : iterate node with
  | error error => rfl
  | ok branches => simp only [outcome_ok_bind, search_congr (accepted branchesAre)]

namespace Encode

section Level

variable {first second : Writer σ}

private theorem writeItems_congr [Sink σ] {field : Json}
    (same : ∀ datum, first datum node field = second datum node field) (items : List Datum) :
    writeItems first node field items = writeItems second node field items := by
  induction items with
  | nil => rfl
  | cons item rest ih => rw [writeItems, writeItems, same, ih]

private theorem writeEntries_congr [Sink σ] {field : Json}
    (same : ∀ datum, first datum node field = second datum node field)
    (entries : List (Datum × Datum)) :
    writeEntries first node field entries = writeEntries second node field entries := by
  induction entries with
  | nil => rfl
  | cons entry rest ih => rw [writeEntries, writeEntries, same, ih]

private theorem writeFields_congr {fields : List Json}
    (same : ∀ field ∈ fields, ∀ type, attributeOf field "type" = .ok type → ∀ datum name,
      first datum type name = second datum type name) :
    writeFields first datum fields = writeFields second datum fields := by
  induction fields with
  | nil => rfl
  | cons field rest ih =>
    rw [List.forall_mem_cons] at same
    have ih := ih same.2
    cases field with
    | obj members =>
      cases datum with
      | dict entries =>
        rw [writeFields, writeFields, ih]
        refine writeLift_bind_congr fun name _ => writeLift_bind_congr fun _ _ =>
          writeLift_bind_congr fun type typeIs => ?_
        rw [same.1 type typeIs]
      | _ => rfl
    | _ => rfl

/-- A level is written alike if the branch of a union is chosen alike and the parts are written
alike. -/
theorem writeKind_congr [Sink σ] (kindIs : kindOf node = .ok kind) {field : Json}
    (parts : ∀ part ∈ partsOf left node, ∀ datum field,
      first datum part field = second datum part field)
    (choice : kind = .union ∨ kind = .errorUnion →
      Branch.choose left depth node field datum = Branch.choose right depth node field datum) :
    writeKind left depth first node field datum kind =
      writeKind right depth second node field datum kind := by
  have union (isUnion : kind = .union ∨ kind = .errorUnion) :
      writeUnion left depth first node field datum =
        writeUnion right depth second node field datum := by
    unfold writeUnion
    rw [choice isUnion]
    refine writeLift_bind_congr fun chosen _ => writeLift_bind_congr fun branch branchIs => ?_
    obtain ⟨branches, branchesAre, isBranch⟩ := documentItemAt_mem branchIs
    rw [parts branch (mem_partsOf_branch kindIs isUnion branchesAre isBranch)]
  have record (isRecord : kind = .record ∨ kind = .error) :
      writeRecord first node datum = writeRecord second node datum := by
    unfold writeRecord
    refine writeLift_bind_congr fun fields fieldsAre =>
      writeLift_bind_congr fun nodes nodesAre => ?_
    refine writeFields_congr fun field isField type typeIs => parts type ?_
    exact mem_partsOf_field kindIs (isRecord.imp_right .inl) (fieldsOf_ok fieldsAre nodesAre)
      isField typeIs
  cases kind with
  | array =>
    simp only [writeKind, writeArray]
    refine bind_congr fun _ => bind_congr fun size => ?_
    split
    · refine bind_congr fun _ => writeLift_bind_congr fun items itemsIs => ?_
      rw [writeItems_congr fun datum => parts items
        (mem_partsOf_collection kindIs (.inl rfl) itemsIs) datum field]
    · rfl
  | map =>
    simp only [writeKind, writeMap]
    refine bind_congr fun _ => bind_congr fun size => ?_
    split
    · refine bind_congr fun _ => writeLift_bind_congr fun values valuesIs => ?_
      cases datum with
      | dict entries =>
        simp only
        rw [writeEntries_congr fun datum =>
          parts values (mem_partsOf_collection kindIs (.inr rfl) valuesIs) datum field]
      | _ => rfl
    · rfl
  | union => exact union (.inl rfl)
  | errorUnion => exact union (.inr rfl)
  | record => exact record (.inl rfl)
  | error => exact record (.inr rfl)
  | _ => rfl

end Level

/-- Values are written alike by registries that agree on the names within the schema. -/
theorem write_of_covers [Sink σ] (covers : Covers left right inside) (isInside : inside node)
    (datum : Datum) (field : Json) :
    (write left depth datum node field : WriteM σ Unit) = write right depth datum node field := by
  induction depth generalizing node datum field with
  | zero => rfl
  | succ depth ih =>
    refine writeLift_bind_congr fun type typeIs => writeLift_bind_congr fun kind ofType => ?_
    have kindIs := kindOf_ok typeIs ofType
    have definition {name : String} (isName : lookup? node = some name)
        (notForeign : ∀ value, kindOf node ≠ .ok (.foreign value)) :
        (WriteM.lift (Schema.resolve left name) >>= fun found =>
            write left depth datum found (.str "")) =
          (WriteM.lift (Schema.resolve right name) >>= fun found =>
            write right depth datum found (.str "") : WriteM σ Unit) := by
      rw [← covers.resolve_eq isInside isName]
      exact writeLift_bind_congr fun found resolved =>
        ih (covers.definition isInside isName notForeign resolved) datum _
    have level (prepared : Datum) :
      writeKind left depth (write left depth) node field prepared kind =
        (writeKind right depth (write right depth) node field prepared kind : WriteM σ Unit) :=
      writeKind_congr kindIs (fun part isPart datum field =>
        ih (covers.parts isInside isPart) datum field)
        fun isUnion => Branch.choose_of_covers covers isInside kindIs isUnion field
    cases kind with
    | named name => exact definition (by rw [lookup?, kindIs]) (by simp [kindIs])
    | request => exact definition (by rw [lookup?, kindIs]) (by simp [kindIs])
    | foreign value => rfl
    | _ => exact writeLift_bind_congr fun prepared _ => by rw [level prepared]

end Encode

/-! ### Reading -/

namespace Decode

section Skipped

variable {first second : Json → ReadM σ Unit}

private theorem skipFields_congr {fields : List Json}
    (same : ∀ field ∈ fields, ∀ type, attributeOf field "type" = .ok type →
      first type = second type) :
    skipFields first fields = skipFields second fields := by
  induction fields with
  | nil => rfl
  | cons field rest ih =>
    rw [List.forall_mem_cons] at same
    rw [skipFields, skipFields, ih same.2]
    exact readLift_bind_congr fun type typeIs => by rw [same.1 type typeIs]

/-- A level is skipped alike if its parts are. -/
theorem skipKind_congr [Source σ] (kindIs : kindOf node = .ok kind)
    (parts : ∀ part ∈ partsOf registry node, first part = second part) :
    skipKind first node kind = skipKind second node kind := by
  have collection {key : String}
      (isCollection : (kind, key) = (.array, "items") ∨ (kind, key) = (.map, "values")) :
      (ReadM.lift (attributeOf node key) >>= first) =
        (ReadM.lift (attributeOf node key) >>= second) :=
    readLift_bind_congr fun part partIs =>
      parts part (mem_partsOf_collection kindIs isCollection partIs)
  have union (isUnion : kind = .union ∨ kind = .errorUnion) (index : Int) :
      (ReadM.lift (documentItemAt node index) >>= first) =
        (ReadM.lift (documentItemAt node index) >>= second) := by
    refine readLift_bind_congr fun branch branchIs => ?_
    obtain ⟨branches, branchesAre, isBranch⟩ := documentItemAt_mem branchIs
    exact parts branch (mem_partsOf_branch kindIs isUnion branchesAre isBranch)
  have record (isRecord : kind = .record ∨ kind = .error ∨ kind = .request) :
      (ReadM.lift (fieldsOf node) >>= skipFields first) =
        (ReadM.lift (fieldsOf node) >>= skipFields second) :=
    readLift_bind_congr fun fields fieldsAre => skipFields_congr fun field isField type typeIs =>
      parts type (mem_partsOf_field kindIs isRecord fieldsAre isField typeIs)
  cases kind with
  | array => simp only [skipKind, collection (.inl rfl)]
  | map => simp only [skipKind, collection (.inr rfl)]
  | union => exact bind_congr (union (.inl rfl))
  | errorUnion => exact bind_congr (union (.inr rfl))
  | record => exact record (.inl rfl)
  | error => exact record (.inr (.inl rfl))
  | request => exact record (.inr (.inr rfl))
  | _ => rfl

end Skipped

/-- Values are skipped alike by registries that agree on the names within the schema. -/
theorem skip_of_covers [Source σ] (covers : Covers left right inside) (isInside : inside node) :
    (skip left depth node : ReadM σ Unit) = skip right depth node := by
  induction depth generalizing node with
  | zero => rfl
  | succ depth ih =>
    refine readLift_bind_congr fun kind kindIs => ?_
    have level : (skipKind (skip left depth) node kind : ReadM σ Unit) =
        skipKind (skip right depth) node kind :=
      skipKind_congr kindIs fun part isPart => ih (covers.parts isInside isPart)
    cases kind with
    | named name =>
      have isName : lookup? node = some name := by rw [lookup?, kindIs]
      simp only
      rw [← covers.resolve_eq isInside isName]
      exact readLift_bind_congr fun found resolved =>
        ih (covers.definition isInside isName (by simp [kindIs]) resolved)
    | foreign value => rfl
    | _ => exact level

section Level

variable {first second : Reader σ} {named : Bool}

private theorem readFields_of_parts {fields : List Json}
    (same : ∀ field ∈ fields, ∀ type, attributeOf field "type" = .ok type →
      first type .null named = second type .null named) (record : List (Datum × Datum)) :
    readFields first named record fields = readFields second named record fields := by
  induction fields generalizing record with
  | nil => rfl
  | cons field rest ih =>
    rw [List.forall_mem_cons] at same
    have ih := ih same.2
    simp only [readFields, ih]
    exact readLift_bind_congr fun type typeIs => by rw [same.1 type typeIs]

/-- The name of a branch that is no built-in type is found alike. -/
theorem registeredName_congr (kindIs : kindOf node = .ok kind) (notBuiltIn : kind.isBuiltIn = false)
    (same : ∀ name, lookup? node = some name →
      Schema.resolve left name = Schema.resolve right name) :
    registeredName left node = registeredName right node := by
  unfold registeredName
  cases keyIs : registryName node with
  | error error => rfl
  | ok key =>
    have isName : lookup? node = some key := by
      cases node with
      | str text =>
        cases kindIs
        cases keyIs
        rw [lookup?, show kindOf (.str key) = .ok (Kind.ofName key) from rfl,
          ofName_of_isBuiltIn_false notBuiltIn]
      | arr _ | obj _ => cases keyIs
      | _ =>
        rw [lookup?]
        change (registryName _).toOption = _
        rw [keyIs]
        rfl
    rw [outcome_ok_bind, outcome_ok_bind, same key isName]

/-- A level is read alike, without a reader's schema, if its parts are and if the names of branches
are known alike. -/
theorem readKind_of_parts [Source σ] {skipFirst skipSecond : Json → ReadM σ Unit}
    (kindIs : kindOf node = .ok kind)
    (parts : ∀ part ∈ partsOf left node, ∀ named, first part .null named = second part .null named)
    (same : ∀ part ∈ partsOf left node, ∀ name, lookup? part = some name →
      Schema.resolve left name = Schema.resolve right name) :
    readKind left first skipFirst node .null named kind =
      readKind right second skipSecond node .null named kind := by
  have noPart (key : String) : readerPart .null key = .ok .null := rfl
  have collection {key : String}
      (isCollection : (kind, key) = (.array, "items") ∨ (kind, key) = (.map, "values")) :
      (ReadM.lift (attributeOf node key) >>= fun part => first part .null named) =
        (ReadM.lift (attributeOf node key) >>= fun part => second part .null named) :=
    readLift_bind_congr fun part partIs =>
      parts part (mem_partsOf_collection kindIs isCollection partIs) named
  have union (isUnion : kind = .union ∨ kind = .errorUnion) :
      readUnion left first node .null named = readUnion right second node .null named := by
    refine bind_congr fun index => readLift_bind_congr fun branch branchIs => ?_
    obtain ⟨branches, branchesAre, isBranch⟩ := documentItemAt_mem branchIs
    have isPart : branch ∈ partsOf left node :=
      mem_partsOf_branch kindIs isUnion branchesAre isBranch
    simp only [Json.truthy, Bool.false_eq_true, if_false, parts branch isPart]
    split
    · refine readLift_bind_congr fun type typeIs => ?_
      split
      · rfl
      · refine readLift_bind_congr fun branchKind ofType => ?_
        cases builtIn : branchKind.isBuiltIn with
        | true => rfl
        | false =>
          rw [registeredName_congr (kindOf_ok typeIs ofType) builtIn (same branch isPart)]
    · rfl
  have record (isRecord : kind = .record ∨ kind = .error ∨ kind = .request) :
      readRecord first skipFirst node .null named = readRecord second skipSecond node .null named :=
    readLift_bind_congr fun fields fieldsAre => by
      rw [readFields_of_parts fun field isField type typeIs =>
        parts type (mem_partsOf_field kindIs isRecord fieldsAre isField typeIs) named]
  cases kind with
  | array =>
    simp only [readKind, readArray, noPart, readLift_ok_bind, collection (.inl rfl)]
  | map =>
    simp only [readKind, readMap, noPart, readLift_ok_bind]
    refine bind_congr fun _ => congrArg (· >>= _) (congrArg _ (bind_congr fun key => ?_))
    simp only [← bind_assoc, collection (.inr rfl)]
  | union => exact union (.inl rfl)
  | errorUnion => exact union (.inr rfl)
  | record => exact record (.inl rfl)
  | error => exact record (.inr (.inl rfl))
  | request => exact record (.inr (.inr rfl))
  | _ => rfl

end Level

/-- Values are read alike, without a reader's schema, by registries that agree on the names within
the schema. -/
theorem read_of_covers [Source σ] (covers : Covers left right inside) (isInside : inside node)
    (named : Bool) :
    (read left depth node .null named : ReadM σ Datum) = read right depth node .null named := by
  induction depth generalizing node named with
  | zero => rfl
  | succ depth ih =>
    refine readLift_bind_congr fun type typeIs => readLift_bind_congr fun kind ofType => ?_
    have kindIs := kindOf_ok typeIs ofType
    have level : (readKind left (read left depth) (skip left depth) node .null named kind :
      ReadM σ Datum) =
        readKind right (read right depth) (skip right depth) node .null named kind :=
      readKind_of_parts kindIs (fun part isPart => ih (covers.parts isInside isPart))
        fun part isPart name => covers.resolve_eq (covers.parts isInside isPart)
    cases kind with
    | named name =>
      have isName : lookup? node = some name := by rw [lookup?, kindIs]
      simp only
      rw [← covers.resolve_eq isInside isName]
      exact readLift_bind_congr fun found resolved =>
        ih (covers.definition isInside isName (by simp [kindIs]) resolved) named
    | foreign value => rfl
    | _ => simp only [resolveReader_null, readLift_ok_bind, level]

end Decode

/-- Values are checked, written, read and skipped alike by two registries. -/
structure UsedAlike (left right : Registry) (schema : Json) : Prop where
  check : ∀ strict depth datum field,
    Validation.check left strict depth datum schema field =
      Validation.check right strict depth datum schema field
  write : ∀ (σ : Type) [Sink σ] depth datum field,
    (Encode.write left depth datum schema field : WriteM σ Unit) =
      Encode.write right depth datum schema field
  read : ∀ (σ : Type) [Source σ] depth named,
    (Decode.read left depth schema .null named : ReadM σ Datum) =
      Decode.read right depth schema .null named
  skip : ∀ (σ : Type) [Source σ] depth,
    (Decode.skip left depth schema : ReadM σ Unit) = Decode.skip right depth schema

theorem Schema.Covers.usedAlike (covers : Covers left right inside) (isInside : inside schema) :
    UsedAlike left right schema where
  check strict _ := Validation.check_of_covers covers strict isInside
  write _ _ _ := Encode.write_of_covers covers isInside
  read _ _ _ := Decode.read_of_covers covers isInside
  skip _ _ _ := Decode.skip_of_covers covers isInside

end Avro
