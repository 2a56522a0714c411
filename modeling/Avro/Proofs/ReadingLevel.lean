import Avro.Decode.Datum
import Avro.Proofs.WellTyped

/-!
Contract: one level of reading.

Owns: how reading at a positive depth goes on from the kind of a node, by the rule of a built-in
kind or by the definition behind a name, and what stands in an index of fields with different names.
-/

namespace Avro

variable {σ α β : Type}
variable {members : Members} {name text : String} {registry : Registry}

theorem attributeOf_obj {key : String} {value : Json}
    (found : Members.get? members key = some value) :
    Schema.attributeOf (.obj members) key = .ok value := by
  simp [Schema.attributeOf, Schema.required, found]

theorem mem_of_itemAt {items : List α} {index : Int} {item : α}
    (found : Schema.itemAt items index = .ok item) : item ∈ items := by
  unfold Schema.itemAt at found
  dsimp only at found
  generalize (if index < 0 then index + (items.length : Int) else index) = place at found
  split at found
  · simp at found
  · cases itemIs : items[place.toNat]? with
    | none => simp [itemIs] at found
    | some other =>
      rw [itemIs] at found
      cases found
      exact List.mem_of_getElem? itemIs

theorem fieldKey_of_named (named : Members.get? members "name" = some (.str name)) :
    Decode.fieldKey (.obj members) = .ok (.str name) := by
  simp [Decode.fieldKey, Schema.attributeOf, Schema.required, named, Schema.keyOf]

theorem resolveReader_null (writer : Json) : Decode.resolveReader writer .null = .ok .null := rfl

/-- A value of a built-in kind is read, and then brought into the reader's form. -/
theorem read_of_isBuiltIn [Source σ] {depth : Nat} {writer type : Json} {kind : Kind}
    (typeIs : Schema.typeOf writer = .ok type) (kindIs : Kind.ofType type = .ok kind)
    (builtIn : kind.isBuiltIn = true) (reader : Json) (named : Bool) :
    (Decode.read registry (depth + 1) writer reader named : ReadM σ Datum) =
      (ReadM.lift (Decode.resolveReader writer reader) >>= fun resolved =>
        Decode.orTruncated type (Decode.readKind registry (Decode.read registry depth)
          (Decode.skip registry depth) writer
          resolved named kind) >>= fun datum =>
            ReadM.lift (Decode.finish writer resolved type datum)) := by
  rw [Decode.read, typeIs, readLift_ok_bind, kindIs, readLift_ok_bind]
  cases kind with
  | named name => cases builtIn
  | foreign value => cases builtIn
  | _ => rfl

theorem ofName_of_isBuiltIn_false (foreign : (Kind.ofName text).isBuiltIn = false) :
    Kind.ofName text = .named text := by
  have wordIs := Kind.word_ofName text
  cases kindIs : Kind.ofName text with
  | named name =>
    rw [kindIs] at wordIs
    exact congrArg Kind.named wordIs
  | foreign value =>
    rw [kindIs] at wordIs
    cases wordIs
    cases kindIs
  | _ =>
    rw [kindIs] at foreign
    cases foreign

/-- A reference is read by the definition behind it, against the reader's definition of the name. -/
theorem read_of_named [Source σ] (isName : Kind.ofName text = .named text) (depth : Nat)
    (reader : Json) (named : Bool) :
    (Decode.read registry (depth + 1) (.str text) reader named : ReadM σ Datum) =
      (ReadM.lift (Schema.resolve registry text) >>= fun definition =>
        ReadM.lift (Decode.resolveReaderName registry reader) >>= fun readerDefinition =>
          Decode.read registry depth definition readerDefinition named) := by
  have kindIs : Kind.ofType (.str text) = .ok (.named text) := congrArg Except.ok isName
  rw [Decode.read, Schema.typeOf, readLift_ok_bind, kindIs]
  · rfl
  all_goals simp

/-! ### The index of the reader's fields -/

def underNames (names : List String) (nodes : List Json) : List (Json × Json) :=
  (names.map Json.str).zip nodes

theorem setUnder_new {table : List (Json × Json)}
    (fresh : ∀ entry ∈ table, entry.1.same (.str name) = false) (field : Json) :
    Decode.setUnder table (.str name) field = table ++ [(.str name, field)] := by
  induction table with
  | nil => rfl
  | cons entry rest ih =>
    rw [List.forall_mem_cons] at fresh
    rw [Decode.setUnder, fresh.1, if_neg Bool.false_ne_true, ih fresh.2]
    rfl

theorem fieldUnder?_underNames {names : List String} {others : List Json} (distinct : names.Nodup)
    {place : Nat} {other : Json} (nameAt : names[place]? = some name)
    (otherAt : others[place]? = some other) :
    Decode.fieldUnder? (underNames names others) (.str name) = some other := by
  induction place generalizing names others with
  | zero =>
    obtain _ | ⟨head, names⟩ := names
    · cases nameAt
    obtain _ | ⟨first, others⟩ := others
    · cases otherAt
    cases nameAt
    cases otherAt
    simp [underNames, Decode.fieldUnder?, Json.same]
  | succ place ih =>
    obtain _ | ⟨head, names⟩ := names
    · cases nameAt
    obtain _ | ⟨first, others⟩ := others
    · cases otherAt
    rw [List.getElem?_cons_succ] at nameAt otherAt
    rw [List.nodup_cons] at distinct
    have different : head ≠ name := fun equal => distinct.1 (equal ▸ List.mem_of_getElem? nameAt)
    have passed : Decode.fieldUnder? (underNames (head :: names) (first :: others)) (.str name) =
        Decode.fieldUnder? (underNames names others) (.str name) := by
      simp [underNames, Decode.fieldUnder?, Json.same, different]
    rw [passed]
    exact ih distinct.2 nameAt otherAt

end Avro
