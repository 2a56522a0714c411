import Avro.Proofs.Acceptance
import Avro.Proofs.Matching

/-!
Contract: which fields of a resolved record take their defaults.

Owns: the keys of a record while its fields are resolved. They are names of the reader's fields,
each once; so a record with as many entries as the reader has names lacks none, and a field that was
written under its own name has a value.
-/

namespace Avro

variable {name : String} {fields readerFields : List Field} {entry : String × Field} {field : Field}
  {record entries result : List (Datum × Datum)}

/-! ### Keys of mappings -/

namespace Datum

variable {name : String} {record : List (Datum × Datum)}

theorem mem_keys_insert {value key : Datum} :
    key ∈ (Datum.insert record name value).map Prod.fst ↔
    key = .str name ∨ key ∈ record.map Prod.fst := by
  induction record with
  | nil => simp [Datum.insert]
  | cons entry rest ih =>
    obtain ⟨first, content⟩ := entry
    cases first with
    | str text =>
      rw [Datum.insert]
      by_cases sameKey : text = name
      · rw [if_pos sameKey]
        simp [sameKey]
      · rw [if_neg sameKey, List.map_cons, List.mem_cons, ih, List.map_cons, List.mem_cons]
        exact or_left_comm
    | _ =>
      rw [Datum.insert, List.map_cons, List.mem_cons, ih, List.map_cons, List.mem_cons]
      · exact or_left_comm
      · simp

private theorem nodup_keys_insert (name : String) (value : Datum)
    (distinct : (record.map Prod.fst).Nodup) :
    ((Datum.insert record name value).map Prod.fst).Nodup := by
  induction record with
  | nil => simp [Datum.insert]
  | cons entry rest ih =>
    obtain ⟨first, content⟩ := entry
    obtain ⟨headNew, restDistinct⟩ := List.nodup_cons.mp distinct
    have passed : first ≠ Datum.str name →
        (((first, content) :: Datum.insert rest name value).map Prod.fst).Nodup := by
      intro different
      refine List.nodup_cons.mpr ⟨?_, ih restDistinct⟩
      intro present
      rcases mem_keys_insert.mp present with isKey | inRest
      · exact different isKey
      · exact headNew inRest
    cases first with
    | str text =>
      rw [Datum.insert]
      by_cases sameKey : text = name
      · rw [if_pos sameKey]
        exact List.nodup_cons.mpr ⟨sameKey ▸ headNew, restDistinct⟩
      · rw [if_neg sameKey]
        exact passed (by simp [sameKey])
    | _ =>
      rw [Datum.insert]
      · exact passed (by simp)
      · simp

theorem isSome_lookup :
    (Datum.lookup record name).isSome = true ↔ Datum.str name ∈ record.map Prod.fst := by
  induction record with
  | nil => simp [Datum.lookup]
  | cons entry rest ih =>
    obtain ⟨first, content⟩ := entry
    cases first with
    | str text =>
      rw [Datum.lookup, List.map_cons, List.mem_cons]
      by_cases sameKey : text = name
      · simp [sameKey]
      · rw [if_neg sameKey, ih]
        simp [Ne.symm sameKey]
    | _ =>
      rw [Datum.lookup, List.map_cons, List.mem_cons, ih]
      · simp
      · simp

end Datum

/-- A record has a value for a text exactly if looking it up finds one. -/
theorem hasField_str (record : List (Datum × Datum)) (name : String) :
    Decode.hasField record (.str name) = (Datum.lookup record name).isSome := by
  rw [Bool.eq_iff_iff, Datum.isSome_lookup, Decode.hasField, List.any_eq_true, List.mem_map]
  constructor
  · rintro ⟨entry, isEntry, same⟩
    exact ⟨entry, isEntry, eq_of_sameAsJson_str same⟩
  · rintro ⟨entry, isEntry, keyIs⟩
    exact ⟨entry, isEntry, by simp [keyIs, Datum.sameAsJson]⟩

/-! ### The reader's names -/

theorem Field.byName_append (fields : List Field) (field : Field) :
    Field.byName (fields ++ [field]) = Members.set (Field.byName fields) field.name field := by
  simp [Field.byName, List.foldl_append]

theorem Field.mem_keys_byName :
    name ∈ Members.keys (Field.byName fields) ↔ ∃ field ∈ fields, field.name = name := by
  induction fields using List.reverseRecOn with
  | nil => simp [Field.byName, Members.keys]
  | append_singleton fields field ih =>
    rw [Field.byName_append, Members.mem_keys_set, ih]
    constructor
    · rintro (isName | ⟨other, isField, nameIs⟩)
      · exact ⟨field, by simp, isName.symm⟩
      · exact ⟨other, by simp [isField], nameIs⟩
    · rintro ⟨other, isField, nameIs⟩
      rcases List.mem_append.mp isField with inFields | isLast
      · exact Or.inr ⟨other, inFields, nameIs⟩
      · rw [List.mem_singleton.mp isLast] at nameIs
        exact Or.inl nameIs.symm

theorem Field.byName_name (isEntry : entry ∈ Field.byName fields) :
    entry.2 ∈ fields ∧ entry.2.name = entry.1 := by
  induction fields using List.reverseRecOn with
  | nil => simp [Field.byName] at isEntry
  | append_singleton fields field ih =>
    rw [Field.byName_append] at isEntry
    rcases Members.mem_set isEntry with isNew | isOld
    · rw [isNew]
      exact ⟨by simp, rfl⟩
    · obtain ⟨isField, nameIs⟩ := ih isOld
      exact ⟨by simp [isField], nameIs⟩

theorem Field.mem_of_mem_byAlias (isEntry : entry ∈ Field.byAlias fields) : entry.2 ∈ fields := by
  induction fields using List.reverseRecOn with
  | nil => simp [Field.byAlias] at isEntry
  | append_singleton fields field ih =>
    have either : ∀ (aliases : List String) (table : List (String × Field)),
        entry ∈ aliases.foldl (fun table other => Members.set table other field) table →
          entry.2 = field ∨ entry ∈ table := by
      intro aliases
      induction aliases with
      | nil => exact fun table present => Or.inr present
      | cons name rest restHypothesis =>
        intro table present
        rcases restHypothesis _ present with isField | inSet
        · exact Or.inl isField
        · rcases Members.mem_set inSet with isNew | isOld
          · exact Or.inl (by rw [isNew])
          · exact Or.inr isOld
    have split : entry.2 = field ∨ entry ∈ Field.byAlias fields := by
      apply either field.aliases
      simpa [Field.byAlias, List.foldl_append] using isEntry
    rcases split with isField | isOld
    · simp [isField]
    · simp [ih isOld]

/-- The field that is found for a name is one of the reader's, so its own name is among the
names. -/
theorem Field.name_of_find? (found : Field.find? fields name = some field) :
    field.name ∈ Members.keys (Field.byName fields) := by
  apply Field.mem_keys_byName.mpr
  rcases Option.or_eq_some_iff.mp found with underName | ⟨-, underAlias⟩
  · exact ⟨field, (Field.byName_name (Members.mem_of_get? underName)).1, rfl⟩
  · exact ⟨field, Field.mem_of_mem_byAlias (Members.mem_of_get? underAlias), rfl⟩

/-- A name of the reader's is found under itself, not under an alias. -/
theorem Field.find?_of_mem (isName : name ∈ Members.keys (Field.byName fields)) :
    ∃ field, Field.find? fields name = some field ∧ field.name = name := by
  obtain ⟨field, found⟩ := Option.isSome_iff_exists.mp (Members.isSome_get?.mpr isName)
  refine ⟨field, ?_, (Field.byName_name (Members.mem_of_get? found)).2⟩
  rw [Field.find?, found]
  rfl

/-! ### Resolved fields -/

/-- The keys of a record are names of the reader's fields, each once. -/
structure KeysAmong (fields : List Field) (record : List (Datum × Datum)) : Prop where
  distinct : (record.map Prod.fst).Nodup
  among : record.map Prod.fst ⊆ (Members.keys (Field.byName fields)).map Datum.str

theorem KeysAmong.insert {fields : List Field} {record : List (Datum × Datum)}
    (keys : KeysAmong fields record) {name : String}
    (isName : name ∈ Members.keys (Field.byName fields)) (value : Datum) :
    KeysAmong fields (Datum.insert record name value) := by
  refine ⟨Datum.nodup_keys_insert name value keys.distinct, ?_⟩
  intro key present
  rcases Datum.mem_keys_insert.mp present with isNew | isOld
  · rw [isNew]
    exact List.mem_map_of_mem isName
  · exact keys.among isOld

/-- What resolving the fields of a record, one after the other, does to its keys. -/
theorem resolveFields_keys (keys : KeysAmong readerFields record)
    (done : resolveFields readerFields record fields entries = .ok result) :
    KeysAmong readerFields result ∧ record.map Prod.fst ⊆ result.map Prod.fst := by
  induction fields generalizing record entries with
  | nil =>
    rw [resolveFields] at done
    · cases done
      exact ⟨keys, List.Subset.refl _⟩
    · simp
  | cons field rest ih =>
    obtain ⟨name, aliases, default, shape⟩ := field
    cases entries with
    | nil =>
      rw [resolveFields] at done
      · cases done
        exact ⟨keys, List.Subset.refl _⟩
      · simp
    | cons entry others =>
      obtain ⟨key, value⟩ := entry
      rw [resolveFields] at done
      cases found : Field.find? readerFields name with
      | none =>
        rw [found] at done
        exact ih keys done
      | some readerField =>
        rw [found] at done
        cases resolvedIs : resolve shape readerField.shape value with
        | error cause => simp [resolvedIs, bind, Except.bind] at done
        | ok resolved =>
          simp only [resolvedIs, bind, Except.bind] at done
          have inserted := keys.insert (Field.name_of_find? found) resolved
          obtain ⟨resultKeys, kept⟩ := ih inserted done
          refine ⟨resultKeys, ?_⟩
          intro other present
          exact kept (Datum.mem_keys_insert.mpr (Or.inr present))

/-- A field that was written under a name of the reader's has a value in the end. -/
theorem resolveFields_written (keys : KeysAmong readerFields record)
    (lengths : entries.length = fields.length)
    (done : resolveFields readerFields record fields entries = .ok result)
    (isField : field ∈ fields) (isName : field.name ∈ Members.keys (Field.byName readerFields)) :
    (Datum.lookup result field.name).isSome = true := by
  induction fields generalizing record entries with
  | nil => simp at isField
  | cons head rest ih =>
    obtain ⟨name, aliases, default, shape⟩ := head
    cases entries with
    | nil => simp at lengths
    | cons entry others =>
      obtain ⟨key, value⟩ := entry
      have restLengths : others.length = rest.length := by simpa using lengths
      rw [resolveFields] at done
      cases found : Field.find? readerFields name with
      | none =>
        rw [found] at done
        rcases List.mem_cons.mp isField with isHead | inRest
        · subst isHead
          obtain ⟨own, ownFound, -⟩ := Field.find?_of_mem isName
          simp [Field.name, found] at ownFound
        · exact ih keys restLengths done inRest
      | some readerField =>
        rw [found] at done
        cases resolvedIs : resolve shape readerField.shape value with
        | error cause => simp [resolvedIs, bind, Except.bind] at done
        | ok resolved =>
          simp only [resolvedIs, bind, Except.bind] at done
          have inserted := keys.insert (Field.name_of_find? found) resolved
          rcases List.mem_cons.mp isField with isHead | inRest
          · subst isHead
            obtain ⟨own, ownFound, ownName⟩ := Field.find?_of_mem isName
            have sameField : own = readerField := Option.some.inj (ownFound.symm.trans found)
            apply Datum.isSome_lookup.mpr
            apply (resolveFields_keys inserted done).2
            exact Datum.mem_keys_insert.mpr (Or.inl (by rw [← sameField, ownName]))
          · exact ih inserted restLengths done inRest

/-! ### Defaults -/

/-- A record that is not shorter than the list of the reader's names has them all. -/
theorem KeysAmong.complete (keys : KeysAmong fields record)
    (enough : (Field.byName fields).length ≤ record.length)
    (isName : name ∈ Members.keys (Field.byName fields)) :
    (Datum.lookup record name).isSome = true := by
  have within := List.subperm_of_subset keys.distinct keys.among
  have permuted : (record.map Prod.fst).Perm
      ((Members.keys (Field.byName fields)).map Datum.str) := by
    apply within.perm_of_length_le
    simpa [Members.keys] using enough
  apply Datum.isSome_lookup.mpr
  exact permuted.mem_iff.mpr (List.mem_map_of_mem isName)

theorem fillDefaults_complete {table : List (String × Field)}
    (complete : ∀ entry ∈ table, (Datum.lookup record entry.1).isSome = true) :
    fillDefaults record table = .ok record := by
  induction table with
  | nil => rfl
  | cons entry rest ih =>
    obtain ⟨name, field⟩ := entry
    rw [List.forall_mem_cons] at complete
    rw [fillDefaults, if_pos complete.1]
    exact ih complete.2

end Avro
