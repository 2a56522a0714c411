import Avro.Proofs.Defaults
import Avro.Proofs.ParsedShape
import Avro.Proofs.ReadingLevel
import Avro.Proofs.Skip

/-!
Contract: resolution is reading followed by a projection.

Owns: `Projects`, which ties together three ways of reading one value: plainly, with every entry
kept, and by a reader's schema; and the proof that for schemas with shapes the third is the
projection of the second, failures included.
-/

namespace Avro

open Datum (merged mergedEntries mergedItems)
open Decode (readKind readMap readRecord readerPart resolveReader)
open Members (get?)
open Schema (attributeOf itemAt required)

open BinaryInput

variable {α β γ : Type} {outcome : Except Unresolved α} {readerType : Primitive}
  {symbols : List String} {default : Option Json} {index : Decode.FieldIndex}
  {readerFields : List Field}
variable {record : List (Datum × Datum)} {shape readerShape : Shape} {writer reader resolved : Json}
  {project : Datum → Except Unresolved Datum} {value : Datum} {input : BinaryInput}
  {type : Primitive}

/-- The failures that a cause stands for. -/
def Unresolved.Explains : Unresolved → Error → Prop
  | .mismatch, .schemaMismatch _ _ => True
  | .mismatch, .symbolNotFound _ _ => True
  | .mismatch, .noDefault _ => True
  | .notUtf8, .notUtf8 => True
  | .overflow, .overflow => True
  | _, _ => False

/-- A step of reading yields an outcome: the value, and the input after it, or a failure that the
cause explains. -/
def Yields (result : EStateM.Result Error BinaryInput α) (after : BinaryInput) :
    Except Unresolved α → Prop
  | .ok value => result = .ok value after
  | .error cause => ∃ error stopped, result = .error error stopped ∧ cause.Explains error

/-- An outcome agrees with what is expected of it: the same value, or a failure that the cause
explains. -/
def Resolves : Outcome α → Except Unresolved α → Prop
  | .ok value, .ok expected => value = expected
  | .error error, .error cause => cause.Explains error
  | _, _ => False

namespace Yields

variable {first : ReadM BinaryInput α} {next : α → ReadM BinaryInput β}
  {input between stop : BinaryInput}

theorem after {value : α} {outcome : Except Unresolved β} (done : first input = .ok value between)
    (nextYields : Yields (next value between) stop outcome) :
    Yields ((first >>= next) input) stop outcome := by
  rw [step_bind_of_ok done]
  exact nextYields

theorem bind {project : α → Except Unresolved β}
    (firstYields : Yields (first input) between outcome)
    (nextYields : ∀ value, outcome = .ok value → Yields (next value between) stop (project value)) :
    Yields ((first >>= next) input) stop (outcome >>= project) := by
  cases outcome with
  | error cause =>
    obtain ⟨error, stopped, failed, explained⟩ := firstYields
    exact ⟨error, stopped, step_bind_of_error failed, explained⟩
  | ok value => exact after firstYields (nextYields value rfl)

theorem lift {outcome : Outcome α} {expected : Except Unresolved α}
    (resolves : Resolves outcome expected) (input : BinaryInput) :
    Yields (ReadM.lift outcome input) input expected := by
  cases outcome <;> cases expected
  case ok.ok => exact congrArg (EStateM.Result.ok · input) resolves
  case error.error error cause => exact ⟨error, input, rfl, resolves⟩
  all_goals exact resolves.elim

/-- Data that is cut off within a number is no failure of resolution. -/
theorem orTruncated {step : ReadM BinaryInput α} {input stop : BinaryInput} (type : Json)
    (yields : Yields (step input) stop outcome) :
    Yields (Decode.orTruncated type step input) stop outcome := by
  unfold Decode.orTruncated
  cases outcome with
  | ok value =>
    rw [show step input = .ok value stop from yields]
    rfl
  | error cause =>
    obtain ⟨error, stopped, failed, explained⟩ := yields
    rw [failed]
    split
    · rename_i layout
      cases layout
      cases cause <;> exact absurd explained id
    · exact ⟨error, stopped, rfl, explained⟩

theorem pure (value : α) (input : BinaryInput) :
    Yields ((Pure.pure value : ReadM BinaryInput α) input) input (.ok value) :=
  rfl

end Yields

/-- Whenever the plain step succeeds, the entire step reads the whole of which the plain value is
the merged form, and the resolving step yields the projection of the whole. -/
def Projects (plain : ReadM BinaryInput α) (entire : ReadM BinaryInput γ) (merge : γ → α)
    (resolving : ReadM BinaryInput β) (project : γ → Except Unresolved β) : Prop :=
  ∀ input value after, plain input = .ok value after →
    ∃ whole, entire input = .ok whole after ∧ merge whole = value ∧
      Yields (resolving input) after (project whole)

namespace Projects

variable {plain : ReadM BinaryInput α} {entire : ReadM BinaryInput γ} {merge : γ → α}
  {resolving : ReadM BinaryInput β} {project : γ → Except Unresolved β}

section

variable (projects : Projects plain entire merge resolving project)
include projects

theorem times (count : Nat) :
    Projects (BinaryInput.times plain count) (BinaryInput.times entire count) (List.map merge)
      (BinaryInput.times resolving count) (List.mapM project) := by
  induction count with
  | zero =>
    intro input values after done
    obtain ⟨rfl, rfl⟩ := step_pure_ok.mp done
    exact ⟨[], rfl, rfl, rfl⟩
  | succ count ih =>
    intro input values after done
    obtain ⟨value, between, firstDone, done⟩ := step_bind_ok.mp done
    obtain ⟨others, _, othersDone, done⟩ := step_bind_ok.mp done
    obtain ⟨rfl, rfl⟩ := step_pure_ok.mp done
    obtain ⟨whole, wholeDone, rfl, yields⟩ := projects input value between firstDone
    obtain ⟨wholes, wholesDone, rfl, othersYield⟩ := ih between others _ othersDone
    refine ⟨whole :: wholes, ?_, rfl, ?_⟩
    · refine step_bind_ok.mpr ⟨whole, between, wholeDone, ?_⟩
      exact step_bind_ok.mpr ⟨wholes, _, wholesDone, rfl⟩
    · rw [List.mapM_cons]
      apply yields.bind
      intro resolved _
      apply othersYield.bind
      intro resolvedOthers _
      exact Yields.pure _ _

theorem readBlocks (fuel : Nat) :
    Projects (BinaryInput.readBlocks plain fuel) (BinaryInput.readBlocks entire fuel)
      (List.map merge)
      (BinaryInput.readBlocks resolving fuel) (List.mapM project) := by
  induction fuel with
  | zero =>
    intro input values after done
    simp [BinaryInput.readBlocks] at done
  | succ fuel ih =>
    intro input values after done
    obtain ⟨count, opened, openedDone, done⟩ := step_bind_ok.mp done
    by_cases isLast : count = 0
    · rw [if_pos isLast] at done
      obtain ⟨rfl, rfl⟩ := step_pure_ok.mp done
      refine ⟨[], ?_, rfl, ?_⟩
      · refine step_bind_ok.mpr ⟨count, _, openedDone, ?_⟩
        rw [if_pos isLast]
        rfl
      · apply Yields.after openedDone
        rw [if_pos isLast]
        rfl
    · rw [if_neg isLast] at done
      obtain ⟨items, between, itemsDone, done⟩ := step_bind_ok.mp done
      obtain ⟨_, counted, countedDone, done⟩ := step_bind_ok.mp done
      obtain ⟨others, _, othersDone, done⟩ := step_bind_ok.mp done
      obtain ⟨rfl, rfl⟩ := step_pure_ok.mp done
      obtain ⟨wholes, wholesDone, rfl, yields⟩ :=
        projects.times count opened items between itemsDone
      obtain ⟨moreWholes, moreDone, rfl, moreYield⟩ := ih counted others _ othersDone
      refine ⟨wholes ++ moreWholes, ?_, by simp, ?_⟩
      · refine step_bind_ok.mpr ⟨count, _, openedDone, ?_⟩
        rw [if_neg isLast]
        refine step_bind_ok.mpr ⟨wholes, _, wholesDone, ?_⟩
        refine step_bind_ok.mpr ⟨(), _, countedDone, ?_⟩
        exact step_bind_ok.mpr ⟨moreWholes, _, moreDone, rfl⟩
      · apply Yields.after openedDone
        rw [if_neg isLast, List.mapM_append]
        apply yields.bind
        intro resolved _
        apply Yields.after countedDone
        apply moreYield.bind
        intro resolvedOthers _
        exact Yields.pure _ _

theorem readCollection :
    Projects (BinaryInput.readCollection plain) (BinaryInput.readCollection entire) (List.map merge)
      (BinaryInput.readCollection resolving) (List.mapM project) := by
  intro input values after done
  exact projects.readBlocks _ input values after done

end

end Projects

/-! ### Defaults -/

private theorem fillDefaults_resolves {table : List (Json × Json)} {fields : List (String × Field)}
    (describes : DescribesTable table fields) {written : List Json}
    (writtenPresent : ∀ entry ∈ fields, written.any (Json.str entry.1).same = true →
      (Datum.lookup record entry.1).isSome = true) :
    Resolves (Decode.fillDefaults written record table) (fillDefaults record fields) := by
  induction describes generalizing record with
  | nil => rfl
  | @cons entry other table fields head rest ih =>
    obtain ⟨key, node⟩ := entry
    obtain ⟨name, field⟩ := other
    obtain ⟨keyIs, nodeDescribes⟩ := head
    dsimp only at keyIs nodeDescribes
    subst keyIs
    rw [List.forall_mem_cons] at writtenPresent
    rw [Decode.fillDefaults, fillDefaults, hasField_str]
    by_cases present : (Datum.lookup record name).isSome = true
    · rw [if_pos present, if_pos (by simp [present])]
      exact ih writtenPresent.2
    · have unwritten : ¬ written.any (Json.str name).same = true :=
        fun isWritten => present (writtenPresent.1 isWritten)
      rw [if_neg present,
        if_neg (by simp only [Bool.or_eq_true, not_or]; exact ⟨unwritten, present⟩),
        nodeDescribes.defaultIs]
      cases field.default with
      | none => exact True.intro
      | some value =>
        apply ih
        intro later isLater isWritten
        apply Datum.isSome_lookup.mpr
        apply Datum.mem_keys_insert.mpr
        exact Or.inr (Datum.isSome_lookup.mp (writtenPresent.2 later isLater isWritten))

/-! ### What a reader's schema asks for -/

/-- What is asked of a value of the writer's schema: nothing, by no schema or an equal one, or the
reader's shape. -/
inductive Asks (writer : Json) (shape : Shape) : Json →
    (Datum → Except Unresolved Datum) → Prop where
  | plain : Asks writer shape .null fun whole => .ok whole.merged
  | equal {reader : Json} {readerShape : Shape} (readerShaped : HasShape reader readerShape)
      (same : writer.same reader = true) : Asks writer shape .null (resolve shape readerShape)
  | resolved {reader : Json} {readerShape : Shape} (readerShaped : HasShape reader readerShape) :
      Asks writer shape reader (resolve shape readerShape)

/-- What is still asked once the schemas have been compared. -/
inductive Settled (writer : Json) (shape : Shape) : Json →
    (Datum → Except Unresolved Datum) → Prop where
  | plain : Settled writer shape .null fun whole => .ok whole.merged
  | equal {reader : Json} {readerShape : Shape} (readerShaped : HasShape reader readerShape)
      (same : writer.same reader = true) : Settled writer shape .null (resolve shape readerShape)
  | matched {reader : Json} {readerShape : Shape} (readerShaped : HasShape reader readerShape)
      (different : writer.same reader = false) (matching : shape.matches readerShape = true) :
      Settled writer shape reader (resolve shape readerShape)

/-- What is asked is the plain value, or the projection to a shape that matches. -/
theorem Settled.plain_or_matches (shaped : HasShape writer shape)
    (settled : Settled writer shape resolved project) :
    (resolved = .null ∧ project = fun whole => .ok whole.merged) ∨
      ∃ reader readerShape, HasShape reader readerShape ∧ shape.matches readerShape = true ∧
        project = resolve shape readerShape ∧
        (resolved = .null ∧ writer.same reader = true ∨
          resolved = reader ∧ writer.same reader = false) := by
  cases settled with
  | plain => exact Or.inl ⟨rfl, rfl⟩
  | equal readerShaped same =>
    exact Or.inr ⟨_, _, readerShaped, shaped.matches_of_same readerShaped same, rfl,
      Or.inl ⟨rfl, same⟩⟩
  | matched readerShaped different matching =>
    exact Or.inr ⟨_, _, readerShaped, matching, rfl, Or.inr ⟨rfl, different⟩⟩

/-- Shapes that do not match have nothing to project, unless the schemas are equal. -/
theorem resolve_of_mismatch (writerShaped : HasShape writer shape)
    (readerShaped : HasShape reader readerShape) (different : writer.same reader = false)
    (mismatch : shape.matches readerShape = false) (whole : Datum) :
    resolve shape readerShape whole = .error .mismatch := by
  cases writerShaped <;> cases readerShaped <;> rw [Shape.matches] at mismatch
  case record.record => cases whole <;> simp [resolve, different, mismatch]
  case array.array | map.map => cases whole <;> simp [resolve, mismatch]
  all_goals simp_all [resolve]

/-- Comparing the schemas settles what is asked, or finds that nothing can be projected. -/
theorem Asks.settle (writerShaped : HasShape writer shape)
    (asks : Asks writer shape reader project) :
    (∃ resolved, resolveReader writer reader = .ok resolved ∧
      Settled writer shape resolved project) ∨
      (∃ error, resolveReader writer reader = .error error ∧ Unresolved.mismatch.Explains error ∧
        ∀ whole, project whole = .error .mismatch) := by
  cases asks with
  | plain => exact Or.inl ⟨.null, rfl, Settled.plain⟩
  | equal readerShaped same => exact Or.inl ⟨.null, rfl, Settled.equal readerShaped same⟩
  | @resolved _ readerShape readerShaped =>
    rw [resolveReader, if_neg (by simp [readerShaped.truthy])]
    cases same : writer.same reader with
    | true =>
      rw [if_pos rfl]
      exact Or.inl ⟨.null, rfl, Settled.equal readerShaped same⟩
    | false =>
      rw [if_neg Bool.false_ne_true, matchSchemas_shapes writerShaped readerShaped]
      cases matching : shape.matches readerShape with
      | true => exact Or.inl ⟨reader, rfl, Settled.matched readerShaped same matching⟩
      | false =>
        refine Or.inr ⟨.schemaMismatch writer reader, rfl, True.intro, ?_⟩
        exact resolve_of_mismatch writerShaped readerShaped same matching

/-! ### After reading -/

theorem finish_plain (shaped : HasShape writer shape) (type : Json) (datum : Datum) :
    Decode.finish writer .null type datum = .ok datum := by
  rw [Decode.finish, shaped.mentions]
  rfl

theorem finish_matched (shaped : HasShape writer shape) (readerShaped : HasShape reader readerShape)
    (type : Json) (datum : Datum) :
    Decode.finish writer reader type datum =
      Resolution.promote datum type (.str readerShape.word) := by
  have typeIs := readerShaped.node.typeOf
  rw [Decode.finish, shaped.mentions]
  cases readerShaped.node with
  | word => rfl
  | object found =>
    show (Schema.typeOf _ >>= fun readerType => Resolution.promote datum type readerType) = _
    rw [typeIs]
    rfl

private theorem finish_settled (shaped : HasShape writer shape)
    (settled : Settled writer shape resolved project)
    (kept : ∀ datum readerType, Resolution.promote datum (.str shape.word) readerType = .ok datum)
    (datum : Datum) : Decode.finish writer resolved (.str shape.word) datum = .ok datum := by
  cases settled with
  | plain => exact finish_plain shaped _ datum
  | equal _ _ => exact finish_plain shaped _ datum
  | matched readerShaped _ _ =>
    rw [finish_matched shaped readerShaped]
    exact kept datum _

/-- What follows the reading of a value of a built-in kind. -/
def finished (writer reader type : Json) (step : ReadM BinaryInput Datum) :
    ReadM BinaryInput Datum := do
  let datum ← Decode.orTruncated type step
  ReadM.lift (Decode.finish writer reader type datum)

theorem finished_ok {type : Json} {step : ReadM BinaryInput Datum} {after : BinaryInput}
    (keeps : ∀ datum, Decode.finish writer reader type datum = .ok datum)
    (done : finished writer reader type step input = .ok value after) :
    step input = .ok value after := by
  obtain ⟨datum, between, stepDone, finishDone⟩ := step_bind_ok.mp done
  obtain ⟨finishIs, rfl⟩ := readLift_ok.mp finishDone
  rw [keeps] at finishIs
  cases finishIs
  unfold Decode.orTruncated at stepDone
  split at stepDone
  · simp at stepDone
  · exact stepDone

theorem Projects.finished {plain resolving : ReadM BinaryInput Datum}
    {entire : ReadM BinaryInput Datum} {project : Datum → Except Unresolved Datum}
    {writer resolved type : Json} (projects : Projects plain entire merged resolving project)
    (plainKeeps : ∀ datum, Decode.finish writer .null type datum = .ok datum)
    (keeps : ∀ datum, Decode.finish writer resolved type datum = .ok datum) :
    Projects (Avro.finished writer .null type plain) entire merged
      (Avro.finished writer resolved type resolving)
      project := by
  intro input value after done
  obtain ⟨whole, wholeDone, mergedIs, yields⟩ :=
    projects input value after (finished_ok plainKeeps done)
  refine ⟨whole, wholeDone, mergedIs, ?_⟩
  have kept : project whole = project whole >>= fun resolved => .ok resolved := by
    cases project whole <;> rfl
  rw [kept]
  apply (yields.orTruncated type).bind
  intro resolved _
  rw [keeps]
  rfl

/-! ### Primitive values -/

/-- What kind of value a primitive type reads, as far as promotion depends on it. -/
def Primitive.Holds : Primitive → Datum → Prop
  | .int, datum | .long, datum => ∃ value, datum = .int value
  | .string, datum => ∃ text, datum = .str text
  | .bytes, datum => ∃ content, datum = .bytes content
  | _, datum => datum.merged = datum

theorem Primitive.holds_of_read {after : BinaryInput} (done : type.read input = .ok value after) :
    type.Holds value := by
  cases type with
  | null =>
    obtain ⟨rfl, -⟩ := step_pure_ok.mp done
    rfl
  | string =>
    obtain ⟨content, between, -, done⟩ := step_bind_ok.mp done
    cases decoded : Text.decodeUtf8? content with
    | none => simp [decoded] at done
    | some text =>
      rw [decoded] at done
      obtain ⟨rfl, -⟩ := step_pure_ok.mp done
      exact ⟨text, rfl⟩
  | int | long =>
    obtain ⟨number, between, -, done⟩ := step_bind_ok.mp done
    obtain ⟨rfl, -⟩ := step_pure_ok.mp done
    exact ⟨number, rfl⟩
  | bytes =>
    obtain ⟨content, between, -, done⟩ := step_bind_ok.mp done
    obtain ⟨rfl, -⟩ := step_pure_ok.mp done
    exact ⟨content, rfl⟩
  | _ =>
    obtain ⟨number, between, -, done⟩ := step_bind_ok.mp done
    obtain ⟨rfl, -⟩ := step_pure_ok.mp done
    rfl

theorem Primitive.merged_of_holds (holds : type.Holds value) : value.merged = value := by
  cases type with
  | int | long | string | bytes =>
    obtain ⟨_, rfl⟩ := holds
    rfl
  | _ => exact holds

private theorem promoteInteger_resolves (number : Int) :
    Resolves (Resolution.numberOfInteger number) (promoteInteger (.int number)) := by
  unfold Resolution.numberOfInteger promoteInteger
  dsimp only
  cases Double.ofInt? number with
  | none => exact True.intro
  | some converted => rfl

theorem Primitive.promote_self (value : Datum) : type.promote type value = .ok value := by
  cases type <;> cases value <;> rfl

/-- The pairs of different types that match are those of a promotion. -/
theorem Primitive.eq_or_promotion (matching : type.matches readerType = true) :
    type = readerType ∨ (type, readerType) ∈
      [(.int, .long), (.float, .double), (.string, .bytes), (.bytes, .string),
      (.int, .float), (.int, .double), (.long, .float), (.long, .double)] := by
  revert matching
  cases type <;> cases readerType <;> decide

theorem Primitive.promote_resolves (holds : type.Holds value)
    (matching : type.matches readerType = true) :
    Resolves (Resolution.promote value (.str type.word) (.str readerType.word))
      (type.promote readerType value) := by
  rcases eq_or_promotion matching with rfl | promotion
  · rw [promote_self]
    cases type <;> rfl
  · simp only [List.mem_cons, Prod.mk.injEq, List.not_mem_nil, or_false] at promotion
    rcases promotion with ⟨rfl, rfl⟩ | ⟨rfl, rfl⟩ | ⟨rfl, rfl⟩ | ⟨rfl, rfl⟩ | ⟨rfl, rfl⟩ |
      ⟨rfl, rfl⟩ | ⟨rfl, rfl⟩ | ⟨rfl, rfl⟩
    · rfl
    · rfl
    · obtain ⟨text, rfl⟩ := holds
      rfl
    · obtain ⟨content, rfl⟩ := holds
      simp only [Resolution.promote, Primitive.promote, Primitive.word, Datum.byteContent?]
      cases Text.decodeUtf8? content with
      | none => exact True.intro
      | some text => rfl
    all_goals
      obtain ⟨number, rfl⟩ := holds
      exact promoteInteger_resolves number

theorem Primitive.eq_of_word (words : shape.word = type.word) : shape = .primitive type := by
  cases shape with
  | primitive other =>
    have equal : other = type := by
      rw [Shape.word] at words
      revert words
      cases other <;> cases type <;> decide
    rw [equal]
  | record schema isError fields =>
    cases isError <;> cases type <;> simp [Shape.word, Primitive.word] at words
  | _ => cases type <;> simp [Shape.word, Primitive.word] at words

/-- A primitive value is read the same way for every reader, and promoted afterwards. -/
theorem primitive_projects (shaped : HasShape writer (.primitive type))
    (settled : Settled writer (.primitive type) resolved project) :
    Projects (finished writer .null (.str type.word) type.read) type.read merged
      (finished writer resolved (.str type.word) type.read) project := by
  intro input value after done
  have readDone := finished_ok (finish_plain shaped (.str type.word)) done
  have holds := Primitive.holds_of_read readDone
  have mergedIs := Primitive.merged_of_holds holds
  refine ⟨value, readDone, mergedIs, ?_⟩
  have truncated : Decode.orTruncated (.str type.word) type.read input = .ok value after := by
    rw [Decode.orTruncated, readDone]
  apply Yields.after truncated
  cases settled with
  | plain =>
    show Yields _ after (.ok value.merged)
    rw [finish_plain shaped, mergedIs]
    rfl
  | @equal reader readerShape readerShaped same =>
    have readerIs := Primitive.eq_of_word (shaped.word_of_same readerShaped same)
    have matching := shaped.matches_of_same readerShaped same
    rw [readerIs, Shape.matches] at matching
    rw [finish_plain shaped, readerIs, resolve, if_pos matching, Primitive.promote_self]
    rfl
  | @matched _ readerShape readerShaped _ matching =>
    rw [finish_matched shaped readerShaped]
    apply Yields.lift
    cases readerShape with
    | primitive readerType =>
      rw [Shape.matches] at matching
      rw [resolve, if_pos matching]
      exact Primitive.promote_resolves holds matching
    | _ => simp [Shape.matches] at matching

/-! ### Fixed values and symbols -/

private theorem fixed_projects {size : Int} (shaped : HasShape writer (.fixed size))
    (settled : Settled writer (.fixed size) resolved project) :
    Projects (Source.readFixed (.int size)) (Source.readFixed (.int size)) merged
      (Source.readFixed (.int size))
      project := by
  intro input value after done
  obtain ⟨content, between, -, valueDone⟩ := step_bind_ok.mp done
  obtain ⟨rfl, rfl⟩ := step_pure_ok.mp valueDone
  refine ⟨.bytes content, done, rfl, ?_⟩
  have kept : project (.bytes content) = .ok (.bytes content) := by
    rcases settled.plain_or_matches shaped with ⟨-, rfl⟩ | ⟨_, readerShape, -, matching, rfl, -⟩
    · rfl
    · cases readerShape with
      | fixed _ => rw [resolve]
      | _ => simp [Shape.matches] at matching
  rw [kept]
  exact done

private theorem documentItemAt_texts (symbols : List String) (index : Int) :
    Schema.documentItemAt (.arr (symbols.map .str)) index =
      (itemAt symbols index).map Json.str := by
  unfold Schema.documentItemAt itemAt
  simp only [List.length_map, List.getElem?_map]
  generalize (if index < 0 then index + (symbols.length : Int) else index) = place
  split
  · rfl
  · cases symbols[place.toNat]? <;> rfl

private theorem any_same_texts (symbols : List String) (symbol : String) :
    ((symbols.map Json.str).any fun item => (Json.str symbol).same item) =
      symbols.contains symbol := by
  induction symbols with
  | nil => rfl
  | cons head rest ih =>
    rw [List.map_cons, List.any_cons, ih, List.contains_cons, Json.same]

private theorem resolveSymbol_resolves (readerShaped : HasShape reader (.enum symbols default))
    (symbol : String) :
    Resolves (Decode.resolveSymbol (.str symbol) reader)
      (resolveSymbol symbols default symbol) := by
  have isTruthy := readerShaped.truthy
  cases readerShaped with
  | @enum members _ typeIs plain symbolsAre =>
    have symbolsFound : attributeOf (.obj members) "symbols" = .ok (.arr (symbols.map .str)) := by
      rw [attributeOf, required, symbolsAre]
    rw [Decode.resolveSymbol, if_neg (by simp [isTruthy]), symbolsFound, outcome_ok_bind]
    dsimp only
    rw [any_same_texts]
    unfold resolveSymbol
    cases symbols.contains symbol with
    | true => rfl
    | false =>
      have defaultIs : (Json.obj members).get? "default" = get? members "default" := rfl
      rw [defaultIs]
      simp only [Bool.false_eq_true, if_false, pure_bind]
      cases get? members "default" with
      | none => exact True.intro
      | some value =>
        cases isDefault : value.truthy <;>
          simp [isDefault, Resolves, Unresolved.Explains, pure, Except.pure,
          throw, throwThe, MonadExceptOf.throw]

section Level

variable {registry : Registry} {read : Decode.Reader BinaryInput}
  {skip : Json → ReadM BinaryInput Unit} {named : Bool} {writer resolved : Json}
  {project : Datum → Except Unresolved Datum}

variable {node : Json} {writerMembers : Members} {fields : List Field} {nodes : List Json}

private theorem enum_projects (shaped : HasShape writer (.enum symbols default))
    (settled : Settled writer (.enum symbols default) resolved project) :
    Projects (readKind registry read skip writer .null named .enum)
      (Shape.enum symbols default).readEntire
      merged (readKind registry read skip writer resolved named .enum) project := by
  intro input value after done
  have symbolsFound : attributeOf writer "symbols" = .ok (.arr (symbols.map .str)) := by
    cases shaped with
    | enum _ _ symbolsAre => rw [attributeOf, required, symbolsAre]
  simp only [readKind, symbolsFound, readLift_ok_bind] at done ⊢
  obtain ⟨index, between, indexDone, done⟩ := step_bind_ok.mp done
  obtain ⟨item, itemIs, done⟩ := readLift_bind_ok.mp done
  obtain ⟨valueIs, rfl⟩ := readLift_ok.mp done
  have found := itemIs
  rw [documentItemAt_texts] at found
  obtain ⟨symbol, symbolIs, rfl⟩ := outcome_map_ok.mp found
  cases valueIs
  refine ⟨.str symbol, ?_, rfl, ?_⟩
  · rw [Shape.readEntire]
    refine step_bind_ok.mpr ⟨index, _, indexDone, ?_⟩
    exact readLift_bind_ok.mpr ⟨symbol, symbolIs, rfl⟩
  · apply Yields.after indexDone
    apply Yields.after (readLift_ok.mpr ⟨itemIs, rfl⟩)
    apply Yields.lift
    cases settled with
    | plain => rfl
    | @equal reader readerShape readerShaped same =>
      -- An equal schema has the same symbols, so the symbol is known to it.
      have matching := shaped.matches_of_same readerShaped same
      cases readerShape with
      | enum readerSymbols readerDefault =>
        have sameSymbols : readerSymbols = symbols := by
          cases shaped with
          | enum _ _ symbolsAre =>
            cases readerShaped with
            | enum _ _ readerSymbolsAre =>
              obtain ⟨other, otherIs, itemsSame⟩ := Json.get?_of_same same symbolsAre
              rw [Json.get?, readerSymbolsAre] at otherIs
              cases otherIs
              rw [Json.same] at itemsSame
              exact List.map_injective_iff.mpr (fun _ _ equal => Json.str.inj equal)
                (Json.eq_of_sameItems_str itemsSame)
        have isKnown : readerSymbols.contains symbol = true := by
          rw [sameSymbols, List.contains_iff_mem]
          exact mem_of_itemAt symbolIs
        rw [resolve]
        unfold resolveSymbol
        rw [if_pos isKnown]
        rfl
      | _ => simp [Shape.matches] at matching
    | @matched _ readerShape readerShaped _ matching =>
      cases readerShape with
      | enum readerSymbols readerDefault =>
        rw [resolve]
        exact resolveSymbol_resolves readerShaped symbol
      | _ => simp [Shape.matches] at matching

/-! ### Collections -/

private theorem mergedItems_eq_map (items : List Datum) : mergedItems items = items.map merged := by
  induction items with
  | nil => rfl
  | cons item rest ih => rw [mergedItems, ih, List.map_cons]

private theorem mergedEntries_eq_map (entries : List (Datum × Datum)) :
    mergedEntries entries = entries.map fun entry => (entry.1, entry.2.merged) := by
  induction entries with
  | nil => rfl
  | cons entry rest ih => rw [mergedEntries, ih, List.map_cons]

theorem mapM_ok_map (change : α → β) (items : List α) :
    (items.mapM fun item => (.ok (change item) : Except Unresolved β)) =
      .ok (items.map change) := by
  rw [mapM_ok, List.forall₂_map_right_iff, List.forall₂_same]
  exact fun _ _ => rfl

theorem readerPart_null (key : String) : readerPart .null key = .ok .null := rfl

/-- What is asked of the parts of a collection. -/
theorem Settled.part {key : String} {part : Shape} {form : Shape → Shape}
    (shaped : HasShape (.obj writerMembers) (form part))
    (partIs : get? writerMembers key = some node)
    (readerHas : ∀ {reader readerShape}, HasShape reader readerShape →
      (form part).matches readerShape = true →
      ∃ members node part, reader = .obj members ∧ readerShape = form part ∧
        get? members key = some node ∧ HasShape node part)
    (settled : Settled (.obj writerMembers) (form part) resolved project) :
    ∃ readerNode partProject, readerPart resolved key = .ok readerNode ∧
      Asks node part readerNode partProject ∧
      ((project = fun whole => .ok whole.merged) ∧ (partProject = fun whole => .ok whole.merged) ∨
        ∃ readerPart, (form part).matches (form readerPart) = true ∧
          project = resolve (form part) (form readerPart) ∧
          partProject = resolve part readerPart) := by
  rcases settled.plain_or_matches shaped with ⟨rfl, rfl⟩ |
    ⟨reader, readerShape, readerShaped, matching, rfl, resolvedIs⟩
  · exact ⟨.null, _, rfl, Asks.plain, Or.inl ⟨rfl, rfl⟩⟩
  · have isTruthy := readerShaped.truthy
    obtain ⟨members, readerNode, part, rfl, rfl, readerPartIs, readerInner⟩ :=
      readerHas readerShaped matching
    rcases resolvedIs with ⟨rfl, same⟩ | ⟨rfl, -⟩
    · obtain ⟨other, otherIs, partsSame⟩ := Json.get?_of_same same partIs
      rw [Json.get?, readerPartIs] at otherIs
      cases otherIs
      exact ⟨.null, _, rfl, Asks.equal readerInner partsSame, Or.inr ⟨part, matching, rfl, rfl⟩⟩
    · refine ⟨readerNode, _, ?_, Asks.resolved readerInner, Or.inr ⟨part, matching, rfl, rfl⟩⟩
      rw [readerPart, if_pos isTruthy, attributeOf, required, readerPartIs]

/-- A collection is projected if its parts are. -/
theorem collection_projects {plain entire resolving : ReadM BinaryInput α} {merge : α → α}
    {part : α → Except Unresolved α}
    (wrap close : List α → Datum) (projects : Projects plain entire merge resolving part)
    (merges : ∀ wholes, (wrap wholes).merged = close (wholes.map merge))
    (projectIs : ∀ wholes, project (wrap wholes) =
      (wholes.mapM part >>= fun values => .ok (close values))) :
    Projects (readBlockCount >>= fun _ => readCollection plain >>= fun items => pure () >>= fun _ =>
      pure (close items))
      (readBlockCount >>= fun _ => readCollection entire >>= fun items => pure (wrap items)) merged
      (readBlockCount >>= fun _ => readCollection resolving >>= fun items => pure () >>= fun _ =>
        pure (close items))
      project := by
  intro input value after done
  obtain ⟨_, counted, countDone, done⟩ := step_bind_ok.mp done
  obtain ⟨items, between, itemsDone, done⟩ := step_bind_ok.mp done
  obtain ⟨rfl, rfl⟩ := step_pure_ok.mp done
  obtain ⟨wholes, wholesDone, rfl, yields⟩ := projects.readCollection counted items _ itemsDone
  refine ⟨wrap wholes, ?_, merges wholes, ?_⟩
  · refine step_bind_ok.mpr ⟨(), _, countDone, ?_⟩
    exact step_bind_ok.mpr ⟨wholes, _, wholesDone, rfl⟩
  · rw [projectIs]
    apply Yields.after countDone
    exact yields.bind fun values _ => rfl

/-- The parts of a value are projected, one level below. -/
def ProjectsAsked (read : Decode.Reader BinaryInput) (named : Bool) : Prop :=
  ∀ ⦃writer : Json⦄ ⦃shape : Shape⦄ ⦃reader : Json⦄ ⦃project : Datum → Except Unresolved Datum⦄,
    HasShape writer shape → Asks writer shape reader project →
      Projects (read writer .null named) shape.readEntire merged (read writer reader named) project

private theorem array_projects {items : Shape} (below : ProjectsAsked read named)
    (shaped : HasShape (.obj writerMembers) (.array items))
    (itemsAre : get? writerMembers "items" = some node) (inner : HasShape node items)
    (settled : Settled (.obj writerMembers) (.array items) resolved project) :
    Projects (Decode.readArray read (.obj writerMembers) .null named)
      (Shape.array items).readEntire merged
      (Decode.readArray read (.obj writerMembers) resolved named) project := by
  obtain ⟨readerItem, itemProject, partIs, asks, projectIs⟩ :=
    settled.part shaped itemsAre fun readerShaped matching => by
    cases readerShaped with
    | array _ _ itemsAre inner => exact ⟨_, _, _, rfl, rfl, itemsAre, inner⟩
    | _ => simp [Shape.matches] at matching
  have itemsFound : attributeOf (.obj writerMembers) "items" = .ok node := by
    rw [attributeOf, required, itemsAre]
  simp only [Decode.readArray, Shape.readEntire, itemsFound, partIs, readerPart_null,
    readLift_ok_bind]
  refine collection_projects .list .list (below inner asks)
    (fun wholes => by rw [merged, mergedItems_eq_map]) ?_
  intro wholes
  rcases projectIs with ⟨rfl, rfl⟩ | ⟨readerItems, matching, rfl, rfl⟩
  · rw [mapM_ok_map, ← mergedItems_eq_map]
    rfl
  · rw [Shape.matches] at matching
    rw [resolve, if_pos matching]
    rfl

private theorem map_projects {values : Shape} (below : ProjectsAsked read named)
    (shaped : HasShape (.obj writerMembers) (.map values))
    (valuesAre : get? writerMembers "values" = some node) (inner : HasShape node values)
    (settled : Settled (.obj writerMembers) (.map values) resolved project) :
    Projects (readMap read (.obj writerMembers) .null named) (Shape.map values).readEntire merged
      (readMap read (.obj writerMembers) resolved named) project := by
  obtain ⟨readerValue, valueProject, partIs, asks, projectIs⟩ :=
    settled.part shaped valuesAre fun readerShaped matching => by
    cases readerShaped with
    | map _ _ valuesAre inner => exact ⟨_, _, _, rfl, rfl, valuesAre, inner⟩
    | _ => simp [Shape.matches] at matching
  have valuesFound : attributeOf (.obj writerMembers) "values" = .ok node := by
    rw [attributeOf, required, valuesAre]
  -- An entry is its key, which no reader changes, and its value.
  have entry : Projects (do let key ← Source.readText; return (key, ← read node .null named))
      (do let key ← Source.readText; return (key, ← values.readEntire))
      (fun entry : Datum × Datum => (entry.1, entry.2.merged))
      (do let key ← Source.readText; return (key, ← read node readerValue named))
      (fun entry => valueProject entry.2 >>= fun value => .ok (entry.1, value)) := by
    intro input pair after done
    obtain ⟨key, between, keyDone, done⟩ := step_bind_ok.mp done
    obtain ⟨value, _, valueDone, done⟩ := step_bind_ok.mp done
    obtain ⟨rfl, rfl⟩ := step_pure_ok.mp done
    obtain ⟨whole, wholeDone, rfl, yields⟩ := below inner asks between value _ valueDone
    refine ⟨(key, whole), ?_, rfl, ?_⟩
    · refine step_bind_ok.mpr ⟨key, _, keyDone, ?_⟩
      exact step_bind_ok.mpr ⟨whole, _, wholeDone, rfl⟩
    · apply Yields.after keyDone
      exact yields.bind fun resolvedValue _ => rfl
  simp only [readMap, Shape.readEntire, valuesFound, partIs, readerPart_null, readLift_ok_bind]
  refine collection_projects .dict
    (fun entries => .dict (entries.foldl Decode.insertEntry [])) entry
    (fun wholes => by rw [merged, mergedEntries_eq_map]) ?_
  intro wholes
  rcases projectIs with ⟨rfl, rfl⟩ | ⟨readerValues, matching, rfl, rfl⟩
  · have merging := mapM_ok_map (fun entry : Datum × Datum => (entry.1, entry.2.merged)) wholes
    rw [← mergedEntries_eq_map] at merging
    exact (congrArg (· >>= fun entries => .ok (Datum.dict (entries.foldl Decode.insertEntry [])))
      merging).symm
  · rw [Shape.matches] at matching
    rw [resolve, if_pos matching]
    rfl

/-! ### Records -/

/-- The fields of a record, one after the other: all are read, and those that the reader knows are
projected. -/
theorem fields_project (below : ProjectsAsked read named)
    (ends : ∀ writer, EndsAs (read writer .null named) (skip writer)) {fields : List Field}
    (names : DescribesTable index.byName (Field.byName readerFields))
    (aliases : DescribesTable index.byAlias (Field.byAlias readerFields)) {nodes : List Json}
    (shaped : HaveShapes nodes fields) {start plain : List (Datum × Datum)}
    {input after : BinaryInput}
    (done : Decode.readFields read named start nodes input = .ok plain after) :
    ∃ wholes, Field.readAll fields input = .ok wholes after ∧
      plain = (mergedEntries wholes).foldl Decode.insertEntry start ∧
      wholes.length = fields.length ∧
      ∀ record, Yields (Decode.readResolvedFields read skip named index record nodes input) after
        (resolveFields readerFields record fields wholes) := by
  induction fields generalizing nodes start input with
  | nil =>
    cases shaped
    obtain ⟨rfl, rfl⟩ := step_pure_ok.mp done
    refine ⟨[], rfl, rfl, rfl, ?_⟩
    intro record
    rw [resolveFields]
    · rfl
    · simp
  | cons field others ih =>
    cases shaped with
    | @cons members node rest name fieldAliases shape _ nameIs aliasesAre typeIs inner restShaped =>
      have typeFound : attributeOf (.obj members) "type" = .ok node := by
        rw [attributeOf, required, typeIs]
      have keyIs : Decode.fieldKey (.obj members) = .ok (.str name) := by
        rw [Decode.fieldKey, attributeOf, required, nameIs]
        rfl
      rw [Decode.readFields, typeFound, readLift_ok_bind, keyIs] at done
      obtain ⟨value, between, valueDone, done⟩ := step_bind_ok.mp done
      rw [readLift_ok_bind] at done
      obtain ⟨wholes, wholesDone, plainIs, lengths, othersYield⟩ := ih restShaped done
      obtain ⟨whole, wholeDone, mergedIs, _⟩ := below inner Asks.plain input value between valueDone
      refine ⟨(.str name, whole) :: wholes, ?_, ?_, by simp [lengths], ?_⟩
      · rw [Field.readAll]
        refine step_bind_ok.mpr ⟨whole, _, wholeDone, ?_⟩
        exact step_bind_ok.mpr ⟨wholes, _, wholesDone, rfl⟩
      · rw [mergedEntries, mergedIs, List.foldl_cons]
        exact plainIs
      · intro record
        have found := find?_describes names aliases name
        rw [Decode.readResolvedFields, keyIs, readLift_ok_bind, resolveFields]
        generalize index.find? (.str name) = readerNode at found ⊢
        generalize Field.find? readerFields name = readerField at found ⊢
        cases found with
        | none =>
          -- The reader does not know the field, and passing it over ends where reading it ends.
          obtain ⟨_, skipped⟩ := ends node input value between valueDone
          rw [typeFound, readLift_ok_bind]
          exact Yields.after skipped (othersYield record)
        | @some readerNode readerField describes =>
          obtain ⟨child, childFound, childShaped⟩ := describes.typeIs
          obtain ⟨again, againDone, -, yields⟩ :=
            below inner (Asks.resolved childShaped) input value between valueDone
          rw [wholeDone] at againDone
          cases againDone
          rw [Option.filter_some, if_pos describes.truthy]
          simp only [typeFound, childFound, describes.nameIs, readLift_ok_bind]
          apply yields.bind
          intro resolvedValue _
          exact othersYield _

theorem HaveShapes.names (shaped : HaveShapes nodes fields) :
    (nodes.mapM fun node => attributeOf node "name") =
      .ok (fields.map fun field => .str field.name) := by
  induction fields generalizing nodes with
  | nil =>
    cases shaped
    rfl
  | cons field rest ih =>
    cases shaped with
    | cons nameIs aliasesAre typeIs inner others =>
      rw [List.mapM_cons, attributeOf, required, nameIs, ih others]
      rfl

/-- The test of the length before the defaults, and the list of written names, do not change what is
filled in. -/
theorem defaults_yield {wholes record : List (Datum × Datum)}
    (names : DescribesTable index.byName (Field.byName readerFields))
    (shaped : HaveShapes nodes fields) (lengths : wholes.length = fields.length)
    (resolvedIs : resolveFields readerFields [] fields wholes = .ok record) (input : BinaryInput) :
    Yields ((if index.byName.length > record.length then do
        let written ← ReadM.lift (nodes.mapM fun node => attributeOf node "name")
        return .dict (← ReadM.lift (Decode.fillDefaults written record index.byName))
      else return .dict record : ReadM BinaryInput Datum) input) input
      (fillDefaults record (Field.byName readerFields) >>= fun filled => .ok (.dict filled)) := by
  have noKeys : KeysAmong readerFields [] := ⟨List.nodup_nil, by simp⟩
  have keys := (resolveFields_keys noKeys resolvedIs).1
  have sameLength : index.byName.length = (Field.byName readerFields).length :=
    List.Forall₂.length_eq names
  by_cases shorter : index.byName.length > record.length
  · rw [if_pos shorter, shaped.names, readLift_ok_bind]
    have filled : Resolves (Decode.fillDefaults (fields.map fun field => .str field.name) record
      index.byName)
        (fillDefaults record (Field.byName readerFields)) := by
      apply fillDefaults_resolves names
      intro entry isEntry isWritten
      obtain ⟨_, isName, same⟩ := List.any_eq_true.mp isWritten
      obtain ⟨field, isField, rfl⟩ := List.mem_map.mp isName
      have nameIs : field.name = entry.1 := Json.str.inj (Json.eq_str_of_same same)
      have among : field.name ∈ Members.keys (Field.byName readerFields) := by
        rw [nameIs]
        exact List.mem_map_of_mem isEntry
      rw [← nameIs]
      exact resolveFields_written noKeys lengths resolvedIs isField among
    apply (Yields.lift filled input).bind
    intro result _
    rfl
  · have complete : ∀ entry ∈ Field.byName readerFields,
        (Datum.lookup record entry.1).isSome = true := by
      intro entry isEntry
      exact keys.complete (by omega) (List.mem_map_of_mem isEntry)
    rw [if_neg shorter, fillDefaults_complete complete]
    rfl

private theorem record_projects {isError : Bool} (below : ProjectsAsked read named)
    (ends : ∀ writer, EndsAs (read writer .null named) (skip writer))
    (shaped : HasShape (.obj writerMembers) (.record (.obj writerMembers) isError fields))
    (fieldsAre : get? writerMembers "fields" = some (.arr nodes)) (inner : HaveShapes nodes fields)
    (settled : Settled (.obj writerMembers) (.record (.obj writerMembers) isError fields)
      resolved project) :
    Projects (readRecord read skip (.obj writerMembers) .null named)
      (Shape.record (.obj writerMembers) isError fields).readEntire merged
      (readRecord read skip (.obj writerMembers) resolved named) project := by
  have fieldsFound : Decode.fieldsOf (.obj writerMembers) = .ok nodes := by
    rw [Decode.fieldsOf, attributeOf, required, fieldsAre]
    rfl
  intro input value after done
  have plainDone := done
  rw [readRecord, fieldsFound, readLift_ok_bind] at done
  obtain ⟨plain, stop, fieldsDone, done⟩ := step_bind_ok.mp done
  obtain ⟨rfl, stopIs⟩ := step_pure_ok.mp done
  subst stopIs
  have whole : ∀ wholes, Field.readAll fields input = .ok wholes stop →
      (Shape.record (.obj writerMembers) isError fields).readEntire input =
        .ok (.dict wholes) stop := by
    intro wholes wholesDone
    rw [Shape.readEntire]
    exact step_bind_ok.mpr ⟨wholes, _, wholesDone, rfl⟩
  cases settled with
  | plain =>
    obtain ⟨wholes, wholesDone, plainIs, -, -⟩ :=
      @fields_project ⟨[], []⟩ [] _ _ _ below ends fields List.Forall₂.nil
      List.Forall₂.nil _ inner _ _ _ _ fieldsDone
    refine ⟨.dict wholes, whole wholes wholesDone, by rw [merged, plainIs], ?_⟩
    show Yields _ _ (.ok (Datum.dict wholes).merged)
    rw [merged, ← plainIs]
    exact plainDone
  | @equal reader readerShape readerShaped same =>
    obtain ⟨wholes, wholesDone, plainIs, -, -⟩ :=
      @fields_project ⟨[], []⟩ [] _ _ _ below ends fields List.Forall₂.nil
      List.Forall₂.nil _ inner _ _ _ _ fieldsDone
    have matching := shaped.matches_of_same readerShaped same
    refine ⟨.dict wholes, whole wholes wholesDone, by rw [merged, plainIs], ?_⟩
    cases readerShaped with
    | record _ _ _ _ =>
      rw [resolve, if_pos same, merged, ← plainIs]
      exact plainDone
    | _ => simp [Shape.matches] at matching
  | @matched _ readerShape readerShaped different matching =>
    cases readerShaped with
    | @record readerMembers readerIsError readerNodes readerFields _ _ readerFieldsAre
        readerInner =>
      rw [Shape.matches] at matching
      have readerFound : Decode.fieldsOf (.obj readerMembers) = .ok readerNodes := by
        rw [Decode.fieldsOf, attributeOf, required, readerFieldsAre]
        rfl
      obtain ⟨index, indexed, names, aliases⟩ := indexFields_of_shapes readerInner
      obtain ⟨wholes, wholesDone, plainIs, lengths, yields⟩ :=
        fields_project below ends names aliases inner fieldsDone
      refine ⟨.dict wholes, whole wholes wholesDone, by rw [merged, plainIs], ?_⟩
      rw [resolve, if_neg (by simp [different]), if_pos matching, readRecord]
      · rw [readerFound, outcome_ok_bind, indexed, readLift_ok_bind, fieldsFound, readLift_ok_bind]
        apply (yields []).bind
        intro record recordIs
        exact defaults_yield names inner lengths recordIs _
      · simp
    | _ => simp [Shape.matches] at matching

/-! ### One level -/

/-- Once what is asked is settled, a value is read whole and projected. -/
theorem level_projects {shape : Shape} (below : ProjectsAsked read named)
    (ends : ∀ writer, EndsAs (read writer .null named) (skip writer))
    (shaped : HasShape writer shape) (settled : Settled writer shape resolved project) :
    Projects (finished writer .null (.str shape.word)
        (readKind registry read skip writer .null named (Kind.ofName shape.word)))
        shape.readEntire merged
      (finished writer resolved (.str shape.word)
        (readKind registry read skip writer resolved named (Kind.ofName shape.word))) project := by
  have plainKeeps := finish_plain shaped (.str shape.word)
  have keeps := finish_settled shaped settled
  cases shape with
  | primitive type =>
    have projects := primitive_projects shaped settled
    rw [Shape.readEntire]
    cases type <;> exact projects
  | fixed size =>
    have sizeFound : attributeOf writer "size" = .ok (.int size) := by
      cases shaped with
      | fixed _ _ sizeIs => rw [attributeOf, required, sizeIs]
    have projects := fixed_projects shaped settled
    rw [Shape.readEntire]
    apply Projects.finished _ plainKeeps (keeps fun _ _ => rfl)
    simp only [Shape.word, Kind.ofName, readKind, sizeFound, readLift_ok_bind]
    exact projects
  | enum symbols default =>
    exact (enum_projects shaped settled).finished plainKeeps (keeps fun _ _ => rfl)
  | array items =>
    have arrayShaped := shaped
    cases shaped with
    | array typeIs unmarked itemsAre inner =>
      exact (array_projects below arrayShaped itemsAre inner settled).finished plainKeeps
        (keeps fun _ _ => rfl)
  | map values =>
    have mapShaped := shaped
    cases shaped with
    | map typeIs unmarked valuesAre inner =>
      exact (map_projects below mapShaped valuesAre inner settled).finished plainKeeps
        (keeps fun _ _ => rfl)
  | record schema isError fields =>
    have recordShaped := shaped
    cases shaped with
    | record typeIs unmarked fieldsAre inner =>
      have projects := record_projects below ends recordShaped fieldsAre inner settled
      cases isError with
      | false | true => exact projects.finished plainKeeps (keeps fun _ _ => rfl)

end Level

private theorem read_of_shape {registry : Registry} {depth : Nat} (shaped : HasShape writer shape)
    (reader : Json) (named : Bool) :
    Decode.read registry (depth + 1) writer reader named =
      (ReadM.lift (resolveReader writer reader) >>= fun resolved =>
        finished writer resolved (.str shape.word) (readKind registry (Decode.read registry depth)
          (Decode.skip registry depth) writer resolved named (Kind.ofName shape.word)) :
          ReadM BinaryInput Datum) := by
  rw [Decode.read, shaped.node.typeOf, readLift_ok_bind]
  cases shape with
  | primitive type => cases type <;> rfl
  | record schema isError fields => cases isError <;> rfl
  | _ => rfl

private theorem read_projects (registry : Registry) (depth : Nat) (named : Bool) :
    ProjectsAsked (Decode.read registry depth) named := by
  induction depth with
  | zero =>
    intro writer shape reader project shaped asks input value after done
    simp [Decode.read] at done
  | succ depth ih =>
    intro writer shape reader project shaped asks
    have ends : ∀ writer, EndsAs
      (Decode.read registry depth writer .null named : ReadM BinaryInput Datum)
        (Decode.skip registry depth writer) :=
        fun writer => read_endsAs_skip registry depth writer .null named
    have noReader : resolveReader writer .null = .ok .null := rfl
    rw [read_of_shape shaped .null, read_of_shape shaped reader, noReader, readLift_ok_bind]
    rcases asks.settle shaped with ⟨resolved, resolvedIs, settled⟩ |
      ⟨error, failed, explained, undefined⟩
    · rw [resolvedIs, readLift_ok_bind]
      exact level_projects ih ends shaped settled
    · intro input value after done
      obtain ⟨whole, wholeDone, mergedIs, -⟩ :=
        level_projects ih ends shaped Settled.plain input value after done
      refine ⟨whole, wholeDone, mergedIs, ?_⟩
      rw [undefined, failed]
      exact ⟨error, input, rfl, explained⟩

/-! ### Values without repeated keys -/

theorem insert_new {name : String} (value : Datum) (absent : Datum.str name ∉ record.map Prod.fst) :
    Datum.insert record name value = record ++ [(.str name, value)] := by
  induction record with
  | nil => rfl
  | cons entry rest ih =>
    obtain ⟨key, content⟩ := entry
    rw [List.map_cons, List.mem_cons, not_or] at absent
    cases key with
    | str text =>
      have different : ¬ text = name := fun equal => absent.1 (by rw [equal])
      rw [Datum.insert, if_neg different, ih absent.2]
      rfl
    | _ =>
      rw [Datum.insert, ih absent.2]
      · rfl
      · simp

theorem foldl_insertEntry {entries : List (Datum × Datum)}
    (distinct : Datum.entriesDistinct entries = true)
    (apart : ∀ entry ∈ entries, entry.1 ∉ record.map Prod.fst) :
    entries.foldl Decode.insertEntry record = record ++ entries := by
  induction entries generalizing record with
  | nil => exact (List.append_nil record).symm
  | cons entry rest ih =>
    obtain ⟨key, value⟩ := entry
    rw [Datum.entriesDistinct, Bool.and_eq_true, Bool.and_eq_true] at distinct
    rw [List.forall_mem_cons] at apart
    cases key with
    | str text =>
      have absentLater : Datum.str text ∉ rest.map Prod.fst := by
        intro present
        have isPresent := Datum.isSome_lookup.mpr present
        have isAbsent : (Datum.lookup rest text).isNone = true := distinct.1.1
        rw [Option.isNone_iff_eq_none.mp isAbsent] at isPresent
        exact absurd isPresent Bool.false_ne_true
      rw [List.foldl_cons]
      show rest.foldl Decode.insertEntry (Datum.insert record text value) = _
      rw [insert_new value apart.1, ih distinct.2]
      · simp
      · intro later isLater present
        rw [List.map_append, List.mem_append] at present
        rcases present with inRecord | isNew
        · exact apart.2 later isLater inRecord
        · have keyIs : later.1 = .str text := by simpa using isNew
          exact absentLater (keyIs ▸ List.mem_map_of_mem isLater)
    | _ => exact absurd distinct.1.1 Bool.false_ne_true

mutual

private theorem merged_of_keysDistinct :
    (datum : Datum) → datum.keysDistinct = true → datum.merged = datum
  | .list items, distinct => by
    rw [merged, mergedItems_of_itemsDistinct items distinct]
  | .dict entries, distinct => by
    have entriesAre : Datum.entriesDistinct entries = true := distinct
    rw [merged, mergedEntries_of_entriesDistinct entries entriesAre,
      foldl_insertEntry entriesAre (by simp)]
    rfl
  | .null, _ | .bool _, _ | .int _, _ | .float _, _ | .str _, _ | .bytes _, _ | .buffer _, _
  | .tuple _, _ | .decimal _, _ | .uuid _, _ | .date _, _ | .time _ _, _ | .dateTime _, _ => rfl

theorem mergedItems_of_itemsDistinct : (items : List Datum) → Datum.itemsDistinct items = true →
    mergedItems items = items
  | [], _ => rfl
  | item :: rest, distinct => by
    rw [Datum.itemsDistinct, Bool.and_eq_true] at distinct
    rw [mergedItems, merged_of_keysDistinct item distinct.1,
      mergedItems_of_itemsDistinct rest distinct.2]

theorem mergedEntries_of_entriesDistinct :
    (entries : List (Datum × Datum)) → Datum.entriesDistinct entries = true →
    mergedEntries entries = entries
  | [], _ => rfl
  | (key, value) :: rest, distinct => by
    rw [Datum.entriesDistinct, Bool.and_eq_true, Bool.and_eq_true] at distinct
    rw [mergedEntries, merged_of_keysDistinct value distinct.1.2,
      mergedEntries_of_entriesDistinct rest distinct.2]

end

/-! ### Resolution as a projection -/

/-- Schema resolution is plain reading followed by a projection. For parsed schemas without unions,
references and logical types, reading by the reader's schema yields what `resolve` makes of the
value of the writer's schema with every entry kept, and stops at the same place; and it fails
exactly if `resolve` is undefined, for the cause that `resolve` gives. The plain value is the same
value with the entries of each mapping merged by key, so the two are equal if no key is repeated. -/
theorem read_resolved {writer reader : Json} (writerParsed : Schema.SimplyParsed writer)
    (readerParsed : Schema.SimplyParsed reader) :
    ∃ shape readerShape, HasShape writer shape ∧ HasShape reader readerShape ∧
      ∀ (registry : Registry) (depth : Nat) (named : Bool) (input : BinaryInput) (value :
        Datum) (after : BinaryInput),
        Decode.read registry depth writer .null named input = .ok value after →
        ∃ whole, shape.readEntire input = .ok whole after ∧ whole.merged = value ∧
          (whole.keysDistinct = true → whole = value) ∧
          Yields (Decode.read registry depth writer reader named input) after
            (resolve shape readerShape whole) := by
  obtain ⟨shape, writerShaped⟩ := writerParsed.exists_shape
  obtain ⟨readerShape, readerShaped⟩ := readerParsed.exists_shape
  refine ⟨shape, readerShape, writerShaped, readerShaped, ?_⟩
  intro registry depth named input value after done
  have projects := read_projects registry depth named writerShaped (Asks.resolved readerShaped)
  obtain ⟨whole, wholeDone, mergedIs, yields⟩ := projects input value after done
  refine ⟨whole, wholeDone, mergedIs, ?_, yields⟩
  intro distinct
  rw [← mergedIs, merged_of_keysDistinct whole distinct]

/-- A writer's record of a number, a tag and counts. -/
def sampleWriter : Json :=
  .obj [("type", .str "record"), ("name", .str "Sample"),
    ("fields", .arr [.obj [("name", .str "id"), ("type", .str "int")],
      .obj [("name", .str "tag"), ("type", .str "string")],
      .obj [("name", .str "counts"),
        ("type", .obj [("type", .str "map"), ("values", .str "int")])]])]

/-- A reader's record that knows the tag by another name, asks for a double, and has a grade of its
own. -/
def sampleReader : Json :=
  .obj [("type", .str "record"), ("name", .str "Sample"),
    ("fields", .arr [.obj [("aliases", .arr [.str "tag"]), ("name", .str "label"),
      ("type", .str "bytes")],
      .obj [("name", .str "id"), ("type", .str "double")],
      .obj [("default", .int 7), ("name", .str "grade"), ("type", .str "int")]])]

/-- A sample, and a byte after it. -/
def sampleInput : BinaryInput := .ofBytes [6, 4, 97, 98, 0, 255]

private theorem simplyParsed_sampleWriter : Schema.SimplyParsed sampleWriter := by
  refine ⟨{ mark := false }, [], [("Sample", sampleWriter)], sampleWriter, rfl, rfl,
    ?_, by decide, by simp [Schema.RegistryTyped]⟩
  refine Schema.Simple.record rfl (by decide) rfl ?_
  refine @Schema.SimpleFields.cons _ _ _ [] rfl rfl (Schema.Simple.word (by decide)) ?_
  refine @Schema.SimpleFields.cons _ _ _ [] rfl rfl (Schema.Simple.word (by decide)) ?_
  refine @Schema.SimpleFields.cons _ _ _ [] rfl rfl ?_ Schema.SimpleFields.nil
  exact @Schema.Simple.collection _ "map" "values" _ rfl (by decide) rfl
    (Schema.Simple.word (by decide))

private theorem simplyParsed_sampleReader : Schema.SimplyParsed sampleReader := by
  refine ⟨{ mark := false }, [], [("Sample", sampleReader)], sampleReader, rfl, rfl,
    ?_, by decide, by simp [Schema.RegistryTyped]⟩
  refine Schema.Simple.record rfl (by decide) rfl ?_
  refine @Schema.SimpleFields.cons _ _ _ ["tag"] rfl rfl (Schema.Simple.word (by decide)) ?_
  refine @Schema.SimpleFields.cons _ _ _ [] rfl rfl (Schema.Simple.word (by decide)) ?_
  exact @Schema.SimpleFields.cons _ _ _ [] rfl rfl (Schema.Simple.word (by decide))
    Schema.SimpleFields.nil

theorem read_resolved_sample :
    ∃ shape readerShape whole, HasShape sampleWriter shape ∧ HasShape sampleReader readerShape ∧
      shape.readEntire sampleInput = .ok whole (BinaryInput.mk [255] (some 0)) ∧
      Yields (Decode.read [] Schema.depthLimit sampleWriter sampleReader false sampleInput)
        (BinaryInput.mk [255] (some 0)) (resolve shape readerShape whole) := by
  obtain ⟨shape, readerShape, writerShaped, readerShaped, projects⟩ :=
    read_resolved simplyParsed_sampleWriter simplyParsed_sampleReader
  have done : Decode.read [] Schema.depthLimit sampleWriter .null false sampleInput =
      .ok (.dict [(.str "id", .int 3), (.str "tag", .str "ab"), (.str "counts", .dict [])])
        (BinaryInput.mk [255] (some 0)) := by cbv
  obtain ⟨whole, wholeDone, -, -, yields⟩ :=
    projects [] Schema.depthLimit false sampleInput _ _ done
  exact ⟨shape, readerShape, whole, writerShaped, readerShaped, wholeDone, yields⟩

def mapOf (word : String) : Json := .obj [("type", .str "map"), ("values", .str word)]

/-- The plain value does not determine what resolution yields: where a key is repeated, the value
that is overwritten is resolved as well. -/
theorem resolution_not_of_value :
    ¬ ∃ project : Datum → Except Unresolved Datum, ∀ input value after,
      Decode.read [] Schema.depthLimit (mapOf "bytes") .null false input = .ok value after →
        Yields (Decode.read [] Schema.depthLimit (mapOf "bytes") (mapOf "string") false input) after
          (project value) := by
  rintro ⟨project, projects⟩
  -- One key with one value, and the same key twice, first with a value that is no text: the plain
  -- values are equal.
  have once : Decode.read [] Schema.depthLimit (mapOf "bytes") .null false
    (.ofBytes [2, 2, 107, 4, 111, 107, 0]) =
      .ok (.dict [(.str "k", .bytes [111, 107])]) (BinaryInput.mk [] (some 0)) := by cbv
  have twice : Decode.read [] Schema.depthLimit (mapOf "bytes") .null false
      (.ofBytes [4, 2, 107, 2, 255, 2, 107, 4, 111, 107, 0]) =
      .ok (.dict [(.str "k", .bytes [111, 107])]) (BinaryInput.mk [] (some 0)) := by cbv
  have onceResolved : Decode.read [] Schema.depthLimit (mapOf "bytes") (mapOf "string") false
      (.ofBytes [2, 2, 107, 4, 111, 107, 0]) =
        .ok (.dict [(.str "k", .str "ok")]) (BinaryInput.mk [] (some 0)) := by cbv
  have twiceFails : Decode.read [] Schema.depthLimit (mapOf "bytes") (mapOf "string") false
      (.ofBytes [4, 2, 107, 2, 255, 2, 107, 4, 111, 107, 0]) =
      .error .notUtf8 (BinaryInput.mk [2, 107, 4, 111, 107, 0] (some 2)) := by cbv
  have onceYields := projects _ _ _ once
  have twiceYields := projects _ _ _ twice
  rw [onceResolved] at onceYields
  rw [twiceFails] at twiceYields
  generalize project (.dict [(.str "k", .bytes [111, 107])]) = outcome at onceYields twiceYields
  cases outcome with
  | ok value => simp [Yields] at twiceYields
  | error cause =>
    obtain ⟨error, stopped, failed, -⟩ := onceYields
    simp at failed

end Avro
