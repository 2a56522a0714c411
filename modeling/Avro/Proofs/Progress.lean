import Avro.Proofs.Ordinary

/-!
Contract: reading goes forward through its input.

Owns: `Follows`, the steps that leave the end of what they are given, where another step leaves it
too, and, where that is asked for, do not fail for want of depth, with the rules by which they are
composed; `Leads` and `Guards`, the parts of a node that are read without a byte in between and
behind one; and that reading, with any reader's schema, is followed by skipping in this way.

Reading a record mixes the two: the fields that the reader knows are read, the others are skipped.
-/

namespace Avro

open BinaryInput

variable {α β γ δ : Type} {deep : Prop} {limit : Nat} {input after : BinaryInput}
  {outcome : Outcome α} {step first : ReadM BinaryInput α} {second : ReadM BinaryInput β}
  {next : α → ReadM BinaryInput γ} {nextSecond : α → ReadM BinaryInput δ}

/-! ### Numbers take bytes -/

/-- Digits that are read stand at the front, and are not nothing. -/
theorem exists_digits_of_decodeDigits {sum weight number : Nat} {bytes rest : Bytes}
    (done : Varint.decodeDigits sum weight bytes = some (number, rest)) :
    ∃ front, front ≠ [] ∧ front ++ rest = bytes := by
  induction bytes generalizing sum weight with
  | nil => cases done
  | cons byte others ih =>
    unfold Varint.decodeDigits at done
    by_cases last : byte.toNat < 128
    · simp only [last, if_true, Option.some.injEq, Prod.mk.injEq] at done
      exact ⟨[byte], List.cons_ne_nil _ _, by rw [← done.2]; rfl⟩
    · simp only [last, if_false] at done
      obtain ⟨front, _, joined⟩ := ih done
      exact ⟨byte :: front, List.cons_ne_nil _ _, by rw [← joined]; rfl⟩

theorem exists_bytes_of_readVarint {value : Int} (done : readVarint input = .ok value after) :
    ∃ front, front ≠ [] ∧ front ++ after.rest = input.rest := by
  unfold readVarint Varint.decode at done
  cases bytesAre : input.rest with
  | nil =>
    rw [bytesAre] at done
    cases done
  | cons byte others =>
    rw [bytesAre] at done
    simp only at done
    cases decoded : Varint.decodeDigits 0 1 (byte :: others) with
    | none =>
      rw [decoded] at done
      cases done
    | some found =>
      rw [decoded] at done
      cases done
      exact exists_digits_of_decodeDigits decoded

/-- A step that consumes at least a byte whenever it succeeds. -/
def Shrinks (step : ReadM BinaryInput α) : Prop :=
  ∀ input value after, step input = .ok value after → after.rest.length < input.rest.length

theorem shrinks_readVarint : Shrinks readVarint := by
  intro input value after done
  obtain ⟨front, nonempty, joined⟩ := exists_bytes_of_readVarint done
  rw [← joined, List.length_append]
  exact Nat.lt_add_of_pos_left (List.length_pos_iff.mpr nonempty)

theorem shrinks_readBlockCount : Shrinks readBlockCount := by
  intro input value after done
  obtain ⟨count, between, counted, modified⟩ := step_bind_ok.mp done
  cases modified
  exact shrinks_readVarint input count between counted

theorem Shrinks.betweenItems (shrinks : Shrinks step) : Shrinks (betweenItems step) := by
  intro input value after done
  unfold BinaryInput.betweenItems at done
  split at done
  · cases done
  · exact shrinks input value after done

/-! ### Steps forward -/

/-- On inputs of at most so many bytes, a step that succeeds leaves the end of what it is given, and
the second step leaves the same; one that has to be deep enough does not fail for want of depth. -/
def Follows (deep : Prop) (limit : Nat) (first : ReadM BinaryInput α)
    (second : ReadM BinaryInput β) : Prop :=
  ∀ input, input.rest.length ≤ limit → match first input with
    | .ok _ after => after.rest <:+ input.rest ∧ ∃ other, second input = .ok other after
    | .error error _ => deep → error ≠ .tooDeep

abbrev Forward (deep : Prop) (limit : Nat) (step : ReadM BinaryInput α) : Prop :=
  Follows deep limit step step

theorem Forward.of_result (goes : ∀ input, match step input with
    | .ok _ after => after.rest <:+ input.rest
    | .error error _ => error ≠ .tooDeep) : Forward deep limit step := by
  intro input _
  have result := goes input
  cases done : step input with
  | ok value after =>
    rw [done] at result
    exact ⟨result, value, rfl⟩
  | error error after =>
    rw [done] at result
    exact fun _ => result

namespace Follows

theorem ok {value : α} (follows : Follows deep limit first second)
    (short : input.rest.length ≤ limit) (done : first input = .ok value after) :
    after.rest <:+ input.rest ∧ ∃ other, second input = .ok other after := by
  have goes := follows input short
  rwa [done] at goes

theorem not_tooDeep (follows : Follows True limit first second)
    (short : input.rest.length ≤ limit) :
    first input ≠ .error .tooDeep after := by
  intro failed
  have goes := follows input short
  rw [failed] at goes
  exact goes trivial rfl

theorem forward (follows : Follows deep limit first second) : Forward deep limit first := by
  intro input short
  have goes := follows input short
  cases done : first input with
  | ok value after =>
    rw [done] at goes
    exact ⟨goes.1, value, rfl⟩
  | error error after => rwa [done] at goes

theorem mono {smaller : Nat} (follows : Follows deep limit first second) (fewer : smaller ≤ limit) :
    Follows deep smaller first second := fun input short => follows input (short.trans fewer)

theorem pure (value : α) (other : β) : Follows deep limit (Pure.pure value) (Pure.pure other) :=
  fun _ _ => ⟨List.suffix_refl _, other, rfl⟩

theorem throw {error : Error} (second : ReadM BinaryInput β)
    (unlike : deep → error ≠ .tooDeep := by simp) :
    Follows deep limit (MonadExcept.throw error : ReadM BinaryInput α) second := fun _ _ => unlike

/-- What follows a step has to go forward on what the step leaves. -/
theorem bind_of {nextSecond : β → ReadM BinaryInput δ} (follows : Follows deep limit first second)
    (following : ∀ input value other after, input.rest.length ≤ limit →
      first input = .ok value after →
      second input = .ok other after →
      Follows deep after.rest.length (next value) (nextSecond other)) :
    Follows deep limit (first >>= next) (second >>= nextSecond) := by
  intro input short
  have goes := follows input short
  cases done : first input with
  | error error after =>
    rw [step_bind_of_error done]
    rwa [done] at goes
  | ok value after =>
    rw [done] at goes
    obtain ⟨shorter, other, otherDone⟩ := goes
    have goesOn := following input value other after short done otherDone after le_rfl
    rw [step_bind_of_ok done, step_bind_of_ok otherDone]
    cases isNext : next value after with
    | error error final => rwa [isNext] at goesOn
    | ok result final =>
      rw [isNext] at goesOn
      exact ⟨goesOn.1.trans shorter, goesOn.2⟩

theorem bind {nextSecond : β → ReadM BinaryInput δ} (follows : Follows deep limit first second)
    (following : ∀ value other, Follows deep limit (next value) (nextSecond other)) :
    Follows deep limit (first >>= next) (second >>= nextSecond) :=
  follows.bind_of fun _ value other _ short done _ =>
    (following value other).mono ((follows.ok short done).1.length_le.trans short)

/-- A step that both begin with leads to the same value in both. -/
theorem bindSame (forward : Forward deep limit step)
    (following : ∀ value, Follows deep limit (next value) (nextSecond value)) :
    Follows deep limit (step >>= next) (step >>= nextSecond) := by
  refine forward.bind_of fun _ value other _ short done otherDone => ?_
  cases done.symm.trans otherDone
  exact (following value).mono ((forward.ok short done).1.length_le.trans short)

/-- Behind a byte, fewer bytes are left. -/
theorem afterByte (shrinks : Shrinks step) (forward : Forward deep limit step)
    (following : ∀ value smaller, smaller < limit →
      Follows deep smaller (next value) (nextSecond value)) :
    Follows deep limit (step >>= next) (step >>= nextSecond) := by
  refine forward.bind_of fun input value other after short done otherDone => ?_
  cases done.symm.trans otherDone
  exact following value _ ((shrinks input value after done).trans_le short)

theorem afterLift
    (following : ∀ value, outcome = .ok value → Follows deep limit (next value) second)
    (ordinary : deep → Ordinary outcome := by simp) :
    Follows deep limit (ReadM.lift outcome >>= next) second := by
  cases outcome with
  | ok value => exact following value rfl
  | error error => exact throw second fun isDeep => (Ordinary.error_iff.mp (ordinary isDeep)).1

/-- A lookup that both begin with. -/
theorem afterLifts
    (following : ∀ value, outcome = .ok value → Follows deep limit (next value) (nextSecond value))
    (ordinary : deep → Ordinary outcome := by simp) :
    Follows deep limit (ReadM.lift outcome >>= next) (ReadM.lift outcome >>= nextSecond) := by
  refine afterLift (fun value isOutcome => ?_) ordinary
  rw [isOutcome, readLift_ok_bind]
  exact following value isOutcome

theorem lift (ordinary : deep → Ordinary outcome := by simp) :
    Follows deep limit (ReadM.lift outcome) (Pure.pure ()) := by
  cases outcome with
  | ok value => exact pure value ()
  | error error => exact throw _ fun isDeep => (Ordinary.error_iff.mp (ordinary isDeep)).1

theorem thenNothing (follows : Follows deep limit first second)
    (nothing : ∀ value, Follows deep limit (next value) (Pure.pure ())) :
    Follows deep limit (first >>= next) second := by
  intro input short
  have goes := follows input short
  cases done : first input with
  | error error after =>
    rw [step_bind_of_error done]
    rwa [done] at goes
  | ok value after =>
    rw [done] at goes
    have goesOn := nothing value after (goes.1.length_le.trans short)
    rw [step_bind_of_ok done]
    cases isNext : next value after with
    | error error final => rwa [isNext] at goesOn
    | ok result final =>
      rw [isNext] at goesOn
      obtain ⟨-, _, ⟨⟩⟩ := goesOn
      exact goes

private theorem discarded (forward : Forward deep limit step) :
    Follows deep limit step (step >>= fun _ => Pure.pure ()) := by
  intro input short
  have goes := forward input short
  cases done : step input with
  | ok value after =>
    rw [done] at goes
    exact ⟨goes.1, (), step_bind_ok.mpr ⟨value, after, done, rfl⟩⟩
  | error error after => rwa [done] at goes

/-- A step that shows some failures as others goes on as before. -/
theorem relabelled {other : ReadM BinaryInput α} (follows : Follows deep limit first second)
    (same : ∀ input, other input = first input ∨
      ∃ error after, other input = .error error after ∧ error ≠ .tooDeep) :
    Follows deep limit other second := by
  intro input short
  rcases same input with isFirst | ⟨error, after, failed, unlike⟩
  · rw [isFirst]
    exact follows input short
  · rw [failed]
    exact fun _ => unlike

theorem orTruncated (type : Json) (follows : Follows deep limit first second) :
    Follows deep limit (Decode.orTruncated type first) second := by
  refine follows.relabelled fun input => ?_
  unfold Decode.orTruncated
  split
  · exact .inr ⟨_, _, rfl, by simp⟩
  · exact .inl rfl

theorem betweenItems (forward : Forward deep limit step) :
    Forward deep limit (BinaryInput.betweenItems step) := by
  refine (forward.relabelled fun input => ?_).forward
  unfold BinaryInput.betweenItems
  split
  · exact .inr ⟨_, _, rfl, by simp⟩
  · exact .inl rfl

end Follows

/-! ### Bytes and numbers -/

namespace Forward

theorem take (count : Nat) : Forward deep limit (BinaryInput.take count) :=
  .of_result fun _ => List.drop_suffix count _

theorem takeSized (size : Int) : Forward deep limit (BinaryInput.takeSized size) := by
  refine .of_result fun input => ?_
  unfold BinaryInput.takeSized
  by_cases large : (size ≥ Datum.sizeLimit || size < -Datum.sizeLimit) = true
  · rw [if_pos large]
    simp
  · rw [if_neg large]
    by_cases negative : size < 0
    · rw [if_pos negative]
      exact List.nil_suffix
    · rw [if_neg negative]
      exact List.drop_suffix _ _

theorem readVarint : Forward deep limit BinaryInput.readVarint := by
  refine .of_result fun input => ?_
  cases done : BinaryInput.readVarint input with
  | ok value after =>
    obtain ⟨front, -, joined⟩ := exists_bytes_of_readVarint done
    exact ⟨front, joined⟩
  | error error after =>
    unfold BinaryInput.readVarint at done
    split at done <;> cases done <;> simp

theorem readSized : Forward deep limit BinaryInput.readSized := readVarint.bindSame takeSized

theorem readFixedWidth (count : Nat) : Forward deep limit (BinaryInput.readFixedWidth count) := by
  refine (take count).bindSame fun bytes => ?_
  split
  · exact .pure _ _
  · exact .throw _

theorem readString : Forward deep limit BinaryInput.readString := by
  refine readSized.bindSame fun bytes => ?_
  split
  · exact .pure _ _
  · exact .throw _

theorem readFixedSize (size : Json) : Forward deep limit (BinaryInput.readFixedSize size) := by
  unfold BinaryInput.readFixedSize
  split
  · exact (takeSized _).bindSame fun _ => .pure _ _
  · split
    · exact (takeSized _).bindSame fun _ => .pure _ _
    · exact .throw _

theorem modifyCount (change : BinaryInput → Option Int) :
    Forward deep limit (modify fun input => { input with blockCount := change input }) :=
    .of_result fun _ => List.suffix_refl _

theorem readBlockCount : Forward deep limit BinaryInput.readBlockCount :=
  readVarint.bindSame fun _ => modifyCount _

theorem startBlock : Forward deep limit BinaryInput.startBlock := by
  refine .bindSame (.of_result fun _ => List.suffix_refl _) fun input => ?_
  split
  · exact .throw _
  · split
    · exact (modifyCount _).bindSame fun _ => readVarint.betweenItems.bindSame fun _ => .pure _ _
    · exact .pure _ _

end Forward

/-! ### Collections -/

namespace Follows

theorem times (follows : Follows deep limit first second) (count : Nat) :
    Follows deep limit (times first count) (times second count) := by
  induction count with
  | zero => exact pure [] []
  | succ count ih => exact follows.bind fun _ _ => ih.bind fun _ _ => pure _ _

/-- Each block takes a byte, so the blocks end before the fuel does. -/
theorem readBlocks {fuel : Nat} (follows : Follows deep limit first second)
    (enough : limit < fuel) :
    Follows deep limit (readBlocks first fuel) (readBlocks second fuel) := by
  induction fuel generalizing limit with
  | zero => exact absurd enough (Nat.not_lt_zero limit)
  | succ fuel ih =>
    refine Forward.startBlock.bindSame fun count => ?_
    by_cases isLast : count = 0
    · rw [if_pos isLast, if_pos isLast]
      exact pure [] []
    · rw [if_neg isLast, if_neg isLast]
      refine (follows.times count).bind fun items others => ?_
      refine afterByte shrinks_readBlockCount.betweenItems Forward.readBlockCount.betweenItems
        fun _ smaller fewer => ?_
      exact (ih (follows.mono fewer.le) (by omega)).bind fun _ _ => pure _ _

theorem readCollection (follows : Follows deep limit first second) :
    Follows deep limit (readCollection first) (readCollection second) :=
  fun input short => (follows.mono short).readBlocks (Nat.lt_succ_self _) input le_rfl

end Follows

namespace Decode

open Schema (attributeOf documentItemAt kindOf)

variable {registry : Registry} {schema writer reader : Json} {kind : Kind} {fields : List Json}
  {named : Bool}

/-! ### The parts of a node -/

/-- A node leads to another without a byte in between: a reference to its definition, a record to
the types of its fields. -/
inductive Leads (registry : Registry) : Json → Json → Prop where
  | definition {node definition : Json} {name : String}
      (isReference : kindOf node = .ok (.named name))
      (found : Schema.resolve registry name = .ok definition) : Leads registry node definition
  | field {node field type : Json} {fields : List Json}
      (isRecord : kindOf node ∈ [.ok .record, .ok .error, .ok .request])
      (fieldsAre : fieldsOf node = .ok fields) (isField : field ∈ fields)
      (typeIs : attributeOf field "type" = .ok type) :
      Leads registry node type

/-- The parts of a union, an array or a map, which come behind a byte. -/
inductive Guards : Json → Json → Prop where
  | branch {node part : Json} {index : Int} (isUnion : kindOf node ∈ [.ok .union, .ok .errorUnion])
      (found : documentItemAt node index = .ok part) : Guards node part
  | items {node part : Json} (isArray : kindOf node = .ok .array)
      (under : attributeOf node "items" = .ok part) : Guards node part
  | values {node part : Json} (isMap : kindOf node = .ok .map)
      (under : attributeOf node "values" = .ok part) : Guards node part

/-! ### Skipping -/

section Skipping

variable {skip : Json → ReadM BinaryInput Unit}

private theorem forward_skipFields
    (below : ∀ field ∈ fields, ∀ type, attributeOf field "type" = .ok type →
    Forward deep limit (skip type)) :
    Forward deep limit (skipFields skip fields) := by
  induction fields with
  | nil => exact .pure _ _
  | cons field rest ih =>
    rw [List.forall_mem_cons] at below
    exact .afterLifts fun type typeIs => (below.1 type typeIs).bindSame fun _ => ih below.2

private theorem forward_skipKind (kindIs : kindOf schema = .ok kind)
    (leading : ∀ part, Leads registry schema part → Forward deep limit (skip part))
    (guarding : ∀ part, Guards schema part → ∀ smaller < limit, Forward deep smaller (skip part)) :
    Forward deep limit (skipKind skip schema kind) := by
  cases kind with
  | null => exact .pure _ _
  | boolean =>
    exact ((Forward.readFixedWidth 1).bindSame fun _ => .pure _ _).bindSame fun _ => .pure _ _
  | string => exact Forward.readString.bindSame fun _ => .pure _ _
  | int | long => exact (Forward.readVarint.bindSame fun _ => .pure _ _).bindSame fun _ => .pure _ _
  | float =>
    exact ((Forward.readFixedWidth 4).bindSame fun _ => .pure _ _).bindSame fun _ => .pure _ _
  | double =>
    exact ((Forward.readFixedWidth 8).bindSame fun _ => .pure _ _).bindSame fun _ => .pure _ _
  | bytes => exact (Forward.readSized.bindSame fun _ => .pure _ _).bindSame fun _ => .pure _ _
  | fixed =>
    exact .afterLifts fun size _ => (Forward.readFixedSize size).bindSame fun _ => .pure _ _
  | enum => exact Forward.readVarint.bindSame fun _ => .pure _ _
  | array =>
    refine .afterByte shrinks_readBlockCount .readBlockCount fun _ smaller fewer => ?_
    refine (Follows.readCollection ?_).bind fun _ _ => .pure _ _
    exact .afterLifts fun part under => guarding part (.items kindIs under) smaller fewer
  | map =>
    refine .afterByte shrinks_readBlockCount .readBlockCount fun _ smaller fewer => ?_
    refine (Follows.readCollection (Forward.readString.bindSame fun _ => ?_)).bind
      fun _ _ => .pure _ _
    exact .afterLifts fun part under => guarding part (.values kindIs under) smaller fewer
  | union | errorUnion =>
    refine .afterByte shrinks_readVarint .readVarint fun index smaller fewer => ?_
    exact .afterLifts fun part found =>
      guarding part (.branch (by simp [kindIs]) found) smaller fewer
  | record | error | request =>
    refine .afterLifts fun fields fieldsAre =>
      forward_skipFields fun field isField type typeIs => ?_
    exact leading type (.field (by simp [kindIs]) fieldsAre isField typeIs)
  | named name => exact .throw _
  | foreign value => exact .throw _

end Skipping

/-! ### Reading -/

section Reading

variable {read : Reader BinaryInput} {skip : Json → ReadM BinaryInput Unit}

private theorem follows_readFields
    (below : ∀ field ∈ fields, ∀ type, attributeOf field "type" = .ok type →
      ∀ reader named, Follows deep limit (read type reader named) (skip type))
    (record : List (Datum × Datum)) :
    Follows deep limit (readFields read named record fields) (skipFields skip fields) := by
  induction fields generalizing record with
  | nil => exact .pure _ _
  | cons field rest ih =>
    rw [List.forall_mem_cons] at below
    refine .afterLifts fun type typeIs => (below.1 type typeIs .null named).bind fun value _ => ?_
    exact .afterLift fun name _ => ih below.2 _

private theorem follows_readResolvedFields
    (below : ∀ field ∈ fields, ∀ type, attributeOf field "type" = .ok type →
      (∀ reader named, Follows deep limit (read type reader named) (skip type)) ∧
      Forward deep limit (skip type))
    (index : FieldIndex) (record : List (Datum × Datum)) :
    Follows deep limit (readResolvedFields read skip named index record fields)
      (skipFields skip fields) := by
  induction fields generalizing record with
  | nil => exact .pure _ _
  | cons field rest ih =>
    rw [List.forall_mem_cons] at below
    refine .afterLift fun name _ => ?_
    split
    · refine .afterLifts fun type typeIs => .afterLift fun readerType _ => ?_
      refine ((below.1 type typeIs).1 readerType named).bind fun value _ => ?_
      exact .afterLift fun readerName _ => ih below.2 _
    · exact .afterLifts fun type typeIs => (below.1 type typeIs).2.bindSame fun _ =>
        ih below.2 record

private theorem follows_readRecord
    (isRecord : kindOf writer ∈ [.ok .record, .ok .error, .ok .request])
    (leading : ∀ part, Leads registry writer part →
      (∀ reader named, Follows deep limit (read part reader named) (skip part)) ∧
      Forward deep limit (skip part)) :
    Follows deep limit (readRecord read skip writer reader named)
      (ReadM.lift (fieldsOf writer) >>= skipFields skip) := by
  unfold readRecord
  split
  · refine .afterLifts fun fields fieldsAre => ?_
    refine (follows_readFields (fun field isField type typeIs => ?_) []).thenNothing
      fun _ => .pure _ _
    exact (leading type (.field isRecord fieldsAre isField typeIs)).1
  · refine .afterLift fun index _ => .afterLifts fun fields fieldsAre => ?_
    refine (follows_readResolvedFields (fun field isField type typeIs => ?_) index []).thenNothing
      fun record => ?_
    · exact leading type (.field isRecord fieldsAre isField typeIs)
    · split
      · refine .afterLift (fun written _ => ?_) fun _ =>
          Ordinary.mapM (fun field => Ordinary.attributeOf field "name") fields
        exact .afterLift fun _ _ => .pure _ _
      · exact .pure _ _

variable (guarding : ∀ part, Guards writer part → ∀ smaller < limit, ∀ reader named,
  Follows deep smaller (read part reader named) (skip part))

include guarding

private theorem follows_readArray (isArray : kindOf writer = .ok .array) :
    Follows deep limit (readArray read writer reader named) (skipKind skip writer .array) := by
  refine .afterByte shrinks_readBlockCount .readBlockCount fun _ smaller fewer => ?_
  refine (Follows.readCollection ?_).bind fun _ _ => .pure _ _
  refine .afterLifts fun part under => .afterLift fun readerItems _ => ?_
  exact guarding part (.items isArray under) smaller fewer readerItems named

private theorem follows_readMap (isMap : kindOf writer = .ok .map) :
    Follows deep limit (readMap read writer reader named) (skipKind skip writer .map) := by
  refine .afterByte shrinks_readBlockCount .readBlockCount fun _ smaller fewer => ?_
  refine (Follows.readCollection ?_).bind fun _ _ => .pure _ _
  refine Forward.readString.bindSame fun key => .afterLifts fun part under =>
    .afterLift fun readerValues _ => ?_
  exact (guarding part (.values isMap under) smaller fewer readerValues named).thenNothing
    fun _ => .pure _ _

/-- Whichever of the reader's branches is taken, the value of the writer's branch is read. -/
theorem follows_readUnion (isUnion : kindOf writer ∈ [.ok .union, .ok .errorUnion]) :
    Follows deep limit (readUnion registry read writer reader named)
      (skipKind skip writer .union) := by
  refine .afterByte shrinks_readVarint .readVarint fun index smaller fewer =>
    .afterLifts fun branch found => ?_
  have follows := guarding branch (.branch isUnion found) smaller fewer
  split
  · refine .afterLift fun matched _ => ?_
    cases matched with
    | some readerBranch => exact follows readerBranch named
    | none => exact .throw _
  · split
    · refine .afterLift fun type _ => ?_
      split
      · exact .afterLift fun name _ => (follows .null true).thenNothing fun _ => .pure _ _
      · refine .afterLift fun kind _ => ?_
        split
        · exact follows .null false
        · exact .afterLift fun name _ => (follows .null true).thenNothing fun _ => .pure _ _
    · exact follows .null false

private theorem follows_readKind (kindIs : kindOf writer = .ok kind)
    (leading : ∀ part, Leads registry writer part →
      (∀ reader named, Follows deep limit (read part reader named) (skip part)) ∧
      Forward deep limit (skip part)) :
    Follows deep limit (readKind registry read skip writer reader named kind)
      (skipKind skip writer kind) := by
  cases kind with
  | null => exact .pure _ _
  | boolean => exact .discarded ((Forward.readFixedWidth 1).bindSame fun _ => .pure _ _)
  | string => exact .discarded .readString
  | int | long => exact .discarded (Forward.readVarint.bindSame fun _ => .pure _ _)
  | float => exact .discarded ((Forward.readFixedWidth 4).bindSame fun _ => .pure _ _)
  | double => exact .discarded ((Forward.readFixedWidth 8).bindSame fun _ => .pure _ _)
  | bytes => exact .discarded (Forward.readSized.bindSame fun _ => .pure _ _)
  | fixed => exact .afterLifts fun size _ => .discarded (.readFixedSize size)
  | enum =>
    exact .afterLift fun symbols _ => Forward.readVarint.bindSame fun _ =>
      .afterLift fun _ _ => .lift
  | array => exact follows_readArray guarding kindIs
  | map => exact follows_readMap guarding kindIs
  | union | errorUnion => exact follows_readUnion guarding (by simp [kindIs])
  | record | error | request => exact follows_readRecord (by simp [kindIs]) leading
  | named name => exact .throw _
  | foreign value => exact .throw _

end Reading

/-! ### Every depth -/

/-- A measure of depth that is kept on the way down: from a node to what it leads to with the same
bytes, to what it guards with fewer. Without any depth, nothing has to be deep enough. -/
structure Descends (registry : Registry) (deep : Prop) (enough : Nat → Json → Nat → Prop) :
    Prop where
  bottom : ∀ {node limit}, enough 0 node limit → ¬ deep
  leads : ∀ {depth node limit part}, enough (depth + 1) node limit → Leads registry node part →
  enough depth part limit
  guards : ∀ {depth node limit part smaller}, enough (depth + 1) node limit → Guards node part →
  smaller < limit →
    enough depth part smaller

variable {enough : Nat → Json → Nat → Prop} {depth : Nat}

theorem Descends.forward_skip (descends : Descends registry deep enough)
    (isEnough : enough depth schema limit) : Forward deep limit (skip registry depth schema) := by
  induction depth generalizing schema limit with
  | zero => exact .throw _ fun isDeep => absurd isDeep (descends.bottom isEnough)
  | succ depth ih =>
    have leading (part) (leads : Leads registry schema part) := ih (descends.leads isEnough leads)
    refine .afterLifts fun kind kindIs => ?_
    cases kind with
    | named name =>
      exact .afterLifts fun definition found => leading definition (.definition kindIs found)
    | foreign value => exact .throw _
    | _ =>
      exact forward_skipKind kindIs leading fun part guards smaller fewer =>
        ih (descends.guards isEnough guards fewer)

theorem Descends.follows_read (descends : Descends registry deep enough)
    (isEnough : enough depth writer limit) (reader : Json) (named : Bool) :
    Follows deep limit (read registry depth writer reader named) (skip registry depth writer) := by
  induction depth generalizing writer limit reader named with
  | zero => exact .throw _ fun isDeep => absurd isDeep (descends.bottom isEnough)
  | succ depth ih =>
    have leading (part) (leads : Leads registry writer part) :
        (∀ reader named, Follows deep limit (read registry depth part reader named)
          (skip registry depth part)) ∧
          Forward deep limit (skip registry depth part) :=
      have isLeft := descends.leads isEnough leads
      ⟨ih isLeft, descends.forward_skip isLeft⟩
    refine .afterLift fun type typeIs => .afterLift fun kind kindIs => ?_
    have kindOfIs : kindOf writer = .ok kind := by
      rw [kindOf, typeIs]
      exact kindIs
    rw [skip, kindOfIs, readLift_ok_bind]
    cases kind with
    | named name =>
      refine .afterLifts fun definition found => .afterLift fun known _ => ?_
      exact (leading definition (.definition kindOfIs found)).1 known named
    | foreign value => exact .throw _
    | _ =>
      refine .afterLift fun resolved _ =>
        (Follows.orTruncated type ?_).thenNothing fun datum => .lift
      exact follows_readKind (fun part guards smaller fewer =>
        ih (descends.guards isEnough guards fewer)) kindOfIs leading

/-- Whatever the depth, reading leaves the end of what it is given, and skipping leaves the same. -/
theorem follows_read (registry : Registry) (depth : Nat) (writer reader : Json) (named : Bool) :
    Follows False limit (read registry depth writer reader named) (skip registry depth writer) :=
  have descends : Descends registry False fun _ _ _ => True :=
    ⟨fun _ => id, fun _ _ => trivial, fun _ _ _ => trivial⟩
  descends.follows_read trivial reader named

end Decode

end Avro
