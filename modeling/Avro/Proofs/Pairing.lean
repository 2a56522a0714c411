import Avro.Proofs.Acceptance
import Avro.Proofs.Appending
import Avro.Proofs.NormalForm

/-!
Contract: writing and reading go through a schema side by side.

Owns: `Labelled`, a byte of an encoding together with what it belongs to, and `LabelledOutput`, an
output that writes the bytes of the binary format with their labels; `ReadLogic`, a way to tell what
is read from labelled bytes; `Pairs`, the pairing of writing with and without labels and of reading;
and that every kind of value is paired if its parts are.

A way to tell what is read may say that reading succeeds, or only what it gives if it succeeds. It
may be about whole encodings, or about those whose end is cut off as well; only in the latter case
the labels are asked for.
-/

namespace Avro

open Datum (sizeLimit)
open Decode (Reader fieldKey fieldsOf insertEntry readArray readKind readMap readerPart)
open Encode (Writer onField writeEntries writeFields writeItems writeKind writeMap)
open Schema (attributeOf integer? kindOf typeOf)
open Validation (fieldValue fieldView)
open Varint (encode unzigzag zigzag)

open BinaryInput BinaryOutput

variable {α β γ : Type} {place : Nat} {σ : Type} {name : String}

/-! ### Labelled bytes -/

/-- A byte of an encoding, and whether it is content of a byte string, of a text or of a fixed type.
All other bytes are numbers: values, lengths, counts and places. -/
structure Labelled where
  byte : UInt8
  isContent : Bool
deriving DecidableEq, Repr

namespace Labelled

variable {bytes : Bytes} {isContent : Bool}

def all (isContent : Bool) (bytes : Bytes) : List Labelled :=
  bytes.map fun byte => ⟨byte, isContent⟩

def bytesOf (labels : List Labelled) : Bytes := labels.map byte

@[simp] theorem bytesOf_all (isContent : Bool) (bytes : Bytes) :
    bytesOf (all isContent bytes) = bytes := by
  simp [bytesOf, all, Function.comp_def]

@[simp] theorem bytesOf_append (front back : List Labelled) :
    bytesOf (front ++ back) = bytesOf front ++ bytesOf back :=
  List.map_append

end Labelled

open Labelled

/-- An output that keeps the label of every byte. -/
structure LabelledOutput where
  labels : List Labelled
deriving DecidableEq, Repr

namespace LabelledOutput

def empty : LabelledOutput := ⟨[]⟩

def append (output : LabelledOutput) (labels : List Labelled) : LabelledOutput :=
  ⟨output.labels ++ labels⟩

theorem append_append (output : LabelledOutput) (front back : List Labelled) :
    (output.append front).append back = output.append (front ++ back) := by
  simp [append]

/-- A step of the binary format, all its bytes under one label. -/
def label (isContent : Bool) (step : WriteM BinaryOutput Unit) :
    WriteM LabelledOutput Unit := fun output =>
  match step .empty with
  | .ok _ added => .ok () (output.append (all isContent added.written))
  | .error error added => .error error (output.append (all isContent added.written))

/-- Content after its length. -/
def writeSized (datum : Datum) : WriteM LabelledOutput Unit := do
  let size ← WriteM.size datum
  label false (BinaryOutput.put (encode size))
  label true (BinaryOutput.writeRaw datum)

def writeString : Datum → WriteM LabelledOutput Unit
  | .str text => writeSized (.bytes (Text.encodeUtf8 text))
  | _ => throw .unsupported

instance : Sink LabelledOutput where
  writeNull := pure ()
  writeBoolean datum := label false (Sink.writeBoolean datum)
  writeInt datum := label false (Sink.writeInt datum)
  writeLong datum := label false (Sink.writeLong datum)
  writeFloat datum := label false (Sink.writeFloat datum)
  writeDouble datum := label false (Sink.writeDouble datum)
  writeBytes := writeSized
  writeText := writeString
  writeFixed datum := label true (BinaryOutput.writeRaw datum)
  writeEnum datum := label false (Sink.writeEnum datum)
  writeArrayStart := pure ()
  writeItemCount datum := label false (Sink.writeItemCount datum)
  writeItemEnd := pure ()
  writeArrayEnd := label false Sink.writeArrayEnd
  writeMapStart := pure ()
  writeMapEnd := label false Sink.writeMapEnd
  writeIndex datum := label false (Sink.writeIndex datum)

end LabelledOutput

/-! ### What is read from labelled bytes -/

/-- A way to tell that a step, on labelled bytes, reads values with a property. -/
structure ReadLogic where
  /-- Whether it says that reading succeeds. -/
  total : Prop
  /-- Whether it is also about bytes whose end is cut off. -/
  cut : Prop
  whole : total → ¬ cut
  holds {α : Type} : ReadM BinaryInput α → List Labelled → (α → Prop) → Prop
  pure {α : Type} {value : α} {good : α → Prop} : good value → holds (pure value) [] good
  throw {α : Type} {good : α → Prop} : ¬ total → ∀ error labels, holds (throw error) labels good
  bind {α β : Type} {first : ReadM BinaryInput α} {next : α → ReadM BinaryInput β}
    {front back : List Labelled}
    {good : α → Prop} {better : β → Prop} : holds first front good →
    (∀ value, good value → holds (next value) back better) →
    holds (first >>= next) (front ++ back) better
  orTruncated {α : Type} {step : ReadM BinaryInput α} {labels : List Labelled} {good : α → Prop} :
    holds step labels good → ∀ type, holds (Decode.orTruncated type step) labels good
  varint (number : Int) : holds readVarint (all false (encode number))
    (· = unzigzag (zigzag number))
  fixedWidth {width value : Nat} : value < 256 ^ width →
    holds (readFixedWidth width) (all false (Octets.littleEndian width value)) (· = value)
  takeSized {bytes : Bytes} : bytes.length < sizeLimit →
    holds (takeSized bytes.length) (all true bytes) fun found => ¬ cut → found = bytes
  emptyCollection {α : Type} (step : ReadM BinaryInput α) :
    holds (readBlockCount >>= fun _ => readCollection step) (all false (encode 0)) (· = [])
  oneBlock {α : Type} {step : ReadM BinaryInput α} {count : Nat} {labels : List Labelled}
    {good : List α → Prop} :
    0 < count → count < sizeLimit → holds (times step count) labels good →
    holds (readBlockCount >>= fun _ => readCollection step)
      (all false (encode count) ++ (labels ++ all false (encode 0))) good

namespace ReadLogic

variable (logic : ReadLogic) {step : ReadM BinaryInput α} {next : α → ReadM BinaryInput β}
  {labels : List Labelled} {good : α → Prop} {better : β → Prop} {bytes : Bytes}

theorem followedBy (reads : logic.holds step labels good)
    (idle : ∀ value, good value → logic.holds (next value) [] better) :
    logic.holds (step >>= next) labels better := by
  rw [← List.append_nil labels]
  exact logic.bind reads idle

theorem map {change : α → β} (reads : logic.holds step labels good)
    (changed : ∀ value, good value → better (change value)) :
    logic.holds (step >>= fun value => Pure.pure (change value)) labels better :=
  logic.followedBy reads fun value isGood => logic.pure (changed value isGood)

theorem weaken {weaker : α → Prop} (reads : logic.holds step labels good)
    (implied : ∀ value, good value → weaker value) : logic.holds step labels weaker := by
  rw [← bind_pure step]
  exact logic.map reads implied

/-- A step that is given as an outcome. -/
theorem outcome {outcome : Outcome α} (succeeds : logic.total → ∃ value, outcome = .ok value) :
    logic.holds (ReadM.lift outcome) [] (outcome = .ok ·) := by
  cases outcome with
  | ok value => exact logic.pure rfl
  | error error =>
    refine logic.throw (fun isTotal => ?_) error []
    obtain ⟨value, isOk⟩ := succeeds isTotal
    cases isOk

theorem index (small : place < sizeLimit) :
    logic.holds readVarint (all false (encode place)) (· = place) := by
  apply logic.weaken (logic.varint place)
  rintro value rfl
  unfold sizeLimit at small
  exact Varint.unzigzag_zigzag (by omega) (by omega)

theorem sized (small : bytes.length < sizeLimit) :
    logic.holds readSized (all false (encode bytes.length) ++ all true bytes) fun found =>
      ¬ logic.cut → found = bytes := by
  apply logic.bind (logic.index small)
  rintro _ rfl
  exact logic.takeSized small

theorem text {text : String} {bytes : List Labelled}
    (reads : logic.holds readSized bytes fun found => ¬ logic.cut → found = Text.encodeUtf8 text) :
    logic.holds Source.readText bytes fun found => ¬ logic.cut → found = .str text := by
  refine logic.followedBy reads fun found isWhole => ?_
  cases decoded : Text.decodeUtf8? found with
  | none =>
    refine logic.throw (fun isTotal => ?_) _ _
    rw [isWhole (logic.whole isTotal), Text.decodeUtf8_encodeUtf8] at decoded
    cases decoded
  | some other =>
    refine logic.pure fun whole => ?_
    rw [isWhole whole, Text.decodeUtf8_encodeUtf8] at decoded
    rw [Option.some.inj decoded]

theorem fixed {size : Json} (small : bytes.length < sizeLimit)
    (counts : integer? size = some (bytes.length : Int)) :
    logic.holds (readFixedSize size) (all true bytes) fun found => ¬ logic.cut →
    found = .bytes bytes := by
  have reads : readFixedSize size = BinaryInput.takeSized bytes.length >>= fun bytes =>
      Pure.pure (.bytes bytes) := by
    cases size with
    | null => cases counts
    | _ => simp only [readFixedSize, counts]
  rw [reads]
  exact logic.map (logic.takeSized small) fun found isWhole whole => by rw [isWhole whole]

end ReadLogic

/-! ### Writing with and without labels -/

/-- Whenever the step of writing succeeds, it appends bytes whose labels have a property. If labels
are asked for, the labelled step succeeds as well, after every output, and appends these labels. -/
def Labels (asked : Prop) (plain : WriteM BinaryOutput Unit) (labelled : WriteM LabelledOutput Unit)
    (property : List Labelled → Prop) : Prop :=
  ∀ output after, plain output = .ok () after → ∃ labels, after = output.append (bytesOf labels) ∧
    (asked → ∀ other, labelled other = .ok () (other.append labels)) ∧ property labels

theorem onField_ok {step : WriteM BinaryOutput Unit} {field : Json} {output after : BinaryOutput} :
    onField field step output = .ok () after ↔ step output = .ok () after := by
  unfold onField
  split
  · rename_i fields stopped isError
    simp [isError]
  · rfl

namespace Labels

variable {asked : Prop} {plain nextPlain : WriteM BinaryOutput Unit}
  {labelled nextLabelled : WriteM LabelledOutput Unit}
  {property nextProperty whole : List Labelled → Prop}

theorem throw (error : Error) : Labels asked (MonadExcept.throw error) labelled property := by
  intro output after written
  cases written

theorem pure (holds : property []) : Labels asked (Pure.pure ()) (Pure.pure ()) property := by
  intro output after written
  cases written
  refine ⟨[], rfl, fun _ other => ?_, holds⟩
  rw [LabelledOutput.append, List.append_nil]
  rfl

theorem imp (labels : Labels asked plain labelled property)
    (implied : ∀ found, property found → whole found) : Labels asked plain labelled whole := by
  intro output after written
  obtain ⟨found, appended, isLabelled, holds⟩ := labels output after written
  exact ⟨found, appended, isLabelled, implied found holds⟩

theorem both (labels : Labels asked plain labelled property)
    (nextLabels : Labels asked nextPlain nextLabelled nextProperty) :
    Labels asked (plain >>= fun _ => nextPlain) (labelled >>= fun _ => nextLabelled)
      fun found => ∃ front back, found = front ++ back ∧ property front ∧ nextProperty back := by
  intro output after written
  obtain ⟨_, between, started, written⟩ := step_bind_ok.mp written
  obtain ⟨front, frontAppended, frontLabelled, frontHolds⟩ := labels output between started
  obtain ⟨back, backAppended, backLabelled, backHolds⟩ := nextLabels between after written
  refine ⟨front ++ back, ?_, fun isAsked other => ?_, front, back, rfl, frontHolds, backHolds⟩
  · rw [backAppended, frontAppended, BinaryOutput.append_append, bytesOf_append]
  · rw [step_bind_of_ok (frontLabelled isAsked other), backLabelled isAsked,
      LabelledOutput.append_append]

theorem lift {outcome : Outcome γ} {plain : γ → WriteM BinaryOutput Unit}
    {labelled : γ → WriteM LabelledOutput Unit}
    (labels : ∀ value, outcome = .ok value → Labels asked (plain value) (labelled value) property) :
    Labels asked (WriteM.lift outcome >>= plain) (WriteM.lift outcome >>= labelled) property := by
  cases outcome with
  | ok value => exact labels value rfl
  | error error => exact throw error

theorem size {datum : Datum} {plain : Nat → WriteM BinaryOutput Unit}
    {labelled : Nat → WriteM LabelledOutput Unit}
    (labels : ∀ count, datum.size? = some count → count < sizeLimit →
      Labels asked (plain count) (labelled count) property) :
    Labels asked (WriteM.size datum >>= plain) (WriteM.size datum >>= labelled) property := by
  intro output after written
  obtain ⟨count, _, sized, written⟩ := step_bind_ok.mp written
  obtain ⟨sizeIs, small, rfl⟩ := size_ok.mp sized
  obtain ⟨found, appended, isLabelled, holds⟩ := labels count sizeIs small output after written
  refine ⟨found, appended, fun isAsked other => ?_, holds⟩
  exact (step_bind_of_ok (size_ok.mpr ⟨sizeIs, small, rfl⟩)).trans (isLabelled isAsked other)

theorem onField (labels : Labels asked plain labelled property) (field : Json) :
    Labels asked (Encode.onField field plain) (Encode.onField field labelled) property := by
  intro output after written
  obtain ⟨found, appended, isLabelled, holds⟩ := labels output after (onField_ok.mp written)
  refine ⟨found, appended, fun isAsked other => ?_, holds⟩
  unfold Encode.onField
  rw [isLabelled isAsked other]

theorem label {isContent : Bool} {step : WriteM BinaryOutput Unit} (appends : Appends step)
    (holds : ∀ added, step .empty = .ok () added → property (all isContent added.written)) :
    Labels asked step (LabelledOutput.label isContent step) property := by
  intro output after written
  rw [appends output] at written
  unfold LabelledOutput.label
  cases started : step .empty with
  | error error added =>
    rw [started] at written
    cases written
  | ok value added =>
    rw [started] at written
    cases written
    exact ⟨_, by rw [bytesOf_all], fun _ other => rfl, holds added started⟩

theorem put {isContent : Bool} {bytes : Bytes} (holds : property (all isContent bytes)) :
    Labels asked (BinaryOutput.put bytes) (LabelledOutput.label isContent (BinaryOutput.put bytes))
      property := by
  apply label (Appends.put bytes)
  rintro _ ⟨⟩
  rwa [written_append]

theorem raw (datum : Datum) :
    Labels asked (writeRaw datum) (LabelledOutput.label true (writeRaw datum))
    fun labels => ∃ content, datum.byteContent? = some content ∧ content.length < sizeLimit ∧
    labels = all true content := by
  apply label (Appends.writeRaw datum)
  intro added started
  unfold writeRaw at started
  cases contentIs : datum.byteContent? with
  | none =>
    rw [contentIs] at started
    cases started
  | some content =>
    by_cases small : content.length < sizeLimit
    · simp only [contentIs, if_pos small] at started
      rw [put_ok.mp started, written_append]
      exact ⟨content, rfl, small, rfl⟩
    · simp only [contentIs, if_neg small] at started
      cases started

end Labels

/-! ### Elementary steps -/

/-- Writing with and without labels, paired with reading what has been written. -/
def ReadLogic.Pairs (logic : ReadLogic) (plain : WriteM BinaryOutput Unit)
    (labelled : WriteM LabelledOutput Unit) (read : ReadM BinaryInput α) (good : α → Prop) : Prop :=
  Labels logic.cut plain labelled fun labels => logic.holds read labels good

section Elementary

variable (logic : ReadLogic) (datum : Datum)

private theorem pairs_integer :
    logic.Pairs (writeInteger datum) (LabelledOutput.label false (writeInteger datum)) readVarint
    fun value => ∀ number, datum = .int number → value = unzigzag (zigzag number) := by
  apply Labels.label (Appends.writeInteger datum)
  intro added started
  obtain ⟨number, numberIs, started⟩ := writeLift_bind_ok.mp started
  rw [put_ok.mp started, written_append]
  apply logic.weaken (logic.varint number)
  rintro value rfl other rfl
  cases numberIs
  rfl

theorem pairs_long : logic.Pairs (Sink.writeLong datum) (Sink.writeLong datum) Source.readLong
    fun value => ∀ number, datum = .int number → value = .int (unzigzag (zigzag number)) :=
  (pairs_integer logic datum).imp fun _ reads =>
    logic.map reads fun _ isNumber number numberIs => by
    rw [isNumber number numberIs]

theorem pairs_index (small : place < sizeLimit) :
    logic.Pairs (writeInteger (.int place)) (LabelledOutput.label false (writeInteger (.int place)))
      readVarint (· = place) :=
  Labels.put (logic.index small)

theorem pairs_boolean :
    logic.Pairs (Sink.writeBoolean datum) (Sink.writeBoolean datum) Source.readBoolean
    (· = .bool datum.truthy) := by
  have small : datum.truthy.toNat < 256 ^ 1 := by cases datum.truthy <;> decide
  have bytesAre : Octets.littleEndian 1 datum.truthy.toNat = [if datum.truthy then 1 else 0] := by
    cases datum.truthy <;> rfl
  apply Labels.put
  rw [← bytesAre]
  refine logic.map (logic.fixedWidth small) ?_
  rintro _ rfl
  cases datum.truthy <;> rfl

theorem pairs_single : logic.Pairs (Sink.writeFloat datum) (Sink.writeFloat datum) Source.readFloat
    (Former.single datum = .ok ·) := by
  apply Labels.label (Appends.writeSingle datum)
  intro added started
  obtain ⟨number, numberIs, started⟩ := writeLift_bind_ok.mp started
  cases found : number.toBinary32? with
  | none =>
    rw [found] at started
    cases started
  | some pattern =>
    rw [found] at started
    rw [put_ok.mp started, written_append]
    refine logic.map (logic.fixedWidth pattern.toNat_lt) ?_
    rintro _ rfl
    rw [UInt32.ofNat_toNat, Former.single, numberIs, outcome_ok_bind, found]
    rfl

theorem pairs_double :
    logic.Pairs (Sink.writeDouble datum) (Sink.writeDouble datum) Source.readDouble
    (Former.double datum = .ok ·) := by
  apply Labels.label (Appends.writeNumber datum)
  intro added started
  obtain ⟨number, numberIs, started⟩ := writeLift_bind_ok.mp started
  rw [put_ok.mp started, written_append]
  refine logic.map (logic.fixedWidth number.bits.toNat_lt) ?_
  rintro _ rfl
  rw [UInt64.ofNat_toNat, Former.double, numberIs]
  rfl

theorem pairs_sized :
    logic.Pairs (BinaryOutput.writeSized datum) (LabelledOutput.writeSized datum) readSized
    fun found => ∃ content, datum.byteContent? = some content ∧
    (¬ logic.cut → found = content) := by
  apply Labels.size
  intro count sizeIs small
  have counted : Labels logic.cut (BinaryOutput.put (encode count))
      (LabelledOutput.label false (BinaryOutput.put (encode count)))
        (· = all false (encode count)) := Labels.put rfl
  apply (counted.both (Labels.raw datum)).imp
  rintro _ ⟨_, _, rfl, rfl, content, contentIs, fits, rfl⟩
  have countIs : count = content.length := by
    cases datum <;> simp_all [Datum.byteContent?, Datum.size?]
  rw [countIs]
  exact logic.weaken (logic.sized fits) fun found isWhole => ⟨content, contentIs, isWhole⟩

theorem pairs_bytes : logic.Pairs (Sink.writeBytes datum) (Sink.writeBytes datum) Source.readBytes
    fun value => ∃ content, datum.byteContent? = some content ∧
    (¬ logic.cut → value = .bytes content) := by
  refine (pairs_sized logic datum).imp fun labels reads => logic.map reads ?_
  rintro found ⟨content, contentIs, isWhole⟩
  exact ⟨content, contentIs, fun whole => by rw [isWhole whole]⟩

theorem pairs_text : logic.Pairs (Sink.writeText datum) (Sink.writeText datum) Source.readText
    fun found => ¬ logic.cut → found = datum := by
  cases datum with
  | str text =>
    apply (pairs_sized logic (.bytes (Text.encodeUtf8 text))).imp
    intro labels reads
    refine logic.text (logic.weaken reads ?_)
    rintro found ⟨content, ⟨⟩, isWhole⟩
    exact isWhole
  | _ => exact Labels.throw _

end Elementary

/-! ### Collections -/

/-- What is read as an array: items, each by the writer's node and the part of the reader's. -/
theorem readArray_eq (read : Reader BinaryInput) (schema reader : Json) :
    readArray read schema reader false =
      (readBlockCount >>= fun _ => readCollection
        (ReadM.lift (attributeOf schema "items") >>= fun node =>
        ReadM.lift (readerPart reader "items") >>= fun part => read node part false)) >>=
        fun items =>
        pure (.list items) := by
  simp [readArray, Source.readArrayStart, Source.readItems, Source.readArrayEnd]

theorem readMap_eq (read : Reader BinaryInput) (schema reader : Json) :
    readMap read schema reader false =
      (readBlockCount >>= fun _ => readCollection (Source.readText >>= fun key =>
        ReadM.lift (attributeOf schema "values") >>= fun node =>
          ReadM.lift (readerPart reader "values") >>= fun part =>
            read node part false >>= fun value => pure (key, value))) >>= fun found =>
        pure (.dict (found.foldl insertEntry [])) := by
  simp [readMap, Source.readMapStart, Source.readEntries, Source.readMapEnd]

section Collections

variable {logic : ReadLogic} {write : Writer BinaryOutput} {labelled : Writer LabelledOutput}
  {read : Reader BinaryInput} {schema field node reader : Json} {datum : Datum}
  {step : ReadM BinaryInput Datum} {good : Datum → Datum → Prop}

private theorem pairs_items {items : List Datum}
    (paired : ∀ item ∈ items, logic.Pairs (write item node field) (labelled item node field) step
      (good item)) :
    logic.Pairs (writeItems write node field items) (writeItems labelled node field items)
      (times step items.length)
      (List.Forall₂ good items) := by
  induction items with
  | nil => exact Labels.pure (logic.pure .nil)
  | cons item rest ih =>
    rw [List.forall_mem_cons] at paired
    apply (paired.1.both (ih paired.2)).imp
    rintro _ ⟨front, back, rfl, readsItem, readsRest⟩
    exact logic.bind readsItem fun value isGood => logic.map readsRest fun values areGood =>
      .cons isGood areGood

private theorem pairs_entries {entries : List (Datum × Datum)}
    (paired : ∀ entry ∈ entries, logic.Pairs (write entry.2 node field)
      (labelled entry.2 node field) step (good entry.2)) :
    logic.Pairs (writeEntries write node field entries) (writeEntries labelled node field entries)
      (times (Source.readText >>= fun key => step >>= fun value => pure (key, value))
        entries.length)
      (List.Forall₂ (fun entry found => (¬ logic.cut → found.1 = entry.1) ∧ good entry.2 found.2)
        entries) := by
  induction entries with
  | nil => exact Labels.pure (logic.pure .nil)
  | cons entry rest ih =>
    rw [List.forall_mem_cons] at paired
    apply ((pairs_text logic entry.1).both (paired.1.both (ih paired.2))).imp
    rintro _ ⟨front, _, rfl, readsKey, middle, back, rfl, readsValue, readsRest⟩
    rw [← List.append_assoc]
    have readsEntry : logic.holds (Source.readText >>= fun key => step >>= fun value =>
      pure (key, value)) (front ++ middle)
        fun found => (¬ logic.cut → found.1 = entry.1) ∧ good entry.2 found.2 :=
      logic.bind readsKey fun key isKey => logic.map readsValue fun value isGood => ⟨isKey, isGood⟩
    exact logic.bind readsEntry fun found isEntry => logic.map readsRest fun others areGood =>
      .cons isEntry areGood

/-- A collection is written as an end alone, or as a count, its parts and an end. -/
theorem pairs_collection {count : Nat} {key : String} {plain : Json → WriteM BinaryOutput Unit}
    {labelled : Json → WriteM LabelledOutput Unit} {step : ReadM BinaryInput α}
    {good : List α → Prop}
    (small : count < sizeLimit) (empty : count = 0 → good [])
    (paired : ∀ node, attributeOf schema key = .ok node →
      logic.Pairs (plain node) (labelled node) (times step count) good) :
    logic.Pairs
      (if count > 0 then writeInteger (.int count) >>= fun _ =>
        WriteM.lift (attributeOf schema key) >>= fun node =>
          plain node >>= fun _ => BinaryOutput.put (encode 0)
        else BinaryOutput.put (encode 0))
      (if count > 0 then LabelledOutput.label false (writeInteger (.int count)) >>= fun _ =>
          WriteM.lift (attributeOf schema key) >>= fun node =>
            labelled node >>= fun _ => LabelledOutput.label false (BinaryOutput.put (encode 0))
        else LabelledOutput.label false (BinaryOutput.put (encode 0)))
      (readBlockCount >>= fun _ => readCollection step) good := by
  by_cases hasItems : count > 0
  · rw [if_pos hasItems, if_pos hasItems]
    have counted : Labels logic.cut (writeInteger (.int count))
      (LabelledOutput.label false (writeInteger (.int count)))
        (· = all false (encode count)) := Labels.put rfl
    have ended : Labels logic.cut (BinaryOutput.put (encode 0))
      (LabelledOutput.label false (BinaryOutput.put (encode 0)))
        (· = all false (encode 0)) := Labels.put rfl
    apply (counted.both (Labels.lift fun node nodeIs => (paired node nodeIs).both ended)).imp
    rintro _ ⟨_, _, rfl, rfl, front, _, rfl, reads, rfl⟩
    exact logic.oneBlock hasItems small reads
  · rw [if_neg hasItems, if_neg hasItems]
    refine Labels.put (logic.weaken (logic.emptyCollection step) ?_)
    rintro _ rfl
    exact empty (by omega)

theorem pairs_array (labelled : Writer LabelledOutput) (good : Json → Datum → Datum → Prop)
    (paired : ∀ node items, attributeOf schema "items" = .ok node → datum.iterated? = some items →
      ∀ item ∈ items,
      logic.Pairs (write item node field) (labelled item node field)
        (ReadM.lift (readerPart reader "items") >>= fun part => read node part false)
          (good node item)) :
    logic.Pairs (Encode.writeArray write schema field datum)
      (Encode.writeArray labelled schema field datum)
      (readArray read schema reader false) fun value =>
        ∃ items values, datum.iterated? = some items ∧ value = .list values ∧
        List.Forall₂ (fun item value => ∃ node, attributeOf schema "items" = .ok node ∧
          good node item value) items values := by
  rw [readArray_eq]
  apply Labels.size
  intro count sizeIs small
  obtain ⟨items, itemsAre, rfl⟩ := iterated?_of_size? sizeIs
  refine (pairs_collection small ?_ fun node nodeIs => ?_).imp fun labels reads =>
    logic.map reads fun values areGood => ⟨items, values, itemsAre, rfl, areGood⟩
  · intro isEmpty
    rw [List.eq_nil_of_length_eq_zero isEmpty]
    exact .nil
  · simp only [nodeIs, itemsAre, Option.getD_some, readLift_ok_bind]
    refine pairs_items fun item isItem =>
      (paired node items nodeIs itemsAre item isItem).imp fun labels reads => ?_
    exact logic.weaken reads fun value isGood => ⟨node, rfl, isGood⟩

/-- A map is written from the entries of a mapping; what is no mapping has none. -/
theorem pairs_map (labelled : Writer LabelledOutput) (good : Json → Datum → Datum → Prop)
    (paired : ∀ node entries, attributeOf schema "values" = .ok node → datum = .dict entries →
      ∀ entry ∈ entries,
      logic.Pairs (write entry.2 node field) (labelled entry.2 node field)
        (ReadM.lift (readerPart reader "values") >>= fun part => read node part false)
          (good node entry.2)) :
    logic.Pairs (writeMap write schema field datum) (writeMap labelled schema field datum)
      (readMap read schema reader false)
      fun value => ∃ found, value = .dict (found.foldl insertEntry []) ∧
      ∀ entries, datum = .dict entries →
        List.Forall₂ (fun entry pair => (¬ logic.cut → pair.1 = entry.1) ∧
          ∃ node, attributeOf schema "values" = .ok node ∧ good node entry.2 pair.2)
          entries found := by
  rw [readMap_eq]
  apply Labels.size
  intro count sizeIs small
  cases datum with
  | dict entries =>
    cases sizeIs
    refine (pairs_collection small ?_ fun node nodeIs => ?_).imp fun labels reads =>
      logic.map reads fun found areGood => ⟨found, rfl, by rintro _ ⟨⟩; exact areGood⟩
    · intro isEmpty
      rw [List.eq_nil_of_length_eq_zero isEmpty]
      exact .nil
    · simp only [nodeIs, readLift_ok_bind, ← bind_assoc]
      have entriesPaired := pairs_entries fun entry isEntry =>
        paired node entries nodeIs rfl entry isEntry
      refine entriesPaired.imp fun labels reads => logic.weaken reads fun found areGood => ?_
      exact areGood.imp fun entry pair isGood => ⟨isGood.1, node, rfl, isGood.2⟩
  | _ =>
    refine (pairs_collection small ?_ fun node nodeIs => Labels.throw _).imp fun labels reads =>
      logic.map reads fun found (_ : True) => ⟨found, rfl, by simp⟩
    exact fun _ => trivial

end Collections

/-! ### Records, unions and symbols -/

/-- A reader of fields looks for the type and the name of a field where its view has them. -/
theorem attributes_of_fieldView {node : Json} {view : Validation.FieldView}
    (viewIs : fieldView node = .ok view) :
    attributeOf node "type" = .ok view.type ∧ attributeOf node "name" = .ok view.name := by
  cases node with
  | obj members =>
    obtain ⟨nameIs, typeIs, -⟩ := fieldView_ok viewIs
    exact ⟨typeIs, nameIs⟩
  | _ => simp [fieldView] at viewIs

section Records

variable {logic : ReadLogic} {write : Writer BinaryOutput} {labelled : Writer LabelledOutput}
  {read : Reader BinaryInput} {schema field reader : Json} {datum : Datum}
  {good : Json → Datum → Datum → Prop} {entries : List (Datum × Datum)}

/-- Fields are read one after the other into a record, under their names. -/
theorem pairs_fields {nodes : List Json}
    (paired : ∀ node ∈ nodes, ∀ view, fieldView node = .ok view →
      logic.Pairs (write (fieldValue entries view.name view.default) view.type view.name)
        (labelled (fieldValue entries view.name view.default) view.type view.name)
          (read view.type .null false)
        (good view.type (fieldValue entries view.name view.default))) :
    Labels logic.cut (writeFields write (.dict entries) nodes)
      (writeFields labelled (.dict entries) nodes) fun labels =>
      ∀ record, logic.holds (Decode.readFields read false record nodes) labels fun result =>
        ∃ found : List (Json × Datum),
        List.Forall₂ (fun node pair => ∃ view, fieldView node = .ok view ∧ view.name = pair.1 ∧
          good view.type (fieldValue entries view.name view.default) pair.2) nodes found ∧
        result = found.foldl (fun record pair => Decode.insertField record pair.1 pair.2)
          record := by
  induction nodes with
  | nil => exact Labels.pure fun record => logic.pure ⟨[], .nil, rfl⟩
  | cons node rest ih =>
    rw [List.forall_mem_cons] at paired
    cases node with
    | obj members =>
      apply Labels.lift
      intro name nameIs
      apply Labels.lift
      intro _ present
      apply Labels.lift
      intro type typeIs
      have isKey := keyOf_of_checkPresence present
      have viewIs : fieldView (.obj members) =
          .ok ⟨name, (Members.get? members "default").getD .null, type⟩ := by
        simp only [fieldView, nameIs, isKey, typeIs, outcome_ok_bind]
        rfl
      have keyIs : fieldKey (.obj members) = .ok name := outcome_bind_ok.mpr ⟨name, nameIs, isKey⟩
      apply ((paired.1 _ viewIs).both (ih paired.2)).imp
      rintro _ ⟨front, back, rfl, readsValue, readsRest⟩ record
      rw [Decode.readFields, (attributes_of_fieldView viewIs).1, readLift_ok_bind, keyIs]
      refine logic.bind readsValue fun value isGood => logic.weaken (readsRest _) ?_
      rintro _ ⟨found, areGood, rfl⟩
      exact ⟨(name, value) :: found, .cons ⟨_, viewIs, rfl, isGood⟩ areGood, rfl⟩
    | _ => exact Labels.throw _

/-- Only a record without fields is written for what is no mapping. -/
theorem pairs_record (labelled : Writer LabelledOutput) (good : Json → Datum → Datum → Prop)
    (skip : Json → ReadM BinaryInput Unit) (paired : ∀ nodes entries, fieldsOf schema = .ok nodes →
      datum = .dict entries → ∀ node ∈ nodes, ∀ view,
      fieldView node = .ok view →
      logic.Pairs (write (fieldValue entries view.name view.default) view.type view.name)
        (labelled (fieldValue entries view.name view.default) view.type view.name)
          (read view.type .null false)
        (good view.type (fieldValue entries view.name view.default))) :
    logic.Pairs (Encode.writeRecord write schema datum) (Encode.writeRecord labelled schema datum)
      (Decode.readRecord read skip schema .null false) fun result =>
        ∀ entries, datum = .dict entries →
        ∃ nodes, ∃ found : List (Json × Datum), fieldsOf schema = .ok nodes ∧
          List.Forall₂ (fun node pair => ∃ view, fieldView node = .ok view ∧ view.name = pair.1 ∧
            good view.type (fieldValue entries view.name view.default) pair.2) nodes found ∧
          result = .dict (found.foldl
            (fun record pair => Decode.insertField record pair.1 pair.2) []) := by
  apply Labels.lift
  intro listed listedIs
  apply Labels.lift
  intro nodes nodesAre
  have found : fieldsOf schema = .ok nodes := outcome_bind_ok.mpr ⟨listed, listedIs, nodesAre⟩
  have reads : (Decode.readRecord read skip schema .null false : ReadM BinaryInput Datum) =
      Decode.readFields read false [] nodes >>= fun record => pure (.dict record) := by
    simp only [Decode.readRecord, found, readLift_ok_bind]
  rw [reads]
  cases datum with
  | dict entries =>
    refine (pairs_fields (paired nodes entries found rfl)).imp fun labels reads =>
      logic.map (reads []) ?_
    rintro _ ⟨pairs, areGood, rfl⟩ _ ⟨⟩
    exact ⟨nodes, pairs, found, areGood, rfl⟩
  | _ =>
    cases nodes with
    | nil => exact Labels.pure (logic.map (logic.pure rfl) fun record (_ : [] = record) => by simp)
    | cons node rest =>
      cases node with
      | obj members => exact Labels.lift fun name _ => Labels.lift fun _ _ => Labels.throw _
      | _ => exact Labels.throw _

theorem pairs_union {registry : Registry} {depth : Nat} (labelled : Writer LabelledOutput)
    (good : Json → Datum → Datum → Prop)
    (paired : ∀ index value branch, Branch.choose registry depth schema field datum =
    .ok (index, value) →
      Schema.documentItemAt schema index = .ok branch →
      logic.Pairs (write value branch field) (labelled value branch field)
        (if reader.truthy = true then Decode.readResolvedBranch read schema branch reader false
          else read branch .null false)
        (good branch value)) :
    logic.Pairs (Encode.writeUnion registry depth write schema field datum)
      (Encode.writeUnion registry depth labelled schema field datum)
        (Decode.readUnion registry read schema reader false)
      fun found => ∃ index value branch, Branch.choose registry depth schema field datum =
        .ok (index, value) ∧
        Schema.documentItemAt schema index = .ok branch ∧ good branch value found := by
  apply Labels.lift
  rintro ⟨index, value⟩ chosen
  apply Labels.lift
  intro branch branchIs
  apply ((pairs_index logic (documentItemAt_ok branchIs).1).both
    (paired index value branch chosen branchIs)).imp
  rintro _ ⟨front, back, rfl, readsIndex, readsValue⟩
  apply logic.bind readsIndex
  rintro _ rfl
  simp only [branchIs, readLift_ok_bind, Bool.false_eq_true, if_false]
  exact logic.weaken readsValue fun found isGood => ⟨index, value, branch, chosen, branchIs, isGood⟩

theorem foundPlace_ok {index : Nat} {place : Option Nat} :
    Schema.foundPlace place = .ok index ↔ place = some index ∧ index < sizeLimit := by
  cases place with
  | none => simp [Schema.foundPlace]
  | some position =>
    by_cases small : position < sizeLimit
    · simp only [Schema.foundPlace, if_pos small, Except.ok.injEq, Option.some.injEq]
      constructor
      · rintro rfl
        exact ⟨rfl, small⟩
      · exact And.left
    · simp only [Schema.foundPlace, if_neg small, Option.some.injEq, reduceCtorEq, false_iff]
      rintro ⟨rfl, isSmall⟩
      exact small isSmall

private theorem symbolIndex_lt {symbols : Json} {index : Nat}
    (found : Schema.symbolIndex symbols datum = .ok index) : index < sizeLimit := by
  unfold Schema.symbolIndex at found
  split at found
  · exact (foundPlace_ok.mp found).2
  · exact (foundPlace_ok.mp found).2
  · cases found
  · cases found

/-- A symbol is read by its place, if there is something at that place. -/
theorem pairs_symbol (labelled : Writer LabelledOutput)
    (known : logic.total → ∀ symbols index, attributeOf schema "symbols" = .ok symbols →
      Schema.symbolIndex symbols datum = .ok index →
      ∃ symbol value, Schema.documentItemAt symbols index = .ok symbol ∧
        Decode.resolveSymbol symbol reader = .ok value)
    (registry : Registry) (depth : Nat) (skip : Json → ReadM BinaryInput Unit) :
    logic.Pairs (writeKind registry depth write schema field datum .enum)
      (writeKind registry depth labelled schema field datum .enum)
        (readKind registry read skip schema reader false .enum)
      fun value => ∃ symbols index symbol, attributeOf schema "symbols" = .ok symbols ∧
        Schema.symbolIndex symbols datum = .ok index ∧
        Schema.documentItemAt symbols index = .ok symbol ∧
        Decode.resolveSymbol symbol reader = .ok value := by
  apply Labels.lift
  intro symbols symbolsAre
  apply Labels.lift
  intro index indexIs
  apply (pairs_index logic (symbolIndex_lt indexIs)).imp
  intro labels readsIndex
  simp only [readKind, symbolsAre, readLift_ok_bind]
  apply logic.followedBy readsIndex
  rintro _ rfl
  refine logic.followedBy (logic.outcome fun isTotal => ?_) fun symbol symbolIs =>
    logic.weaken (logic.outcome fun isTotal => ?_) fun value valueIs =>
      ⟨symbols, index, symbol, rfl, indexIs, symbolIs, valueIs⟩
  · obtain ⟨symbol, -, symbolIs, -⟩ := known isTotal symbols index symbolsAre indexIs
    exact ⟨symbol, symbolIs⟩
  · obtain ⟨other, value, otherIs, valueIs⟩ := known isTotal symbols index symbolsAre indexIs
    rw [otherIs] at symbolIs
    cases symbolIs
    exact ⟨value, valueIs⟩

end Records

/-! ### One level -/

theorem kindOf_ok {schema : Json} {kind : Kind} (kindIs : kindOf schema = .ok kind) :
    ∃ type, typeOf schema = .ok type ∧ Kind.ofType type = .ok kind := by
  unfold kindOf at kindIs
  split at kindIs
  · rename_i type typeIs
    exact ⟨type, typeIs, kindIs⟩
  · simp at kindIs

section Level

variable {registry : Registry} {depth : Nat} {schema field : Json} {given : Datum} {kind : Kind}
  {logic : ReadLogic} {good better : Datum → Prop}

/-- Writing by a node of a built-in kind is preparing the value and writing it by that kind. -/
theorem write_builtIn [Sink σ] (kindIs : kindOf schema = .ok kind) (builtIn : kind.isBuiltIn = true)
    (notRequest : kind ≠ .request) :
    (Encode.write registry (depth + 1) given schema field : WriteM σ Unit) =
      WriteM.lift (Logical.prepareFor schema given) >>= fun datum =>
        onField field (writeKind registry depth (Encode.write registry depth) schema field
          datum kind) := by
  obtain ⟨type, typeIs, ofTypeIs⟩ := kindOf_ok kindIs
  rw [Encode.write, typeIs]
  change (WriteM.lift (Kind.ofType type) >>= _) = _
  rw [ofTypeIs]
  cases kind with
  | named name => exact absurd builtIn Bool.false_ne_true
  | foreign value => exact absurd builtIn Bool.false_ne_true
  | request => exact absurd rfl notRequest
  | _ => rfl

theorem write_succ [Sink σ] {datum : Datum} (prepared : Logical.prepareFor schema given = .ok datum)
    (kindIs : kindOf schema = .ok kind) (builtIn : kind.isBuiltIn = true)
    (notRequest : kind ≠ .request) :
    (Encode.write registry (depth + 1) given schema field : WriteM σ Unit) =
      onField field (writeKind registry depth (Encode.write registry depth) schema field
        datum kind) := by
  rw [write_builtIn kindIs builtIn notRequest, prepared]
  rfl

theorem write_named [Sink σ] (kindIs : kindOf schema = .ok (.named name)) :
    (Encode.write registry (depth + 1) given schema field : WriteM σ Unit) =
      WriteM.lift (Schema.resolve registry name) >>= fun definition =>
        Encode.write registry depth given definition (.str "") := by
  obtain ⟨type, typeIs, ofTypeIs⟩ := kindOf_ok kindIs
  rw [Encode.write, typeIs]
  change (WriteM.lift (Kind.ofType type) >>= _) = _
  rw [ofTypeIs]
  rfl

/-- Reading by a node of a built-in kind, without a reader's schema, is reading by that kind and
finishing the value. -/
theorem ReadLogic.read_builtIn {labels : List Labelled} (kindIs : kindOf schema = .ok kind)
    (builtIn : kind.isBuiltIn = true)
    (reads : logic.holds (readKind registry (Decode.read registry depth)
      (Decode.skip registry depth) schema .null false
      kind) labels good)
    (finished : ∀ type value, good value →
      logic.holds (ReadM.lift (Decode.finish schema .null type value)) [] better) :
    logic.holds (Decode.read registry (depth + 1) schema .null false) labels better := by
  obtain ⟨type, typeIs, ofTypeIs⟩ := kindOf_ok kindIs
  rw [Decode.read, typeIs, readLift_ok_bind, ofTypeIs, readLift_ok_bind]
  have whole := logic.followedBy (logic.orTruncated reads type) (finished type)
  cases kind with
  | named name => exact absurd builtIn Bool.false_ne_true
  | foreign value => exact absurd builtIn Bool.false_ne_true
  | _ => exact whole

theorem pairs_builtIn (kindIs : kindOf schema = .ok kind) (builtIn : kind.isBuiltIn = true)
    (notRequest : kind ≠ .request)
    (paired : ∀ datum, Logical.prepareFor schema given = .ok datum →
      logic.Pairs (writeKind registry depth (Encode.write registry depth) schema field datum kind)
        (writeKind registry depth (Encode.write registry depth) schema field datum kind)
        (readKind registry (Decode.read registry depth) (Decode.skip registry depth) schema .null
          false kind) good)
    (finished : ∀ type value, good value →
      logic.holds (ReadM.lift (Decode.finish schema .null type value)) [] better) :
    logic.Pairs (Encode.write registry (depth + 1) given schema field)
      (Encode.write registry (depth + 1) given schema field)
      (Decode.read registry (depth + 1) schema .null false) better := by
  rw [write_builtIn kindIs builtIn notRequest, write_builtIn kindIs builtIn notRequest]
  apply Labels.lift
  intro datum prepared
  exact ((paired datum prepared).onField field).imp fun labels reads =>
    logic.read_builtIn kindIs builtIn reads finished

theorem pairs_named (kindIs : kindOf schema = .ok (.named name))
    (paired : ∀ definition, Schema.resolve registry name = .ok definition →
      logic.Pairs (Encode.write registry depth given definition (.str ""))
        (Encode.write registry depth given definition (.str ""))
        (Decode.read registry depth definition .null false) good) :
    logic.Pairs (Encode.write registry (depth + 1) given schema field)
      (Encode.write registry (depth + 1) given schema field)
      (Decode.read registry (depth + 1) schema .null false) good := by
  obtain ⟨type, typeIs, ofTypeIs⟩ := kindOf_ok kindIs
  rw [write_named kindIs, write_named kindIs]
  apply Labels.lift
  intro definition resolved
  refine (paired definition resolved).imp fun labels reads => ?_
  rw [Decode.read, typeIs, readLift_ok_bind, ofTypeIs, readLift_ok_bind]
  change logic.holds (ReadM.lift (Schema.resolve registry name) >>= _) _ _
  rw [resolved]
  exact reads

end Level

end Avro
