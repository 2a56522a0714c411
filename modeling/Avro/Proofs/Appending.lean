import Avro.Encode.Datum
import Avro.Proofs.Transfer

/-!
Contract: writing only appends.

Owns: `Appends`, the steps of writing that neither change nor look at what has been written before,
and that every value is written by such a step: its bytes are the same after every output.
-/

namespace Avro

open BinaryOutput

variable {α β : Type}

/-- A result of writing to an empty output, moved behind another output. -/
def BinaryOutput.behind (output : BinaryOutput) :
    EStateM.Result Error BinaryOutput α → EStateM.Result Error BinaryOutput α
  | .ok value after => .ok value (output.append after.written)
  | .error error after => .error error (output.append after.written)

theorem BinaryOutput.behind_behind (output between : BinaryOutput)
    (result : EStateM.Result Error BinaryOutput α) :
    output.behind (between.behind result) = (output.append between.written).behind result := by
  cases result with
  | ok value after => simp [behind, append_append]
  | error error after => simp [behind, append_append]

def Appends (step : WriteM BinaryOutput α) : Prop :=
  ∀ output, step output = output.behind (step .empty)

namespace Appends

theorem pure (value : α) : Appends (Pure.pure value) := fun _ => rfl

theorem throw (error : Error) : Appends (MonadExcept.throw error : WriteM BinaryOutput α) :=
  fun _ => rfl

/-- Bytes that are put stand at the end of the output. -/
theorem put (bytes : Bytes) : Appends (BinaryOutput.put bytes) := by
  intro output
  change EStateM.Result.ok () (output.append bytes) =
    .ok () (output.append (empty.append bytes).written)
  rw [written_append, written_empty, List.nil_append]

theorem lift (outcome : Outcome α) : Appends (WriteM.lift outcome) := by
  cases outcome with
  | ok value => exact pure value
  | error error => exact throw error

/-- Steps that append, one after the other, append together. -/
theorem bind {first : WriteM BinaryOutput α} {next : α → WriteM BinaryOutput β}
    (firstAppends : Appends first) (nextAppends : ∀ value, Appends (next value)) :
    Appends (first >>= next) := by
  intro output
  change EStateM.bind first next output = output.behind (EStateM.bind first next .empty)
  unfold EStateM.bind
  rw [firstAppends output]
  cases first .empty with
  | error error after => rfl
  | ok value between =>
    change next value (output.append between.written) = output.behind (next value between)
    rw [nextAppends value between, nextAppends value (output.append between.written), behind_behind]

theorem size (datum : Datum) : Appends (WriteM.size datum) := by
  unfold WriteM.size
  split
  · split
    · exact pure _
    · exact throw _
  · exact throw _

/-! ### Elementary steps -/

theorem writeInteger (datum : Datum) : Appends (BinaryOutput.writeInteger datum) :=
  (lift _).bind fun _ => put _

theorem writeSingle (datum : Datum) : Appends (BinaryOutput.writeSingle datum) := by
  refine (lift _).bind fun number => ?_
  split
  · exact put _
  · exact throw _

theorem writeNumber (datum : Datum) : Appends (BinaryOutput.writeNumber datum) :=
  (lift _).bind fun _ => put _

theorem writeRaw (datum : Datum) : Appends (BinaryOutput.writeRaw datum) := by
  unfold BinaryOutput.writeRaw
  split
  · split
    · exact put _
    · exact throw _
  · exact throw _

theorem writeSized (datum : Datum) : Appends (BinaryOutput.writeSized datum) :=
  (size datum).bind fun _ => (put _).bind fun _ => writeRaw datum

theorem writeString (datum : Datum) : Appends (BinaryOutput.writeString datum) := by
  unfold BinaryOutput.writeString
  split
  · exact writeSized _
  · exact throw _

/-! ### Values -/

variable {write : Encode.Writer BinaryOutput}

section

variable (parts : ∀ datum schema field, Appends (write datum schema field))
include parts

theorem writeItems (schema field : Json)
    (items : List Datum) : Appends (Encode.writeItems write schema field items) := by
  induction items with
  | nil => exact pure ()
  | cons item rest ih =>
    exact (parts item schema field).bind fun _ => (pure ()).bind fun _ => ih

theorem writeArray (schema field : Json)
    (datum : Datum) : Appends (Encode.writeArray write schema field datum) := by
  refine (pure ()).bind fun _ => (size datum).bind fun count => ?_
  split
  · exact (writeInteger _).bind fun _ => (lift _).bind fun items =>
      (writeItems parts items field _).bind fun _ => put _
  · exact put _

theorem writeEntries (schema field : Json) (entries : List (Datum × Datum)) :
    Appends (Encode.writeEntries write schema field entries) := by
  induction entries with
  | nil => exact pure ()
  | cons entry rest ih =>
    exact (writeString entry.1).bind fun _ => (parts entry.2 schema field).bind fun _ => ih

theorem writeMap (schema field : Json)
    (datum : Datum) : Appends (Encode.writeMap write schema field datum) := by
  refine (pure ()).bind fun _ => (size datum).bind fun count => ?_
  split
  · refine (writeInteger _).bind fun _ => (lift _).bind fun values => ?_
    split
    · exact (writeEntries parts values field _).bind fun _ => put _
    · exact (throw _).bind fun _ => put _
  · exact put _

theorem writeUnion (registry : Registry) (depth : Nat) (schema field : Json) (datum : Datum) :
    Appends (Encode.writeUnion registry depth write schema field datum) :=
  (lift _).bind fun _ => (lift _).bind fun _ => (writeInteger _).bind fun _ => parts _ _ _

theorem writeFields (datum : Datum)
    (nodes : List Json) : Appends (Encode.writeFields write datum nodes) := by
  induction nodes with
  | nil => exact pure ()
  | cons node rest ih =>
    cases node with
    | obj members =>
      refine (lift _).bind fun name => (lift _).bind fun _ => ?_
      split
      · exact (lift _).bind fun type => (parts _ type name).bind fun _ => ih
      · exact (throw _).bind fun _ => ih
    | _ => exact throw _

theorem writeRecord (schema : Json) (datum : Datum) :
    Appends (Encode.writeRecord write schema datum) :=
  (lift _).bind fun _ => (lift _).bind fun nodes => writeFields parts datum nodes

theorem writeKind (registry : Registry) (depth : Nat)
    (schema field : Json) (datum : Datum) (kind : Kind) :
    Appends (Encode.writeKind registry depth write schema field datum kind) := by
  cases kind with
  | null => exact pure ()
  | boolean => exact put _
  | string => exact writeString datum
  | int | long => exact writeInteger datum
  | float => exact writeSingle datum
  | double => exact writeNumber datum
  | bytes => exact writeSized datum
  | fixed => exact writeRaw datum
  | enum => exact (lift _).bind fun _ => (lift _).bind fun _ => writeInteger _
  | array => exact writeArray parts schema field datum
  | map => exact writeMap parts schema field datum
  | union | errorUnion => exact writeUnion parts registry depth schema field datum
  | record | error => exact writeRecord parts schema datum
  | request => exact throw _
  | named name => exact throw _
  | foreign value => exact throw _

end

theorem onField {step : WriteM BinaryOutput Unit} (appends : Appends step) (field : Json) :
    Appends (Encode.onField field step) := by
  intro output
  unfold Encode.onField
  rw [appends output]
  cases step .empty with
  | ok value after => rfl
  | error error after => cases error <;> rfl

/-- What a step appends to an output, it writes as well where nothing was written before. -/
theorem ok_empty {step : WriteM BinaryOutput α} (appends : Appends step) {output : BinaryOutput}
    {bytes : Bytes} {value : α} (done : step output = .ok value (output.append bytes)) :
    ∃ first, step .empty = .ok value first ∧ first.written = bytes := by
  rw [appends output] at done
  cases started : step .empty with
  | error error after =>
    rw [started] at done
    cases done
  | ok result first =>
    rw [started, behind, EStateM.Result.ok.injEq] at done
    obtain ⟨rfl, same⟩ := done
    have sameBytes := congrArg written same
    rw [written_append, written_append] at sameBytes
    exact ⟨first, rfl, List.append_cancel_left sameBytes⟩

end Appends

/-- Writing a datum appends the bytes that it gives on an empty output, by induction on the depth.
-/
theorem write_appends (registry : Registry) (depth : Nat) (datum : Datum) (schema field : Json) :
    Appends (Encode.write registry depth datum schema field) := by
  induction depth generalizing datum schema field with
  | zero => exact .throw _
  | succ depth ih =>
    have levels (kind : Kind) :
        Appends (WriteM.lift (Logical.prepareFor schema datum) >>= fun prepared =>
        Encode.onField field (Encode.writeKind registry depth (Encode.write registry depth) schema
          field prepared kind)) :=
      (Appends.lift _).bind fun prepared =>
        (Appends.writeKind ih registry depth schema field prepared kind).onField field
    refine (Appends.lift _).bind fun type => (Appends.lift _).bind fun kind => ?_
    cases kind with
    | named name => exact (Appends.lift _).bind fun definition => ih _ _ _
    | request => exact (Appends.lift _).bind fun definition => ih _ _ _
    | foreign value => exact .throw _
    | _ => exact levels _

end Avro
