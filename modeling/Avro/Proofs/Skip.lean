import Avro.Proofs.Progress

/-!
Contract: passing over a value ends where reading it ends.

Owns: `EndsAs`, the relation between two steps of reading of which the second ends wherever the
first one does, and that skipping is so related to reading, for every writer's schema and every
reader's schema.
-/

namespace Avro

variable {σ α β : Type}

/-- Whenever the first step succeeds, the second succeeds from the same state, and leaves the same
state. -/
def EndsAs (first : ReadM σ α) (second : ReadM σ β) : Prop :=
  ∀ input value after, first input = .ok value after → ∃ other, second input = .ok other after

theorem read_endsAs_skip (registry : Registry) (depth : Nat) (writer reader : Json) (named : Bool) :
    EndsAs (Decode.read registry depth writer reader named : ReadM BinaryInput Datum)
      (Decode.skip registry depth writer) :=
  fun _ _ _ done => ((Decode.follows_read registry depth writer reader named).ok le_rfl done).2

/-- Skipping and resolving never change where the input ends up. If a value of the writer's schema
is read from an input, with any reader's schema or none, then passing over the value succeeds from
that input and leaves the same input; and so does reading with any other reader's schema, if it
succeeds. -/
theorem skip_of_read {registry : Registry} {depth : Nat} {writer reader : Json} {named : Bool}
    {input after : BinaryInput} {value : Datum}
    (done : Decode.read registry depth writer reader named input = .ok value after) :
    Decode.skip registry depth writer input = .ok () after ∧
      ∀ otherReader otherNamed otherValue otherAfter,
        Decode.read registry depth writer otherReader otherNamed input = .ok otherValue otherAfter →
        otherAfter = after := by
  obtain ⟨_, skipped⟩ := read_endsAs_skip registry depth writer reader named input value after done
  refine ⟨skipped, ?_⟩
  intro otherReader otherNamed otherValue otherAfter otherDone
  obtain ⟨_, otherSkipped⟩ :=
    read_endsAs_skip registry depth writer otherReader otherNamed input otherValue _ otherDone
  rw [skipped] at otherSkipped
  cases otherSkipped
  rfl

/-- A writer's record of numbers and a label. -/
def labelledNumbers : Json :=
  .obj [("type", .str "record"), ("name", .str "Labelled"),
    ("fields", .arr [.obj [("name", .str "numbers"),
      ("type", .obj [("type", .str "array"), ("items", .str "long")])],
      .obj [("name", .str "label"), ("type", .str "string")]])]

def labelAlone : Json :=
  .obj [("type", .str "record"), ("name", .str "Labelled"),
    ("fields", .arr [.obj [("name", .str "title"), ("type", .str "string"),
      ("aliases", .arr [.str "label"])],
      .obj [("name", .str "edition"), ("type", .str "int"), ("default", .int 7)]])]

/-- A labelled record, whose numbers stand in a block with a size, and a byte after it. -/
def labelledInput : BinaryInput := .ofBytes [1, 2, 6, 0, 4, 104, 105, 255]

theorem skip_of_read_labelledInput :
    Decode.skip [] Schema.depthLimit labelledNumbers labelledInput =
      .ok () (BinaryInput.mk [255] (some 0)) ∧
      ∀ otherReader otherNamed otherValue otherAfter,
        Decode.read [] Schema.depthLimit labelledNumbers otherReader otherNamed labelledInput =
          .ok otherValue otherAfter →
          otherAfter = BinaryInput.mk [255] (some 0) := by
  have done : Decode.read [] Schema.depthLimit labelledNumbers labelAlone false labelledInput =
      .ok (.dict [(.str "title", .str "hi"), (.str "edition", .int 7)])
        (BinaryInput.mk [255] (some 0)) := by cbv
  exact skip_of_read done

end Avro
