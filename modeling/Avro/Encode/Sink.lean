import Avro.Error

/-!
Contract: where values are written to.

Owns: the elementary steps that a format offers to the writer of values. A step may fail, and what
was written before a failure stays written.
-/

namespace Avro

/-- A step of writing: it changes the state of the output, also if it fails. -/
abbrev WriteM (σ α : Type) := EStateM Error σ α

def WriteM.lift {σ α : Type} : Outcome α → WriteM σ α
  | .ok value => pure value
  | .error error => throw error

def WriteM.size {σ : Type} (datum : Datum) : WriteM σ Nat :=
  match datum.size? with
  | some count => if count < Datum.sizeLimit then pure count else throw .overflow
  | none => throw (.wrongType [])

/-- The elementary steps of a format whose output has state `σ`. -/
class Sink (σ : Type) where
  writeNull : WriteM σ Unit
  writeBoolean : Datum → WriteM σ Unit
  writeInt : Datum → WriteM σ Unit
  writeLong : Datum → WriteM σ Unit
  writeFloat : Datum → WriteM σ Unit
  writeDouble : Datum → WriteM σ Unit
  writeBytes : Datum → WriteM σ Unit
  writeText : Datum → WriteM σ Unit
  writeFixed : Datum → WriteM σ Unit
  writeEnum : Datum → WriteM σ Unit
  writeArrayStart : WriteM σ Unit
  writeItemCount : Datum → WriteM σ Unit
  writeItemEnd : WriteM σ Unit
  writeArrayEnd : WriteM σ Unit
  writeMapStart : WriteM σ Unit
  writeMapEnd : WriteM σ Unit
  writeIndex : Datum → WriteM σ Unit

end Avro
