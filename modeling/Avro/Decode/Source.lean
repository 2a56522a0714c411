import Avro.Error

/-!
Contract: where values are read from.

Owns: the elementary steps that a format offers to the reader of values. A step may fail, and what
it has consumed before a failure stays consumed.
-/

namespace Avro

/-- A step of reading: it changes the state of the input, also if it fails. -/
abbrev ReadM (σ α : Type) := EStateM Error σ α

def ReadM.lift {σ α : Type} : Outcome α → ReadM σ α
  | .ok value => pure value
  | .error error => throw error

/-- The elementary steps of a format whose input has state `σ`. -/
class Source (σ : Type) where
  readNull : ReadM σ Datum
  readBoolean : ReadM σ Datum
  readInt : ReadM σ Datum
  readLong : ReadM σ Datum
  readFloat : ReadM σ Datum
  readDouble : ReadM σ Datum
  readBytes : ReadM σ Datum
  readText : ReadM σ Datum
  readFixed : Json → ReadM σ Datum
  readEnum : ReadM σ Int
  readArrayStart : ReadM σ Unit
  readItems {α : Type} : ReadM σ α → ReadM σ (List α)
  readArrayEnd : ReadM σ Unit
  readMapStart : ReadM σ Unit
  readEntries {α : Type} : ReadM σ α → ReadM σ (List α)
  readMapEnd : ReadM σ Unit
  readIndex : ReadM σ Int

end Avro
