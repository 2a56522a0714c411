import Avro.Error

/-!
Contract: series of items that may break off.

Owns: a series with its failure, and how series are put together.
-/

namespace Avro

/-- The items of a series, and the failure that breaks it off, if it does. -/
structure Series (α : Type) where
  items : List α
  failure : Option Error
deriving Repr, Inhabited

namespace Series

def ended {α : Type} : Series α := ⟨[], none⟩

def failed {α : Type} (error : Error) : Series α := ⟨[], some error⟩

def cons {α : Type} (item : α) (series : Series α) : Series α :=
  ⟨item :: series.items, series.failure⟩

/-- A series that goes on, unless it has broken off, with another. -/
def append {α : Type} (first : Series α) (second : Unit → Series α) : Series α :=
  match first.failure with
  | some error => ⟨first.items, some error⟩
  | none =>
    let rest := second ()
    ⟨first.items ++ rest.items, rest.failure⟩

end Series

/-- Within a series, data that ends where a value starts interrupts the series. -/
def interruption : Error → Error
  | .exhausted => .interrupted
  | error => error

end Avro
