import Avro.Validation

/-!
Contract: the branch of a union in which a value is written.

Owns: `Branch.choose`. A pair of a name and a value goes to the first branch of that name. Any other
value goes to the first branch that accepts it; but as long as only records accept it, the record
that shares the most field names with the value is preferred, and of several such records the first.
-/

namespace Avro.Branch

/-- The best record so far: its place, and how many field names it shares with the value. -/
structure Candidate where
  index : Nat
  shared : Nat
deriving DecidableEq, Repr

def sharedFields (branch : Json) (datum : Datum) : Outcome Nat := do
  let fields ← Schema.iterate (← Schema.attributeOf branch "fields")
  let names ← fields.mapM fun node => Schema.attributeOf node "name"
  let texts := (names.filterMap Json.str?).eraseDups
  match datum with
  | .dict entries => return (texts.filter fun name => (Datum.lookup entries name).isSome).length
  | _ => return 0

def search (accepts : Json → Outcome Bool) (datum : Datum) (best : Option Candidate) (index : Nat) :
    List Json → Outcome (Option Nat)
  | [] => .ok (best.map Candidate.index)
  | branch :: rest => do
    if ← accepts branch then
      if ← Schema.isRecord branch then
        let shared ← sharedFields branch datum
        let better : Bool := match best with
          | some candidate => candidate.shared < shared
          | none => true
        search accepts datum (if better then some ⟨index, shared⟩ else best) (index + 1) rest
      else return some index
    else search accepts datum best (index + 1) rest

/-- The place of the branch for a value, and the value that is written there. -/
def choose (registry : Registry) (depth : Nat) (schema field : Json) (datum : Datum) :
    Outcome (Nat × Datum) := do
  let branches ← Schema.iterate schema
  match datum with
  | .tuple [name, value] =>
    match ← Validation.findBranch name branches with
    | some (index, _) => return (index, value)
    | none => throw (.branchNotFound name schema field)
  | .tuple _ => throw .invalid
  | _ =>
    match ← search (fun branch => Validation.check registry false depth datum branch .null) datum
      none 0 branches with
    | some index => return (index, datum)
    | none => throw (.noBranch datum schema field)

end Avro.Branch
