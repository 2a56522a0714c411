import Avro.Schema.Parse

/-!
Contract: a series of parses against one registry.

Owns: the results of earlier steps, which later steps may take as their schema. The mark of a result
refers to the registry that it was parsed with, so it shows what later steps add to that registry. A
result that is marked is taken as it is when it is parsed again, so its mark goes on to refer to the
first registry.
-/

namespace Avro.Schema

mutual

def Draft.isMarked : Draft → Bool
  | .plain _ => false
  | .marked _ => true
  | .branches drafts => Draft.anyMarked drafts

def Draft.anyMarked : List Draft → Bool
  | [] => false
  | draft :: rest => draft.isMarked || Draft.anyMarked rest

end

/-- A parsed schema with the registry that its mark refers to: its own, or the shared one if
absent. -/
structure StepResult where
  draft : Draft
  own : Option Registry
deriving Inhabited

/-- The schema that a step parses: a new one, or the result of an earlier step. -/
inductive StepInput where
  | fresh (schema : Json)
  | earlier (index : Nat)

/-- The shared registry and the results so far; a step that failed has none. -/
structure Session where
  registry : Registry
  results : List (Option StepResult)
deriving Inhabited

namespace Session

def start : Session := ⟨[], []⟩

def schemaOf (session : Session) (result : StepResult) : Json :=
  result.draft.seal (result.own.getD session.registry)

/-- Performs one step; `shared` tells whether it uses the shared registry. -/
def step (session : Session) (input : StepInput) (options : ParseOptions) (shared : Bool) :
    Outcome Json × Session :=
  let earlier := match input with
    | .fresh _ => none
    | .earlier index => (session.results[index]?).join
  let schema := match input, earlier with
    | .fresh schema, _ => some schema
    | .earlier _, some result => some (session.schemaOf result)
    | .earlier _, none => none
  match schema with
  | none => (.error .indexOutOfRange, { session with results := session.results ++ [none] })
  | some schema =>
    match parseTop options schema (if shared then session.registry else []) with
    | .error error registry =>
      (.error error,
        { registry := if shared then registry else session.registry,
          results := session.results ++ [none] })
    | .ok draft registry =>
      let parsed : StepResult := ⟨draft, if shared then none else some registry⟩
      let result := match earlier with
        | some before =>
          if before.draft.isMarked && !options.force && !options.expand then before else parsed
        | none => parsed
      let after : Session :=
        { registry := if shared then registry else session.registry,
          results := session.results ++ [some result] }
      (.ok (after.schemaOf result), after)

def names (session : Session) : List String :=
  (Members.keys session.registry).mergeSort fun left right => decide (left ≤ right)

end Session

end Avro.Schema
