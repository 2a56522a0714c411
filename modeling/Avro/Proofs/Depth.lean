import Avro.Encode.Branch
import Avro.Proofs.Answers

/-!
Contract: what more depth changes.

Owns: `FailsOr`, the relation of two outcomes that differ only where the first one is a given
failure, `DeepensTo`, its case for the outcomes of one operation at two depths, and that checking a
value and choosing a branch keep every outcome when the depth grows, except that they were cut
short.
-/

namespace Avro

variable {α β : Type} {first second : Outcome α}

/-- The first outcome is the given failure, or the second one is the same. -/
def FailsOr (failure : Error) (first second : Outcome α) : Prop :=
  first = .error failure ∨ second = first

namespace FailsOr

variable {failure : Error}

theorem refl (outcome : Outcome α) : FailsOr failure outcome outcome := Or.inr rfl

theorem ok {value : α} (related : FailsOr failure first second) (done : first = .ok value) :
    second = .ok value := by
  rcases related with failed | same
  · rw [done] at failed
    simp at failed
  · rw [same, done]

/-- Steps of which each fails for want of depth or agrees, one after the other, do so. -/
theorem bind {next nextSecond : α → Outcome β} (related : FailsOr failure first second)
    (nextRelated : ∀ value, FailsOr failure (next value) (nextSecond value)) :
    FailsOr failure (first >>= next) (second >>= nextSecond) := by
  rcases related with rfl | rfl
  · exact Or.inl rfl
  · cases second with
    | error error => exact Or.inr rfl
    | ok value => exact nextRelated value

end FailsOr

theorem FailsOr.mapM {failure : Error} {form formSecond : α → Outcome β}
    (related : ∀ item, FailsOr failure (form item) (formSecond item)) (items : List α) :
    FailsOr failure (items.mapM form) (items.mapM formSecond) := by
  induction items with
  | nil => exact refl _
  | cons item rest ih =>
    rw [List.mapM_cons, List.mapM_cons]
    exact (related item).bind fun first => ih.bind fun others => refl _

/-- The first outcome was cut short by the depth, or the second one is the same. -/
abbrev DeepensTo (less more : Outcome α) : Prop := FailsOr .tooDeep less more

namespace Validation

variable {failure : Error}

/-- A failure that is no refusal ends the tries. -/
theorem firstPass_failsOr {test testSecond : Json → Outcome Bool}
    {branches : List Json}
    (related : ∀ branch ∈ branches, FailsOr failure (test branch) (testSecond branch))
    (noRefusal : ∀ found, failure ≠ .refused found) (refusals : List Refusal) :
    FailsOr failure (firstPass test refusals branches)
      (firstPass testSecond refusals branches) := by
  induction branches generalizing refusals with
  | nil => exact FailsOr.refl _
  | cons branch rest ih =>
    rw [List.forall_mem_cons] at related
    have ih := ih related.2
    unfold firstPass
    rcases related.1 with failed | same
    · rw [failed]
      split
      · rename_i isOk
        cases isOk
      · rename_i isOk
        cases isOk
      · rename_i found isRefusal
        exact absurd (Except.error.inj isRefusal) (noRefusal found)
      · rename_i error _ isError
        cases isError
        exact Or.inl rfl
    · rw [same]
      split
      · exact FailsOr.refl _
      · exact ih refusals
      · exact ih _
      · exact FailsOr.refl _

/-- Checks may be compared up to a failure, as long as it is no refusal of a datum. -/
theorem answering_failsOr (noRefusal : ∀ found, failure ≠ .refused found) (strict : Bool) :
    Answering strict strict (FailsOr failure) where
  same _ := .refl _
  after {_ first _ _} _ next := by
    cases first with
    | ok value => exact next value rfl
    | error error => exact .refl _
  andThen first next := by
    refine first.bind fun passed => ?_
    cases passed with
    | true => exact next
    | false => exact .refl _
  firstPass related := (firstPass_failsOr related noRefusal []).bind fun _ => .refl _

/-- A check with one level more answers the same, unless it failed for want of depth. -/
theorem check_deepens (registry : Registry) (strict : Bool) (depth : Nat) (datum : Datum)
    (schema field : Json) :
    DeepensTo (check registry strict depth datum schema field)
      (check registry strict (depth + 1) datum schema field) := by
  induction depth generalizing datum schema field with
  | zero => exact Or.inl rfl
  | succ depth ih =>
    rw [check, check]
    refine FailsOr.bind (.refl _) fun type => FailsOr.bind (.refl _) fun prepared =>
      FailsOr.bind (.refl _) fun kind => ?_
    have answering : Answering strict strict (FailsOr .tooDeep) :=
      answering_failsOr (by simp) strict
    refine FailsOr.bind ?_ fun passed => .refl _
    exact answering.checkKind_of_parts fun value node _ inner _ => ih value node inner

end Validation

namespace Branch

private theorem search_deepens {accepts acceptsMore : Json → Outcome Bool}
    (deepens : ∀ branch, DeepensTo (accepts branch) (acceptsMore branch)) (datum : Datum)
    (best : Option Candidate) (index : Nat) (branches : List Json) :
    DeepensTo (search accepts datum best index branches)
      (search acceptsMore datum best index branches) := by
  induction branches generalizing best index with
  | nil => exact FailsOr.refl _
  | cons branch rest ih =>
    unfold search
    apply FailsOr.bind (deepens branch)
    intro accepted
    cases accepted with
    | false => exact ih best (index + 1)
    | true =>
      apply FailsOr.bind (FailsOr.refl _)
      intro isRecord
      cases isRecord with
      | false => exact FailsOr.refl _
      | true =>
        apply FailsOr.bind (FailsOr.refl _)
        intro shared
        exact ih _ (index + 1)

/-- One level more leaves the chosen branch as it is, unless the choice failed for want of depth. -/
theorem choose_deepens (registry : Registry) (depth : Nat) (schema field : Json) (datum : Datum) :
    DeepensTo (choose registry depth schema field datum)
      (choose registry (depth + 1) schema field datum) := by
  unfold choose
  apply FailsOr.bind (FailsOr.refl _)
  intro branches
  split
  · exact FailsOr.refl _
  · exact FailsOr.refl _
  · apply FailsOr.bind
    · exact search_deepens (fun branch =>
        Validation.check_deepens registry false depth datum branch .null) datum none 0 branches
    · intro found
      exact FailsOr.refl _

end Branch

end Avro
