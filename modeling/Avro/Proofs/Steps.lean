import Avro.Decode.Source
import Avro.Encode.Sink
import Avro.Schema.Parse
import Mathlib

/-!
Contract: how a composed operation succeeds.

Owns: the elimination rules that split a successful outcome, or a successful step of reading,
writing or parsing, into the successes of its parts.

A step is a function of a state that yields a result with the state after it, so the rules name the
state between the parts as well. Every later module takes operations apart by these rules and does
not unfold the monads.
-/

namespace Avro

variable {σ α β : Type}
variable {value result : α} {error : Error} {state after between : σ} {next : α → EStateM Error σ β}
  {first : EStateM Error σ α} {outcome : Outcome α}

theorem outcome_bind_ok {first : Outcome α} {next : α → Outcome β} {result : β} :
    first >>= next = .ok result ↔ ∃ value, first = .ok value ∧ next value = .ok result := by
  cases first with
  | error error => simp [bind, Except.bind]
  | ok value => simp [bind, Except.bind]

theorem outcome_map_ok {first : Outcome α} {change : α → β} {result : β} :
    change <$> first = .ok result ↔ ∃ value, first = .ok value ∧ change value = result := by
  cases first with
  | error error => simp [Functor.map, Except.map]
  | ok value => simp [Functor.map, Except.map]

@[simp] theorem outcome_ok_bind {next : α → Outcome β} :
    (Except.ok value : Outcome α) >>= next = next value :=
  rfl
@[simp] theorem outcome_pure_ok : (pure value : Outcome α) = .ok result ↔ value = result := by
  simp [pure, Except.pure]

@[simp] theorem outcome_throw_ok : (throw error : Outcome α) = .ok result ↔ False := by
  simp [throw, throwThe, MonadExceptOf.throw]

/-- A step after another one succeeds through a state between the two. -/
theorem step_bind_ok {result : β} :
    (first >>= next) state = .ok result after ↔
      ∃ value between, first state = .ok value between ∧ next value between = .ok result after := by
  change EStateM.bind first next state = _ ↔ _
  unfold EStateM.bind
  cases first state with
  | error error between => simp
  | ok value between =>
    constructor
    · intro done
      exact ⟨value, between, rfl, done⟩
    · rintro ⟨_, _, started, done⟩
      cases started
      exact done

theorem step_bind_of_ok (done : first state = .ok value between) :
    (first >>= next) state = next value between := by
  change EStateM.bind first next state = _
  rw [EStateM.bind, done]

/-- Nothing is done after a step that has failed. -/
theorem step_bind_of_error (failed : first state = .error error between) :
    (first >>= next) state = .error error between := by
  change EStateM.bind first next state = _
  rw [EStateM.bind, failed]

@[simp] theorem step_pure_ok :
    (pure value : EStateM Error σ α) state = .ok result after ↔ value = result ∧ state = after := by
  change EStateM.Result.ok value state = _ ↔ _
  simp

@[simp] theorem step_throw_ok :
    (throw error : EStateM Error σ α) state = .ok result after ↔ False := by
  change EStateM.Result.error error state = _ ↔ _
  simp

@[simp] theorem readLift_ok :
    ReadM.lift outcome state = .ok result after ↔ outcome = .ok result ∧ state = after := by
  cases outcome with
  | error error => simp [ReadM.lift]
  | ok value => simp [ReadM.lift]

@[simp] theorem writeLift_ok :
    WriteM.lift outcome state = .ok result after ↔ outcome = .ok result ∧ state = after := by
  cases outcome with
  | error error => simp [WriteM.lift]
  | ok value => simp [WriteM.lift]

@[simp] theorem parseLift_ok {state after : Schema.ParseState} :
    Schema.ParseM.lift outcome state = .ok result after ↔ outcome = .ok result ∧ state = after := by
  cases outcome with
  | error error => simp [Schema.ParseM.lift]
  | ok value => simp [Schema.ParseM.lift]

section Bind

variable {result : β}

theorem readLift_bind_ok {next : α → ReadM σ β} :
    (ReadM.lift outcome >>= next) state = .ok result after ↔
      ∃ value, outcome = .ok value ∧ next value state = .ok result after := by
  simp [step_bind_ok, and_assoc]

theorem writeLift_bind_ok {next : α → WriteM σ β} :
    (WriteM.lift outcome >>= next) state = .ok result after ↔
      ∃ value, outcome = .ok value ∧ next value state = .ok result after := by
  simp [step_bind_ok, and_assoc]

theorem parseLift_bind_ok {state after : Schema.ParseState} {next : α → Schema.ParseM β} :
    (Schema.ParseM.lift outcome >>= next) state = .ok result after ↔
      ∃ value, outcome = .ok value ∧ next value state = .ok result after := by
  simp [step_bind_ok, and_assoc]

end Bind

/-- All items are changed to values if each one is changed to the value at its place. -/
theorem mapM_ok {ε : Type} {form : α → Except ε β} {items : List α} {values : List β} :
    items.mapM form = .ok values ↔
    List.Forall₂ (fun item value => form item = .ok value) items values := by
  induction items generalizing values with
  | nil => simp [pure, Except.pure, eq_comm]
  | cons item rest ih =>
    rw [List.mapM_cons, List.forall₂_cons_left_iff]
    simp only [← ih]
    cases form item with
    | error error => simp [bind, Except.bind]
    | ok value =>
      cases rest.mapM form with
      | error error => simp [bind, Except.bind]
      | ok others => simp [bind, Except.bind, pure, Except.pure, eq_comm]

/-- A step that is given as an outcome passes its value on, and leaves the state as it is. -/
@[simp] theorem readLift_ok_bind {next : α → ReadM σ β} :
    ReadM.lift (.ok value) >>= next = next value := by
  rfl

/-- Two continuations of a step may be exchanged if they go alike on what the step can give. -/
theorem step_bind_congr {next other : α → EStateM Error σ β}
    (agree : ∀ state value after, first state = .ok value after →
      next value after = other value after) :
    first >>= next = first >>= other := by
  funext state
  change EStateM.bind first next state = EStateM.bind first other state
  unfold EStateM.bind
  cases done : first state with
  | error error after => rfl
  | ok value after => exact agree state value after done

theorem readLift_bind_congr {next other : α → ReadM σ β}
    (agree : ∀ value, outcome = .ok value → next value = other value) :
    ReadM.lift outcome >>= next = ReadM.lift outcome >>= other :=
  step_bind_congr fun _ value after done => congrFun (agree value (readLift_ok.mp done).1) after

theorem writeLift_bind_congr {next other : α → WriteM σ β}
    (agree : ∀ value, outcome = .ok value → next value = other value) :
    WriteM.lift outcome >>= next = WriteM.lift outcome >>= other :=
  step_bind_congr fun _ value after done => congrFun (agree value (writeLift_ok.mp done).1) after

end Avro
