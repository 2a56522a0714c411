import Avro.JsonEncoding.Grammar
import Avro.Proofs.Steps

/-!
Contract: how a walk advances through a grammar.

Owns: the silent symbols, which are passed on the way to a terminal, `runAll`, what passing them
makes of the content, `Advances`, which says where an advance ends, whatever number of symbols it
meets on its way, and `LeadsTo`, which says that pending symbols are on their way to others.

Actions are carried out late: they stay pending until the next terminal is wanted. So the content of
a walk is behind by the actions that are pending, and statements about it speak of the content after
these have run.
-/

namespace Avro.JsonEncoding

variable {symbol : Symbol} {kind stop : Terminal} {own : Option Default}

namespace Symbol

mutual

/-- Whether a symbol is passed without meeting a terminal. -/
def isSilent : Symbol → Bool
  | sequence symbols => areSilent symbols
  | unionEnd => true
  | recordStart _ => true
  | recordEnd => true
  | fieldStart _ => true
  | fieldEnd => true
  | _ => false

def areSilent : List Symbol → Bool
  | [] => true
  | symbol :: rest => isSilent symbol && areSilent rest

end

@[simp] theorem areSilent_nil : areSilent [] = true := rfl

@[simp] theorem areSilent_cons (symbol : Symbol) (rest : List Symbol) :
    areSilent (symbol :: rest) = (symbol.isSilent && areSilent rest) := rfl

@[simp] theorem areSilent_append (first second : List Symbol) :
    areSilent (first ++ second) = (areSilent first && areSilent second) := by
  induction first with
  | nil => rfl
  | cons symbol rest ih => simp [ih, Bool.and_assoc]

@[simp] theorem isSilent_sequence (symbols : List Symbol) :
    (sequence symbols).isSilent = areSilent symbols :=
  rfl

end Symbol

variable {σ : Type} (perform : Symbol → EStateM Error σ Unit)

/-! ### Silent symbols -/

def carriedOut (symbol : Symbol) (content : σ) : Option σ :=
  match perform symbol content with
  | .ok _ after => some after
  | .error _ _ => none

mutual

def runSymbol : Symbol → σ → Option σ
  | .sequence symbols, content => runAll symbols content
  | symbol, content => if WalkM.isAction symbol then carriedOut perform symbol content else none

def runAll : List Symbol → σ → Option σ
  | [], content => some content
  | symbol :: rest, content => (runSymbol symbol content).bind (runAll rest)

end

@[simp] theorem runAll_nil (content : σ) : runAll perform [] content = some content := by
  simp [runAll]

theorem runAll_cons (symbol : Symbol) (rest : List Symbol) (content : σ) :
    runAll perform (symbol :: rest) content =
      (runSymbol perform symbol content).bind (runAll perform rest) := by
  simp [runAll]

theorem runAll_append (first second : List Symbol) (content : σ) :
    runAll perform (first ++ second) content =
      (runAll perform first content).bind (runAll perform second) := by
  induction first generalizing content with
  | nil => simp
  | cons symbol rest ih =>
    rw [List.cons_append, runAll_cons, runAll_cons, Option.bind_assoc]
    congr 1
    funext between
    exact ih between

theorem runAll_append_some {first second : List Symbol} {content after : σ} :
    runAll perform (first ++ second) content = some after ↔
      ∃ between, runAll perform first content = some between ∧
        runAll perform second between = some after := by
  rw [runAll_append, Option.bind_eq_some_iff]

@[simp] theorem runAll_sequence (symbols : List Symbol) (content : σ) :
    runAll perform [.sequence symbols] content = runAll perform symbols content := by
  rw [runAll_cons, runSymbol]
  cases runAll perform symbols content with
  | none => rfl
  | some after => simp

theorem runAll_action (isAction : WalkM.isAction symbol = true) (content : σ) :
    runAll perform [symbol] content = carriedOut perform symbol content := by
  have runs : runSymbol perform symbol content = carriedOut perform symbol content := by
    cases symbol with
    | sequence symbols => cases isAction
    | _ => simp_all [runSymbol]
  rw [runAll_cons, runs]
  cases carriedOut perform symbol content with
  | none => rfl
  | some after => simp

theorem carriedOut_some {content after : σ} :
    carriedOut perform symbol content = some after ↔ perform symbol content = .ok () after := by
  unfold carriedOut
  cases perform symbol content with
  | error error between => simp
  | ok value between => simp

/-! ### Advances -/

/-- An advance to a terminal succeeds within some number of symbols. -/
def Advances (start : Symbol) (wanted : Terminal) (pending : List Symbol) (content : σ)
    (default : Option Default) (after : Walk σ) : Prop :=
  ∃ fuel, WalkM.advanceWithin perform wanted fuel ⟨start, pending, content⟩ = .ok default after

variable {perform} {start : Symbol} {wanted : Terminal} {rest : List Symbol} {content : σ}
  {default : Option Default} {after : Walk σ}

theorem advances_of_advance {walk : Walk σ}
    (advanced : WalkM.advance perform wanted walk = .ok default after) :
    Advances perform walk.start wanted walk.pending walk.content default after :=
  ⟨walk.bound, advanced⟩

theorem advances_cons : Advances perform start wanted (symbol :: rest) content default after ↔
      ∃ fuel, WalkM.advanceWithin perform wanted (fuel + 1) ⟨start, symbol :: rest, content⟩ =
        .ok default after := by
  constructor
  · rintro ⟨fuel, advanced⟩
    cases fuel with
    | zero => cases advanced
    | succ fuel => exact ⟨fuel, advanced⟩
  · rintro ⟨fuel, advanced⟩
    exact ⟨fuel + 1, advanced⟩

private theorem advances_terminal :
    Advances perform start wanted (.terminal kind own :: rest) content default after ↔
      kind = wanted ∧ default = own ∧ after = ⟨start, rest, content⟩ := by
  rw [advances_cons]
  have meets (fuel : Nat) :
    WalkM.advanceWithin perform wanted (fuel + 1) ⟨start, .terminal kind own :: rest, content⟩ =
      (if kind = wanted then pure own else throw (.unexpectedSymbol kind.name) : WalkM σ _)
        ⟨start, rest, content⟩ := rfl
  simp only [meets, exists_const]
  by_cases same : kind = wanted
  · rw [if_pos same, step_pure_ok]
    simp [same, eq_comm]
  · rw [if_neg same, step_throw_ok]
    simp [same]

theorem advances_sequence {symbols : List Symbol} :
    Advances perform start wanted (.sequence symbols :: rest) content default after ↔
      Advances perform start wanted (symbols ++ rest) content default after := by
  rw [advances_cons]
  exact Iff.rfl

private theorem advances_root :
    Advances perform start wanted (.root :: rest) content default after ↔
      Advances perform start wanted (start :: .root :: rest) content default after := by
  rw [advances_cons]
  exact Iff.rfl

private theorem advances_repeater {symbols : List Symbol} (different : stop ≠ wanted) :
    Advances perform start wanted (.repeater stop symbols :: rest) content default after ↔
      Advances perform start wanted (symbols ++ .repeater stop symbols :: rest) content
        default after := by
  rw [advances_cons]
  have unfolds (fuel : Nat) : WalkM.advanceWithin perform wanted (fuel + 1)
      ⟨start, .repeater stop symbols :: rest, content⟩ =
        WalkM.advanceWithin perform wanted fuel
          ⟨start, symbols ++ .repeater stop symbols :: rest, content⟩ := by
    change (if stop = wanted then _ else (_ : WalkM σ _)) ⟨start, rest, content⟩ = _
    rw [if_neg different]
    change WalkM.advanceWithin perform wanted fuel
      ⟨start, (symbols ++ [.repeater stop symbols]) ++ rest, content⟩ = _
    rw [List.append_assoc, List.singleton_append]
  simp only [unfolds]
  exact Iff.rfl

/-- A repeater that the wanted terminal ends counts as that terminal. -/
theorem advances_repeater_end {symbols : List Symbol} :
    Advances perform start wanted (.repeater wanted symbols :: rest) content default after ↔
      default = none ∧ after = ⟨start, rest, content⟩ := by
  rw [advances_cons]
  have ends (fuel : Nat) : WalkM.advanceWithin perform wanted (fuel + 1)
      ⟨start, .repeater wanted symbols :: rest, content⟩ = .ok none ⟨start, rest, content⟩ := by
    change (if wanted = wanted then (pure none : WalkM σ _) else _) ⟨start, rest, content⟩ = _
    rw [if_pos rfl]
    rfl
  simp [ends, eq_comm]

private theorem advanceWithin_action (isAction : WalkM.isAction symbol = true) (fuel : Nat) :
    WalkM.advanceWithin perform wanted (fuel + 1) ⟨start, symbol :: rest, content⟩ =
      (do WalkM.onContent (perform symbol); WalkM.advanceWithin perform wanted fuel)
        ⟨start, rest, content⟩ := by
  cases symbol with
  | enumLabels labels => rfl
  | unionEnd => rfl
  | recordStart default => rfl
  | recordEnd => rfl
  | fieldStart name => rfl
  | fieldEnd => rfl
  | _ => cases isAction

theorem onContent_ok {α : Type} {step : EStateM Error σ α} {walk : Walk σ} {value : α} :
    WalkM.onContent step walk = .ok value after ↔
      ∃ between, step walk.content = .ok value between ∧
        after = ⟨walk.start, walk.pending, between⟩ := by
  unfold WalkM.onContent
  cases step walk.content with
  | error error between => simp
  | ok own between =>
    constructor
    · intro done
      cases done
      exact ⟨between, rfl, rfl⟩
    · rintro ⟨_, done, rfl⟩
      cases done
      rfl

theorem next_cons (symbol : Symbol) :
    WalkM.next ⟨start, symbol :: rest, content⟩ = .ok symbol ⟨start, rest, content⟩ :=
  rfl

theorem isNext_cons (kind : Terminal) (symbol : Symbol) :
    WalkM.isNext kind ⟨start, symbol :: rest, content⟩ =
      .ok (symbol.isTerminal kind) ⟨start, symbol :: rest, content⟩ := rfl

/-- An advance carries out the action that comes first, and goes on. -/
theorem advances_action (isAction : WalkM.isAction symbol = true) :
    Advances perform start wanted (symbol :: rest) content default after ↔
      ∃ between, carriedOut perform symbol content = some between ∧
        Advances perform start wanted rest between default after := by
  rw [advances_cons]
  constructor
  · rintro ⟨fuel, advanced⟩
    rw [advanceWithin_action isAction] at advanced
    obtain ⟨_, _, performed, goesOn⟩ := step_bind_ok.mp advanced
    obtain ⟨between, done, rfl⟩ := onContent_ok.mp performed
    exact ⟨between, (carriedOut_some perform).mpr done, fuel, goesOn⟩
  · rintro ⟨between, done, fuel, goesOn⟩
    refine ⟨fuel, ?_⟩
    rw [advanceWithin_action isAction]
    exact step_bind_ok.mpr ⟨(), _, onContent_ok.mpr
      ⟨between, (carriedOut_some perform).mp done, rfl⟩, goesOn⟩

mutual

theorem advances_silent {symbol : Symbol} (silent : symbol.isSilent = true) (rest : List Symbol)
    (content : σ) :
    Advances perform start wanted (symbol :: rest) content default after ↔
      ∃ between, runSymbol perform symbol content = some between ∧
        Advances perform start wanted rest between default after := by
  match symbol with
  | .sequence symbols =>
    rw [advances_sequence, advances_silent_append silent rest content]
    simp [runSymbol]
  | .unionEnd | .recordStart _ | .recordEnd | .fieldStart _ | .fieldEnd => exact advances_action rfl

/-- An advance passes the silent symbols that come first, and goes on from the content that these
leave. -/
theorem advances_silent_append {symbols : List Symbol} (silent : Symbol.areSilent symbols = true)
    (rest : List Symbol) (content : σ) :
    Advances perform start wanted (symbols ++ rest) content default after ↔
      ∃ between, runAll perform symbols content = some between ∧
        Advances perform start wanted rest between default after := by
  match symbols with
  | [] => simp
  | symbol :: others =>
    rw [Symbol.areSilent_cons, Bool.and_eq_true] at silent
    rw [List.cons_append, advances_silent silent.1 _ content, runAll_cons]
    simp only [Option.bind_eq_some_iff]
    constructor
    · rintro ⟨first, ran, advanced⟩
      obtain ⟨second, ranOthers, goesOn⟩ := (advances_silent_append silent.2 rest first).mp advanced
      exact ⟨second, ⟨first, ran, ranOthers⟩, goesOn⟩
    · rintro ⟨second, ⟨first, ran, ranOthers⟩, goesOn⟩
      exact ⟨first, ran, (advances_silent_append silent.2 rest first).mpr
        ⟨second, ranOthers, goesOn⟩⟩

end

/-! ### Symbols on the way to others -/

def Terminal.isEnd : Terminal → Bool
  | arrayEnd => true
  | mapEnd => true
  | _ => false

variable (perform) (start) in
/-- Whatever an advance reaches from the pending symbols, it reaches from the others as well. Ends
of repeaters are left out: a repeater before them may be passed or repeated. -/
def LeadsTo (pending others : List Symbol) : Prop :=
  ∀ ⦃wanted : Terminal⦄ ⦃content : σ⦄ ⦃default : Option Default⦄ ⦃after : Walk σ⦄,
    wanted.isEnd = false →
    Advances perform start wanted pending content default after →
      Advances perform start wanted others content default after

namespace LeadsTo

variable {pending others passed symbols : List Symbol}

theorem refl (pending : List Symbol) : LeadsTo perform start pending pending :=
  fun _ _ _ _ _ advanced => advanced

theorem trans {further : List Symbol} (first : LeadsTo perform start pending others)
    (second : LeadsTo perform start others further) : LeadsTo perform start pending further :=
  fun _ _ _ _ notEnd advanced => second notEnd (first notEnd advanced)

theorem behind (silent : Symbol.areSilent passed = true)
    (leads : LeadsTo perform start pending others) :
    LeadsTo perform start (passed ++ pending) (passed ++ others) := by
  intro wanted content default after notEnd advanced
  obtain ⟨between, ran, goesOn⟩ := (advances_silent_append silent pending content).mp advanced
  exact (advances_silent_append silent others content).mpr ⟨between, ran, leads notEnd goesOn⟩

theorem sequence (symbols rest : List Symbol) :
    LeadsTo perform start (.sequence symbols :: rest) (symbols ++ rest) :=
  fun _ _ _ _ _ advanced => advances_sequence.mp advanced

theorem root (rest : List Symbol) :
    LeadsTo perform start (.root :: rest) (start :: .root :: rest) :=
  fun _ _ _ _ _ advanced => advances_root.mp advanced

theorem repeater (isEnd : stop.isEnd = true) (symbols rest : List Symbol) :
    LeadsTo perform start (.repeater stop symbols :: rest)
      (symbols ++ .repeater stop symbols :: rest) := by
  intro wanted content default after notEnd advanced
  apply (advances_repeater _).mp advanced
  rintro rfl
  rw [isEnd] at notEnd
  cases notEnd

end LeadsTo

/-- An advance from symbols that lead to a terminal, behind silent symbols, reaches that
terminal. -/
theorem advance_leading {walk : Walk σ} {deferred : List Symbol}
    (leads : LeadsTo perform walk.start walk.pending (deferred ++ .terminal kind own :: rest))
    (silent : Symbol.areSilent deferred = true) (notEnd : wanted.isEnd = false)
    (advanced : WalkM.advance perform wanted walk = .ok default after) :
    ∃ base, runAll perform deferred walk.content = some base ∧
      after = ⟨walk.start, rest, base⟩ := by
  have reached := leads notEnd (advances_of_advance advanced)
  obtain ⟨base, ran, ended⟩ := (advances_silent_append silent _ _).mp reached
  exact ⟨base, ran, (advances_terminal.mp ended).2.2⟩

end Avro.JsonEncoding
