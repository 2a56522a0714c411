import Avro.Proofs.Idempotence
import Avro.Proofs.Remarking

/-!
Contract: what a schema is parsed to is parsed by force like the schema.

Owns: `Twins`, schemas that differ in the marks of records only; `RunsAlike`, the steps of the
parser that differ in such marks only; and that a schema and what it is parsed to are parsed by
force to twins, with registries that hold twins.

A parse by force may fail where the first parse did not, since it goes through all branches of a
union with one set of names. The steps are therefore compared in every state, and not only in those
in which they succeed.
-/

namespace Avro.Schema

variable {α β γ δ : Type} {other related : α → β → Prop} {run : ParseM α}
variable {state : ParseState} {members left right : Members} {name schema : Json} {word : String}

/-! ### Schemas that differ in the marks of records -/

structure RecordTwins (left right : List (String × Json)) : Prop where
  isRecord : ∃ word, hasFields word = true ∧ Members.get? left "type" = some (.str word)
  same : ∀ key, key ∉ marks → Members.get? left key = Members.get? right key

/-- Nodes that are the same, or records that differ in marks only. -/
inductive NodeTwins : Json → Json → Prop where
  | refl (node : Json) : NodeTwins node node
  | record {left right : List (String × Json)} (twins : RecordTwins left right) :
      NodeTwins (.obj left) (.obj right)

mutual

/-- Schemas that differ in the marks of records only, at the top and at the branches of a union. -/
inductive Twins : Json → Json → Prop where
  | node {left right : Json} (twins : NodeTwins left right) : Twins left right
  | union {left right : List Json} (twins : BranchTwins left right) : Twins (.arr left) (.arr right)

inductive BranchTwins : List Json → List Json → Prop where
  | nil : BranchTwins [] []
  | cons {left right : Json} {lefts rights : List Json} (first : Twins left right)
      (others : BranchTwins lefts rights) :
      BranchTwins (left :: lefts) (right :: rights)

end

/-- Registries that have the same names, under which stand nodes that differ in the marks of records
only. -/
def RegistriesAlike (left right : Registry) : Prop :=
  ∀ name, Option.Rel NodeTwins (Members.get? left name) (Members.get? right name)

theorem RegistriesAlike.set {left right : Registry} (alike : RegistriesAlike left right)
    (entry : String) {node other : Json} (twins : NodeTwins node other) :
    RegistriesAlike (Members.set left entry node) (Members.set right entry other) := by
  intro name
  rw [Members.get?_set, Members.get?_set]
  by_cases isEntry : entry = name
  · rw [if_pos isEntry, if_pos isEntry]
    exact .some twins
  · rw [if_neg isEntry, if_neg isEntry]
    exact alike name

/-! ### Runs of the parser that differ in marks -/

private theorem define_unnamed {error : Error} (named : registryName name = .error error) :
    define name members state = .error error state := by
  unfold define
  rw [named]
  rfl

private theorem define_taken {entry : String} (named : registryName name = .ok entry)
    (isTaken : entry ∈ state.defined) :
    define name members state = .error (.redefined name) state := by
  have contained : state.defined.contains entry = true := by simpa using isTaken
  unfold define
  refine (step_bind_of_ok (parseLift_ok.mpr ⟨named, rfl⟩)).trans ?_
  refine (step_bind_of_ok (show (get : ParseM ParseState) state = .ok state state from rfl)).trans
    ?_
  simp only [contained, if_true]
  rfl

/-- Results of the parser that differ in the marks of records only: the same failure, or related
values with the same names taken. -/
inductive ResultsAlike (related : α → β → Prop) : EStateM.Result Error ParseState α →
    EStateM.Result Error ParseState β → Prop where
  | ok {left : α} {right : β} {defined : List String} {leftRegistry rightRegistry : Registry}
      (values : related left right)
      (registries : RegistriesAlike leftRegistry rightRegistry) :
      ResultsAlike related (.ok left ⟨defined, leftRegistry⟩) (.ok right ⟨defined, rightRegistry⟩)
  | error (error : Error) (left right : ParseState) :
      ResultsAlike related (.error error left) (.error error right)

/-- Two runs that have results alike from states alike. -/
def RunsAlike (related : α → β → Prop) (left : ParseM α) (right : ParseM β) : Prop :=
  ∀ defined leftRegistry rightRegistry, RegistriesAlike leftRegistry rightRegistry →
    ResultsAlike related (left ⟨defined, leftRegistry⟩) (right ⟨defined, rightRegistry⟩)

namespace RunsAlike

variable {leftNext : α → ParseM γ} {next : γ → δ → Prop}

theorem pure {left : α} {right : β} (values : related left right) :
    RunsAlike related (Pure.pure left) (Pure.pure right) :=
  fun _ _ _ registries => .ok values registries

theorem throw (related : α → β → Prop) (error : Error) :
    RunsAlike related (MonadExcept.throw error) (MonadExcept.throw error) :=
  fun _ _ _ _ => .error error _ _

theorem lift (outcome : Outcome α) : RunsAlike Eq (ParseM.lift outcome) (ParseM.lift outcome) := by
  cases outcome with
  | ok value => exact pure rfl
  | error error => exact throw Eq error

theorem bind {left : ParseM α} {right : ParseM β} {rightNext : β → ParseM δ}
    (first : RunsAlike related left right)
    (second : ∀ leftValue rightValue, related leftValue rightValue →
      RunsAlike next (leftNext leftValue) (rightNext rightValue)) :
    RunsAlike next (left >>= leftNext) (right >>= rightNext) := by
  intro defined leftRegistry rightRegistry registries
  have firstAlike := first defined leftRegistry rightRegistry registries
  generalize leftIs : left ⟨defined, leftRegistry⟩ = leftResult at firstAlike
  generalize rightIs : right ⟨defined, rightRegistry⟩ = rightResult at firstAlike
  cases firstAlike with
  | ok values between =>
    rw [step_bind_of_ok leftIs, step_bind_of_ok rightIs]
    exact second _ _ values _ _ _ between
  | error error =>
    rw [step_bind_of_error leftIs, step_bind_of_error rightIs]
    exact .error error _ _

/-- A step that is the same on both sides may be followed by steps that are not. -/
theorem andThen {rightNext : α → ParseM δ} (steady : RunsAlike Eq run run)
    (second : ∀ value, RunsAlike next (leftNext value) (rightNext value)) :
    RunsAlike next (run >>= leftNext) (run >>= rightNext) :=
  steady.bind fun _ _ same => same ▸ second _

theorem define (name : Json) {left right : Members} (twins : NodeTwins (.obj left) (.obj right)) :
    RunsAlike Eq (Schema.define name left) (Schema.define name right) := by
  intro defined leftRegistry rightRegistry registries
  cases named : registryName name with
  | error error =>
    rw [define_unnamed named, define_unnamed named]
    exact .error error _ _
  | ok entry =>
    by_cases isTaken : entry ∈ defined
    · rw [define_taken named isTaken, define_taken named isTaken]
      exact .error _ _ _
    · rw [define_ok.mpr ⟨named, isTaken, rfl⟩, define_ok.mpr ⟨named, isTaken, rfl⟩]
      exact .ok rfl (registries.set entry twins)

theorem redefine (entry : String) {left right : Members}
    (twins : NodeTwins (.obj left) (.obj right)) :
    RunsAlike Eq (Schema.redefine entry left) (Schema.redefine entry right) :=
  fun _ _ _ registries => .ok rfl (registries.set entry twins)

end RunsAlike

/-- A run that looks at the registry only for whether a name is known. -/
def Steady (run : ParseM α) : Prop := RunsAlike Eq run run

namespace Steady

theorem pure (value : α) : Steady (Pure.pure value) := RunsAlike.pure rfl

theorem throw (error : Error) : Steady (MonadExcept.throw error : ParseM α) :=
  RunsAlike.throw Eq error

theorem lift (outcome : Outcome α) : Steady (ParseM.lift outcome) := RunsAlike.lift outcome

theorem bind {next : α → ParseM β} (steady : Steady run) (then' : ∀ value, Steady (next value)) :
    Steady (run >>= next) := steady.andThen then'

theorem lookUp (name : Json) (key : String) : Steady (Schema.lookUp false name key) := by
  intro defined leftRegistry rightRegistry registries
  have known := registries key
  generalize leftIs : Members.get? leftRegistry key = leftFound at known
  generalize rightIs : Members.get? rightRegistry key = rightFound at known
  cases known with
  | none =>
    rw [lookUp_unknown leftIs, lookUp_unknown rightIs]
    exact .error _ _ _
  | some =>
    rw [lookUp_known leftIs, lookUp_known rightIs]
    exact .ok rfl registries

theorem parseReference (space reference : Json) :
    Steady (Schema.parseReference false space reference) := by
  refine (lift _).bind fun isWord => ?_
  split
  · exact pure _
  · exact (lift _).bind fun name => (lift _).bind fun key => lookUp name key

theorem parseLeafDefinition (space : Json) (members common : Members) (key : String) :
    Steady (Schema.parseLeafDefinition space members common key) := by
  refine (lift _).bind fun _ => RunsAlike.andThen (RunsAlike.define _ (.refl _)) fun entry => ?_
  refine RunsAlike.andThen (RunsAlike.redefine entry (.refl _)) fun _ =>
    (lift _).bind fun value => ?_
  exact RunsAlike.andThen (RunsAlike.redefine entry (.refl _)) fun _ => pure _

theorem parseRecordDefinition (space : Json) (members common : Members)
    {parseParts : Json → ParseM (List Json)} (steady : ∀ inner, Steady (parseParts inner)) :
    Steady (Schema.parseRecordDefinition space members common parseParts) := by
  refine (lift _).bind fun _ => RunsAlike.andThen (RunsAlike.define _ (.refl _)) fun entry =>
    (steady _).bind fun fields => ?_
  exact RunsAlike.andThen (RunsAlike.redefine entry (.refl _)) fun _ => pure _

mutual

theorem parseNode (space : Json) : ∀ node, Steady (Schema.parseNode false space node)
  | .arr branches => by
    rw [Schema.parseNode]
    exact (parseBranches space branches).bind fun _ => pure _
  | .obj members => by
    rw [Schema.parseNode]
    refine (lift _).bind fun type => (lift _).bind fun _ => ?_
    split
    · exact (parseUnder space "items" members).bind fun _ => pure _
    · exact (parseUnder space "values" members).bind fun _ => pure _
    · exact parseLeafDefinition space members _ _
    · exact parseLeafDefinition space members _ _
    · exact parseRecordDefinition space members _ fun inner => parseFieldsIn inner members
    · exact parseRecordDefinition space members _ fun inner => parseFieldsIn inner members
    · refine (lift _).bind fun isWord => ?_
      split
      · exact pure _
      · exact throw _
  | .null | .bool _ | .int _ | .float _ | .str _ => parseReference space _
termination_by structural node => node

theorem parseBranches (space : Json) :
    ∀ branches, Steady (Schema.parseBranches false space branches)
  | [] => pure []
  | branch :: rest => by
    rw [Schema.parseBranches]
    exact (parseNode space branch).bind fun _ => (parseBranches space rest).bind fun _ => pure _
termination_by structural branches => branches

theorem parseUnder (space : Json) (key : String) :
    ∀ members, Steady (Schema.parseUnder false space key members)
  | [] => throw _
  | (name, node) :: rest => by
    rw [Schema.parseUnder]
    split
    · exact parseNode space node
    · exact parseUnder space key rest
termination_by structural members => members

theorem parseFieldsIn (space : Json) : ∀ members, Steady (Schema.parseFieldsIn false space members)
  | [] => pure []
  | (name, value) :: rest => by
    by_cases wanted : name = "fields"
    · subst wanted
      cases value with
      | arr fields =>
        rw [Schema.parseFieldsIn, if_pos rfl]
        exact parseFields space fields
      | str text =>
        rw [Schema.parseFieldsIn, if_pos rfl]
        split
        · exact pure _
        · exact throw _
      | obj inner =>
        rw [Schema.parseFieldsIn, if_pos rfl]
        split
        · exact pure _
        · exact throw _
      | _ => exact throw _
    · have skipped : Schema.parseFieldsIn false space ((name, value) :: rest) =
          Schema.parseFieldsIn false space rest := by
        cases value <;> simp [Schema.parseFieldsIn, wanted]
      rw [skipped]
      exact parseFieldsIn space rest
termination_by structural members => members

theorem parseFields (space : Json) : ∀ fields, Steady (Schema.parseFields false space fields)
  | [] => pure []
  | field :: rest => by
    rw [Schema.parseFields]
    exact (parseField space field).bind fun _ => (parseFields space rest).bind fun _ => pure _
termination_by structural fields => fields

theorem parseField (space : Json) : ∀ field, Steady (Schema.parseField false space field)
  | .obj members => by
    rw [Schema.parseField]
    exact (lift _).bind fun _ => (lift _).bind fun _ =>
      (parseUnder space "type" members).bind fun _ => pure _
  | .arr _ | .null | .bool _ | .int _ | .float _ | .str _ => throw _
termination_by structural field => field

end

end Steady

/-! ### The parse by force of what has been parsed -/

theorem ResultsAlike.mono {left : EStateM.Result Error ParseState α}
    {right : EStateM.Result Error ParseState β} (alike : ResultsAlike related left right)
    (implied : ∀ leftValue rightValue, related leftValue rightValue → other leftValue rightValue) :
    ResultsAlike other left right := by
  cases alike with
  | ok values after => exact .ok (implied _ _ values) after
  | error error => exact .error error _ _

theorem RunsAlike.mono {left : ParseM α} {right : ParseM β} (alike : RunsAlike related left right)
    (implied : ∀ leftValue rightValue, related leftValue rightValue → other leftValue rightValue) :
    RunsAlike other left right :=
  fun defined _ _ registries => (alike defined _ _ registries).mono implied

theorem Steady.twins {run : ParseM Json} (steady : Steady run) : RunsAlike Twins run run := by
  refine RunsAlike.mono steady ?_
  rintro value _ rfl
  exact .node (.refl value)

theorem RecordTwins.parsed (twins : RecordTwins left right) (fielded : hasFields word = true)
    {own : Members} (areOwn : Schema.areOwn own = true) :
    RecordTwins (commonAttributes left (.str word) ++ own)
      (commonAttributes right (.str word) ++ own) :=
  ⟨⟨word, fielded, get?_type_commonAttributes left own _⟩, fun key notMark =>
    get?_parsed_congr areOwn (twins.same key notMark)⟩

theorem Parses.runsAlike_record {space parsed : Json} {start stop : ParseState}
    (twins : RecordTwins left right)
    (derivation : Parses false space (.obj left) start parsed stop) :
    RunsAlike NodeTwins (Schema.parseNode false space (.obj left))
      (Schema.parseNode false space (.obj right)) := by
  obtain ⟨word, fielded, typeIs⟩ := twins.isRecord
  have checkedAs : checkDecimal right (.str word) = checkDecimal left (.str word) := by
    have notMarks : ∀ key ∈ ["logicalType", "scale", "precision"], key ∉ marks := by decide
    exact (checkDecimal_congr (fun key isKey => twins.same key (notMarks key isKey)) fun _ =>
      twins.same "size" (by decide)).symm
  cases derivation with
  | primitiveNode wordIs _ isPrimitive =>
    cases typeIs.symm.trans wordIs
    have noFields : ∀ word ∈ primitiveNames, hasFields word = false := by decide
    exact absurd fielded (ne_true_of_eq_false (noFields word isPrimitive))
  | collection wordIs _ isCollection =>
    cases typeIs.symm.trans wordIs
    have noFields : ∀ pair ∈ [("array", "items"), ("map", "values")], hasFields pair.1 = false := by
      decide
    exact absurd fielded (ne_true_of_eq_false (noFields _ isCollection))
  | leaf wordIs _ isLeaf =>
    cases typeIs.symm.trans wordIs
    have noFields : ∀ pair ∈ [("enum", "symbols"), ("fixed", "size")],
      hasFields pair.1 = false := by decide
    exact absurd fielded (ne_true_of_eq_false (noFields _ isLeaf))
  | @record _ _ name _ _ _ nodes _ _ _ wordIs checked isRecord named _ _ nodesAre _ =>
    cases typeIs.symm.trans wordIs
    have nodesAgain : fieldNodes? right = some nodes := by
      rw [← nodesAre, fieldNodes?, fieldNodes?, twins.same "fields" (by decide)]
    have commonTwins : RecordTwins (commonAttributes left (.str word) ++ [])
        (commonAttributes right (.str word) ++ []) :=
      twins.parsed fielded rfl
    rw [List.append_nil, List.append_nil] at commonTwins
    have namedAgain := qualifiedName_congr (twins.same "name" (by decide))
      (twins.same "namespace" (by decide)) named
    rw [parseNode_record wordIs checked isRecord, parseRecordDefinition_of_named named nodesAre,
      parseNode_record ((twins.same "type" (by decide)) ▸ wordIs)
        (checkedAs.trans checked) isRecord,
      parseRecordDefinition_of_named namedAgain nodesAgain]
    refine (RunsAlike.define name (.record commonTwins)).bind fun entry _ same => same ▸ ?_
    refine (Steady.parseFields _ nodes).andThen fun fields => ?_
    refine (RunsAlike.redefine entry (.record (twins.parsed fielded rfl))).bind fun _ _ _ => ?_
    exact .pure (.record (twins.parsed fielded rfl))

theorem recordTwins_sealed (fielded : hasFields word = true)
    (typeIs : Members.get? members "type" = some (.str word)) (registry : Registry) :
    RecordTwins members (sealedMembers registry members) :=
  ⟨⟨word, fielded, typeIs⟩, fun _ notMark => (get?_sealed members registry notMark).symm⟩

mutual

/-- What a schema is parsed to is parsed by force like the schema, up to marks. -/
theorem ParsesTop.runsAlike (final : Registry) {mark : Bool} {schema : Json}
    {before after : Registry} {draft : Draft} :
    ParsesTop mark schema before draft after →
      RunsAlike Twins (parseNode false (.str "") schema)
        (parseNode false (.str "") (draft.seal final))
  | @ParsesTop.node _ _ plain _ _ _ _ _ derivation => by
    rw [← derivation.sameRun]
    rcases Draft.ofParsed_cases mark plain with isPlain |
      ⟨members, word, rfl, fielded, typeIs, isMarked⟩
    · rw [isPlain, Draft.seal]
      exact (Steady.parseNode _ plain).twins
    · rw [isMarked]
      exact (derivation.again.runsAlike_record (recordTwins_sealed fielded typeIs final)).mono
        fun _ _ twins => .node twins
  | .adopted _ _ => by
    rw [Draft.seal]
    exact (Steady.parseNode _ _).twins
  | .union parts => by
    rw [Draft.seal, parseNode, parseNode]
    exact (parts.runsAlike final).bind fun _ _ twins => .pure (.union twins)

theorem BranchesTop.runsAlike (final : Registry) {mark : Bool} {branches : List Json}
    {before after : Registry} {drafts : List Draft} :
    BranchesTop mark branches before drafts after →
      RunsAlike BranchTwins (parseBranches false (.str "") branches)
        (parseBranches false (.str "") (Draft.sealAll final drafts))
  | .nil => by exact .pure .nil
  | .cons first others => by
    rw [Draft.sealAll, parseBranches, parseBranches]
    refine (first.runsAlike final).bind fun _ _ twins => ?_
    exact (others.runsAlike final).bind fun _ _ otherTwins => .pure (.cons twins otherTwins)

end

theorem RecordTwins.symm {left right : Members} (twins : RecordTwins left right) :
    RecordTwins right left := by
  obtain ⟨word, fielded, typeIs⟩ := twins.isRecord
  exact ⟨⟨word, fielded, twins.same "type" (by decide) ▸ typeIs⟩, fun key notMark =>
    (twins.same key notMark).symm⟩

theorem NodeTwins.symm {left right : Json} (twins : NodeTwins left right) :
    NodeTwins right left := by
  cases twins with
  | refl => exact .refl _
  | record twins => exact .record twins.symm

theorem NodeTwins.trans {left middle right : Json} (first : NodeTwins left middle)
    (second : NodeTwins middle right) : NodeTwins left right := by
  cases first with
  | refl => exact second
  | record twins =>
    cases second with
    | refl => exact .record twins
    | record others =>
      exact .record ⟨twins.isRecord, fun key notMark =>
        (twins.same key notMark).trans (others.same key notMark)⟩

theorem Twins.replace {left right otherLeft otherRight : Json} (twins : Twins left right)
    (leftTwins : NodeTwins left otherLeft) (rightTwins : NodeTwins right otherRight) :
    Twins otherLeft otherRight := by
  cases twins with
  | node twins => exact .node (leftTwins.symm.trans (twins.trans rightTwins))
  | union twins =>
    cases leftTwins
    cases rightTwins
    exact .union twins

theorem parse_forced (schema : Json) : parse { force := true } [] schema =
    match parseWhole false true schema [] with
    | .ok draft after => .ok (draft.seal after, after)
    | .error error _ => .error error := by
  unfold parse
  cases schema <;> rfl

private theorem parseWhole_of_parseNode {parsed : Json}
    (done : parseNode false (.str "") schema ⟨[], []⟩ = .ok parsed state) :
    ∃ draft, parseWhole false true schema [] = .ok draft state.registry ∧
      ∀ final, NodeTwins parsed (draft.seal final) := by
  unfold parseWhole
  rw [done]
  dsimp only
  split
  · split
    · rename_i members _ typeIs
      exact ⟨_, rfl, fun final => .record (recordTwins_sealed rfl typeIs final)⟩
    · rename_i members _ typeIs
      exact ⟨_, rfl, fun final => .record (recordTwins_sealed rfl typeIs final)⟩
    · exact ⟨_, rfl, fun final => .refl _⟩
  · exact ⟨_, rfl, fun final => .refl _⟩

private theorem parse_forced_of_parseNode {parsed : Json}
    (done : parseNode false (.str "") schema ⟨[], []⟩ = .ok parsed state) :
    ∃ marked, parse { force := true } [] schema = .ok (marked, state.registry) ∧
      NodeTwins parsed marked := by
  obtain ⟨draft, drafted, twins⟩ := parseWhole_of_parseNode done
  refine ⟨draft.seal state.registry, ?_, twins _⟩
  rw [parse_forced, drafted]

theorem RunsAlike.forced {left right : Json}
    (alike : RunsAlike Twins (parseNode false (.str "") left) (parseNode false (.str "") right)) :
    (∃ error, parse { force := true } [] left = .error error ∧
      parse { force := true } [] right = .error error) ∨
    ∃ leftParsed rightParsed leftRegistry rightRegistry, parse { force := true } [] left =
      .ok (leftParsed, leftRegistry) ∧
      parse { force := true } [] right = .ok (rightParsed, rightRegistry) ∧
      Twins leftParsed rightParsed ∧
      RegistriesAlike leftRegistry rightRegistry := by
  have results := alike [] [] [] fun _ => .none
  generalize leftIs : parseNode false (.str "") left ⟨[], []⟩ = leftResult at results
  generalize rightIs : parseNode false (.str "") right ⟨[], []⟩ = rightResult at results
  cases results with
  | ok twins registries =>
    obtain ⟨leftParsed, leftForced, leftTwins⟩ := parse_forced_of_parseNode leftIs
    obtain ⟨rightParsed, rightForced, rightTwins⟩ := parse_forced_of_parseNode rightIs
    exact .inr ⟨_, _, _, _, leftForced, rightForced, twins.replace leftTwins rightTwins, registries⟩
  | error error =>
    refine .inl ⟨error, ?_, ?_⟩
    · rw [parse_forced, parseWhole, leftIs]
    · rw [parse_forced, parseWhole, rightIs]

end Avro.Schema
