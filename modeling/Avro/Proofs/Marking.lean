import Avro.Proofs.Alike
import Avro.Proofs.Reparsing

/-!
Contract: what a parse from the top gives, exactly.

Owns: `bare`, the schemas without marks; `marked`, a parsed schema with the marks that its records
get; `ParsesTop`, the parse from the top of any schema, whether or not parts of it carry marks;
`ParsesApart`, the parse of a schema in which each branch of a union has names of its own; that a
parse of a schema without marks is just that, up to the marks; that a parse by force succeeds if no
name is defined twice among all branches; and that a marked schema is taken as it is.

A parse by force goes through all branches of a union with one set of names. It therefore refuses a
union in which two branches define one name, though each branch would be accepted by itself.
-/

namespace Avro.Schema

open Members (get? get?_set has keys)

variable {members : Members} {start stop : ParseState} {parsed schema plain : Json}
  {before after registry later final : Registry} {mark : Bool} {taken others : List String}
  {space given result : Json}

/-! ### Marks -/

mutual

/-- Whether a schema carries no mark, neither at the top nor at the branches of a union. -/
def bare : Json → Bool
  | .obj members => !has members parsedKey && !has members registryKey
  | .arr branches => branchesBare branches
  | _ => true
termination_by structural schema => schema

def branchesBare : List Json → Bool
  | [] => true
  | branch :: rest => bare branch && branchesBare rest
termination_by structural branches => branches

end

mutual

theorem unmarked_of_bare : ∀ schema : Json, bare schema = true → unmarked schema = true
  | .null, _ | .bool _, _ | .int _, _ | .float _, _ | .str _, _ => rfl
  | .arr branches, plainly => by exact branchesUnmarked_of_bare branches plainly
  | .obj members, plainly => by
    rw [bare, Bool.and_eq_true] at plainly
    exact plainly.1

theorem branchesUnmarked_of_bare :
    ∀ branches : List Json, branchesBare branches = true → branchesUnmarked branches = true
  | [], _ => rfl
  | branch :: rest, plainly => by
    rw [branchesBare, Bool.and_eq_true] at plainly
    rw [branchesUnmarked, unmarked_of_bare branch plainly.1,
      branchesUnmarked_of_bare rest plainly.2]
    rfl

end

mutual

/-- A parsed schema in which the records at the top, and those at the branches of a union, are
marked with a registry. -/
def marked (registry : Registry) : Json → Json
  | .obj members =>
    match get? members "type" with
    | some (.str word) =>
      if hasFields word then (Draft.marked members).seal registry else .obj members
    | _ => .obj members
  | .arr branches => .arr (markedBranches registry branches)
  | schema => schema
termination_by structural schema => schema

def markedBranches (registry : Registry) : List Json → List Json
  | [] => []
  | branch :: rest => marked registry branch :: markedBranches registry rest
termination_by structural branches => branches

end

/-- The members of a record that is marked with a registry. -/
def sealedMembers (registry : Registry) (members : List (String × Json)) : List (String × Json) :=
  Members.set (Members.set members parsedKey (.bool true)) registryKey (.obj registry)

theorem get?_sealed (members : Members) (registry : Registry) {key : String}
    (notMark : key ∉ marks) :
    get? (sealedMembers registry members) key = get? members key := by
  simp only [marks, List.mem_cons, List.not_mem_nil, or_false, not_or] at notMark
  rw [sealedMembers, get?_set, if_neg (Ne.symm notMark.2), get?_set, if_neg (Ne.symm notMark.1)]

theorem get?_sealed_parsedKey (members : Members) (registry : Registry) :
    get? (sealedMembers registry members) parsedKey = some (.bool true) := by
  rw [sealedMembers, get?_set, if_neg (by decide), get?_set, if_pos rfl]

theorem get?_sealed_registryKey (members : Members) (registry : Registry) :
    get? (sealedMembers registry members) registryKey = some (.obj registry) := by
  rw [sealedMembers, get?_set, if_pos rfl]

theorem marked_obj_cases (members : Members) :
    (∀ registry, marked registry (.obj members) = .obj (sealedMembers registry members)) ∨
      ∀ registry, marked registry (.obj members) = .obj members := by
  unfold marked
  split
  · split
    · exact .inl fun _ => rfl
    · exact .inr fun _ => rfl
  · exact .inr fun _ => rfl

mutual

theorem names_marked (registry : Registry) :
    ∀ plain : Json, names (marked registry plain) = names plain
  | .null | .bool _ | .int _ | .float _ | .str _ => rfl
  | .arr branches => by rw [marked, names, names, branchNames_marked registry branches]
  | .obj members => by
    have notMarks : ∀ key ∈ namingAttributes, key ∉ marks := by decide
    unfold marked
    split
    · split
      · exact names_obj_congr fun key isKey => get?_sealed members registry (notMarks key isKey)
      · rfl
    · rfl

theorem branchNames_marked (registry : Registry) : ∀ branches : List Json,
    branchNames (markedBranches registry branches) = branchNames branches
  | [] => rfl
  | branch :: rest => by
    rw [markedBranches, branchNames, branchNames, names_marked registry branch,
      branchNames_marked registry rest]

end

/-! ### Parses from the top -/

theorem Parses.typeIs (derivation : Parses false space (.obj members) start parsed stop) :
    ∃ word parsedMembers, parsed = .obj parsedMembers ∧
      get? parsedMembers "type" = some (.str word) := by
  cases derivation with
  | @primitiveNode _ _ word =>
    have found := get?_type_commonAttributes members [] (.str word)
    rw [List.append_nil] at found
    exact ⟨_, _, rfl, found⟩
  | collection | leaf | record => exact ⟨_, _, rfl, get?_type_commonAttributes members _ _⟩

/-- The draft of a parsed node that is no union. A record is to be marked, if marks are asked
for. -/
def Draft.ofParsed (mark : Bool) : Json → Draft
  | .obj members =>
    match get? members "type" with
    | some (.str word) => if mark && hasFields word then .marked members else .plain (.obj members)
    | _ => .plain (.obj members)
  | schema => .plain schema

theorem Draft.ofParsed_false (plain : Json) : Draft.ofParsed false plain = .plain plain := by
  unfold ofParsed
  split
  · split
    · rfl
    · rfl
  · rfl

/-- The draft of a node is the node itself, or it is that of a record that is to be marked. -/
theorem Draft.ofParsed_cases (mark : Bool) (plain : Json) :
    Draft.ofParsed mark plain = .plain plain ∨
    ∃ members word, plain = .obj members ∧ hasFields word = true ∧
      get? members "type" = some (.str word) ∧ Draft.ofParsed mark plain = .marked members := by
  unfold ofParsed
  split
  · rename_i members
    split
    · rename_i word typeIs
      split
      · rename_i isMarked
        exact .inr ⟨members, word, rfl, (Bool.and_eq_true _ _ ▸ isMarked).2, typeIs, rfl⟩
      · exact .inl rfl
    · exact .inl rfl
  · exact .inl rfl

theorem parseWhole_ofParsed {defined : List String} (notUnion : ∀ branches, schema ≠ .arr branches)
    (derivation : Parses false (.str "") schema ⟨[], before⟩ plain ⟨defined, after⟩) :
    parseWhole false mark schema before = .ok (Draft.ofParsed mark plain) after := by
  unfold parseWhole
  rw [derivation.parseNode]
  cases mark with
  | false => rw [Draft.ofParsed_false]
  | true =>
    cases schema with
    | arr branches => exact absurd rfl (notUnion branches)
    | obj members =>
      obtain ⟨word, parsedMembers, rfl, typeIs⟩ := derivation.typeIs
      simp only [Draft.ofParsed, typeIs, Bool.true_and]
      by_cases isRecord : word = "record"
      · subst isRecord
        rfl
      · by_cases isError : word = "error"
        · subst isError
          rfl
        · have noFields : hasFields word = false := by simp [hasFields, isRecord, isError]
          simp [isRecord, isError, noFields]
    | str text =>
      cases derivation with
      | primitive | reference => rfl
      | expansion _ _ _ expanded => simp at expanded
    | _ => cases derivation

mutual

/-- A schema is parsed from the top against a registry. A node without a mark is parsed, with no
name taken; a node with a mark is taken as it is, and brings its registry; the branches of a union
are parsed one by one. -/
inductive ParsesTop (mark : Bool) : Json → Registry → Draft → Registry → Prop where
  | node {schema plain : Json} {before after : Registry} {defined : List String}
      (notUnion : ∀ branches, schema ≠ .arr branches)
      (plainly : unmarked schema = true)
      (derivation : Parses false (.str "") schema ⟨[], before⟩ plain ⟨defined, after⟩) :
      ParsesTop mark schema before (Draft.ofParsed mark plain) after
  | adopted {members : List (String × Json)} {before entries : Registry}
      (isMarked : has members parsedKey = true)
      (holds : get? members registryKey = some (.obj entries)) :
      ParsesTop mark (.obj members) before (.plain (.obj members)) (Members.union before entries)
  | union {branches : List Json} {drafts : List Draft} {before after : Registry}
      (parts : BranchesTop mark branches before drafts after) :
      ParsesTop mark (.arr branches) before (.branches drafts) after

inductive BranchesTop (mark : Bool) : List Json → Registry → List Draft → Registry → Prop where
  | nil {registry : Registry} : BranchesTop mark [] registry [] registry
  | cons {branch : Json} {rest : List Json} {draft : Draft} {drafts : List Draft}
      {before between after : Registry}
      (first : ParsesTop mark branch before draft between)
      (others : BranchesTop mark rest between drafts after) :
      BranchesTop mark (branch :: rest) before (draft :: drafts) after

end

theorem parseTop_unmarked (mark : Bool) (notUnion : ∀ branches, schema ≠ .arr branches)
    (plainly : unmarked schema = true) :
    parseTop { mark } schema = parseWhole false mark schema := by
  cases schema with
  | arr branches => exact absurd rfl (notUnion branches)
  | obj members =>
    rw [unmarked] at plainly
    rw [parseTop, if_pos (by simp [plainly])]
  | _ => rfl

theorem parseTop_marked (mark : Bool) (isMarked : has members parsedKey = true) :
    parseTop { mark } (.obj members) = adopt members := by
  rw [parseTop, if_neg (by simp [isMarked])]

mutual

theorem ParsesTop.parseTop {mark : Bool} {schema : Json} {before after : Registry} {draft : Draft} :
    ParsesTop mark schema before draft after →
    Schema.parseTop { mark } schema before = .ok draft after
  | .node notUnion plainly derivation => by
    rw [parseTop_unmarked mark notUnion plainly]
    exact parseWhole_ofParsed notUnion derivation
  | .adopted isMarked holds => by
    rw [parseTop_marked mark isMarked, adopt, holds]
  | .union parts => by
    rw [Schema.parseTop, if_neg (by simp)]
    exact step_bind_ok.mpr ⟨_, _, parts.parseTopBranches, rfl⟩

theorem BranchesTop.parseTopBranches {mark : Bool} {branches : List Json} {before after : Registry}
    {drafts : List Draft} :
    BranchesTop mark branches before drafts after →
    Schema.parseTopBranches { mark } branches before = .ok drafts after
  | .nil => by rfl
  | .cons first others => by
    rw [Schema.parseTopBranches]
    exact step_bind_ok.mpr ⟨_, _, first.parseTop,
      step_bind_ok.mpr ⟨_, _, others.parseTopBranches, rfl⟩⟩

end

private theorem parsesTop_of_notUnion {draft : Draft}
    (notUnion : ∀ branches, schema ≠ .arr branches)
    (done : parseTop { mark } schema before = .ok draft after) :
    ParsesTop mark schema before draft after := by
  cases plainly : unmarked schema with
  | true =>
    rw [parseTop_unmarked mark notUnion plainly] at done
    cases parsedDone : parseNode false (.str "") schema ⟨[], before⟩ with
    | error error state => simp [parseWhole, parsedDone] at done
    | ok plain state =>
      have derivation := parses_of_parseNode parsedDone
      rw [parseWhole_ofParsed notUnion derivation] at done
      cases done
      exact .node notUnion plainly derivation
  | false =>
    cases schema with
    | arr branches => exact absurd rfl (notUnion branches)
    | obj members =>
      rw [unmarked, Bool.not_eq_false'] at plainly
      rw [parseTop_marked mark plainly, adopt] at done
      split at done
      · cases done
      · rename_i entries holds
        cases done
        exact .adopted plainly holds
      · cases done
    | _ => cases plainly

mutual

private theorem parsesTop_of_parseTop {mark : Bool} {schema : Json} {before after : Registry}
    {draft : Draft} (done : parseTop { mark } schema before = .ok draft after) :
    ParsesTop mark schema before draft after := by
  cases schema with
  | arr branches =>
    rw [parseTop, if_neg (by simp)] at done
    obtain ⟨drafts, _, drafted, finished⟩ := step_bind_ok.mp done
    cases finished
    exact .union (branchesTop_of_parseTopBranches drafted)
  | _ => exact parsesTop_of_notUnion (by simp) done
termination_by sizeOf schema

theorem branchesTop_of_parseTopBranches {mark : Bool} {branches : List Json}
    {before after : Registry} {drafts : List Draft}
    (done : parseTopBranches { mark } branches before = .ok drafts after) :
    BranchesTop mark branches before drafts after := by
  cases branches with
  | nil =>
    cases done
    exact .nil
  | cons branch rest =>
    rw [parseTopBranches] at done
    obtain ⟨draft, between, drafted, done⟩ := step_bind_ok.mp done
    obtain ⟨others, _, othersDrafted, done⟩ := step_bind_ok.mp done
    cases done
    exact .cons (parsesTop_of_parseTop drafted) (branchesTop_of_parseTopBranches othersDrafted)
termination_by sizeOf branches

end

theorem parse_ok :
    parse { mark } before schema = .ok (parsed, after) ↔
      ∃ draft, ParsesTop mark schema before draft after ∧ parsed = draft.seal after := by
  unfold parse
  constructor
  · intro done
    cases drafted : parseTop { mark } schema before with
    | error error state => simp [drafted] at done
    | ok draft registry =>
      simp only [drafted, Except.ok.injEq, Prod.mk.injEq] at done
      obtain ⟨rfl, rfl⟩ := done
      exact ⟨draft, parsesTop_of_parseTop drafted, rfl⟩
  · rintro ⟨draft, derivation, rfl⟩
    rw [derivation.parseTop]

/-! ### Branches one by one -/

mutual

/-- A schema is parsed against a registry, each branch of a union with names of its own. -/
inductive ParsesApart : Json → Registry → Json → Registry → Prop where
  | node {schema plain : Json} {before after : Registry} {defined : List String}
      (notUnion : ∀ branches, schema ≠ .arr branches)
      (derivation : Parses false (.str "") schema ⟨[], before⟩ plain ⟨defined, after⟩) :
      ParsesApart schema before plain after
  | union {branches parsed : List Json} {before after : Registry}
      (parts : BranchesApart branches before parsed after) :
      ParsesApart (.arr branches) before (.arr parsed) after

inductive BranchesApart : List Json → Registry → List Json → Registry → Prop where
  | nil {registry : Registry} : BranchesApart [] registry [] registry
  | cons {branch parsed : Json} {rest parsedRest : List Json} {before between after : Registry}
      (first : ParsesApart branch before parsed between)
      (others : BranchesApart rest between parsedRest after) :
      BranchesApart (branch :: rest) before (parsed :: parsedRest) after

end

theorem seal_ofParsed (notUnion : ∀ branches, plain ≠ .arr branches) (final : Registry) :
    (Draft.ofParsed true plain).seal final = marked final plain := by
  cases plain with
  | arr branches => exact absurd rfl (notUnion branches)
  | obj members =>
    simp only [Draft.ofParsed, marked, Bool.true_and]
    split
    · split
      · rfl
      · rfl
    · rfl
  | _ => rfl

theorem Parses.notUnion {schema plain : Json} {start stop : ParseState}
    (derivation : Parses false space schema start plain stop)
    (notUnion : ∀ branches, schema ≠ .arr branches) : ∀ branches, plain ≠ .arr branches := by
  cases derivation with
  | union => exact absurd rfl (notUnion _)
  | expansion _ _ _ expanded => simp at expanded
  | _ => simp

mutual

/-- A schema without marks that is parsed apart is parsed from the top, and its records get their
marks. -/
theorem ParsesApart.top {schema plain : Json} {before after : Registry} :
    ParsesApart schema before plain after →
    unmarked schema = true →
      ∃ draft, ParsesTop true schema before draft after ∧
        ∀ final, draft.seal final = marked final plain
  | .node notUnion derivation, plainly => by
    exact ⟨_, .node notUnion plainly derivation, seal_ofParsed (derivation.notUnion notUnion)⟩
  | .union parts, plainly => by
    obtain ⟨drafts, done, sealed⟩ := parts.top plainly
    exact ⟨_, .union done, fun final => by rw [Draft.seal, sealed, marked]⟩

theorem BranchesApart.top {branches parsed : List Json} {before after : Registry} :
    BranchesApart branches before parsed after →
    branchesUnmarked branches = true →
      ∃ drafts, BranchesTop true branches before drafts after ∧
        ∀ final, Draft.sealAll final drafts = markedBranches final parsed
  | .nil, _ => by exact ⟨[], .nil, fun _ => rfl⟩
  | .cons first others, plainly => by
    rw [branchesUnmarked, Bool.and_eq_true] at plainly
    obtain ⟨draft, done, sealed⟩ := first.top plainly.1
    obtain ⟨drafts, othersDone, othersSealed⟩ := others.top plainly.2
    exact ⟨_, .cons done othersDone,
      fun final => by rw [Draft.sealAll, sealed, othersSealed, markedBranches]⟩

end

mutual

theorem ParsesTop.apart {schema : Json} {draft : Draft} {before after : Registry} :
    ParsesTop true schema before draft after →
    unmarked schema = true → ∃ plain, ParsesApart schema before plain after ∧
    ∀ final, draft.seal final = marked final plain
  | .node notUnion _ derivation, _ => by
    exact ⟨_, .node notUnion derivation, seal_ofParsed (derivation.notUnion notUnion)⟩
  | .adopted isMarked _, plainly => by
    rw [unmarked, isMarked] at plainly
    cases plainly
  | .union parts, plainly => by
    obtain ⟨parsed, done, sealed⟩ := parts.apart plainly
    exact ⟨_, .union done, fun final => by rw [Draft.seal, sealed, marked]⟩

theorem BranchesTop.apart {branches : List Json} {drafts : List Draft} {before after : Registry} :
    BranchesTop true branches before drafts after → branchesUnmarked branches = true →
      ∃ parsed, BranchesApart branches before parsed after ∧
        ∀ final, Draft.sealAll final drafts = markedBranches final parsed
  | .nil, _ => by exact ⟨[], .nil, fun _ => rfl⟩
  | .cons first others, plainly => by
    rw [branchesUnmarked, Bool.and_eq_true] at plainly
    obtain ⟨plain, done, sealed⟩ := first.apart plainly.1
    obtain ⟨parsed, othersDone, othersSealed⟩ := others.apart plainly.2
    exact ⟨_, .cons done othersDone,
      fun final => by rw [Draft.sealAll, sealed, othersSealed, markedBranches]⟩

end

theorem parse_unmarked_iff (plainly : unmarked schema = true) :
    parse {} before schema = .ok (parsed, after) ↔
      ∃ plain, ParsesApart schema before plain after ∧ parsed = marked after plain := by
  rw [parse_ok]
  constructor
  · rintro ⟨draft, derivation, rfl⟩
    obtain ⟨plain, apart, sealed⟩ := derivation.apart plainly
    exact ⟨plain, apart, sealed after⟩
  · rintro ⟨plain, apart, rfl⟩
    obtain ⟨draft, derivation, sealed⟩ := apart.top plainly
    exact ⟨draft, derivation, (sealed after).symm⟩

/-! ### Branches together -/

mutual

/-- A schema that is parsed apart is parsed by force as well, if no name is defined twice. -/
theorem ParsesApart.together {schema plain : Json} {before after : Registry}
    {defined : List String} :
    ParsesApart schema before plain after → (names plain).Nodup →
    (∀ name ∈ names plain, name ∉ defined) →
      Parses false (.str "") schema ⟨defined, before⟩ plain
        ⟨(names plain).reverse ++ defined, after⟩
  | .node _ derivation, _, free => by
    have ⟨entries, effect⟩ := derivation.effect
    have replayed := effect.replays ⟨defined, before⟩ (fun _ => id) free
    have stopIs := congrArg ParseState.registry effect.stopIs
    change after = Members.union before entries at stopIs
    rwa [ParseState.extend, ← stopIs] at replayed
  | .union parts, distinct, free => by exact .union (parts.together distinct free)

theorem BranchesApart.together {branches parsed : List Json} {before after : Registry}
    {defined : List String} :
    BranchesApart branches before parsed after → (branchNames parsed).Nodup →
    (∀ name ∈ branchNames parsed, name ∉ defined) →
      ParsesBranches false (.str "") branches ⟨defined, before⟩ parsed
        ⟨(branchNames parsed).reverse ++ defined, after⟩
  | .nil, _, _ => by exact .nil
  | .cons first others, distinct, free => by
    rw [branchNames] at distinct free ⊢
    have ⟨firstDistinct, othersDistinct, disjoint⟩ := List.nodup_append.mp distinct
    have ⟨firstFree, othersFree⟩ := List.forall_mem_append.mp free
    rw [List.reverse_append, List.append_assoc]
    refine .cons (first.together firstDistinct firstFree)
      (others.together othersDistinct fun name isOther isDefined => ?_)
    rcases List.mem_append.mp isDefined with isTaken | wasDefined
    · exact disjoint name (List.mem_reverse.mp isTaken) name isOther rfl
    · exact othersFree name isOther wasDefined

end

theorem Parses.apart_of_notUnion (derivation : Parses false (.str "") schema start plain stop)
    (notUnion : ∀ branches, schema ≠ .arr branches) :
    ParsesApart schema start.registry plain stop.registry := by
  have ⟨entries, effect⟩ := derivation.effect
  have replayed := effect.replays ⟨[], start.registry⟩ (fun _ => id) (by simp)
  rw [effect.stopIs]
  exact .node notUnion replayed

mutual

theorem Parses.apart {schema plain : Json} {start stop : ParseState}
    (derivation : Parses false (.str "") schema start plain stop) :
    ParsesApart schema start.registry plain stop.registry := by
  match schema, derivation with
  | .arr _, .union parts => exact .union parts.apart
  | .obj _, derivation | .str _, derivation => exact derivation.apart_of_notUnion (by simp)

theorem ParsesBranches.apart {branches parsed : List Json} {start stop : ParseState}
    (derivation : ParsesBranches false (.str "") branches start parsed stop) :
    BranchesApart branches start.registry parsed stop.registry := by
  match branches, derivation with
  | [], .nil => exact .nil
  | _ :: _, .cons first others => exact .cons first.apart others.apart

end

mutual

theorem alike_marked (registry : Registry) : ∀ plain : Json, Alike plain (marked registry plain)
  | .null | .bool _ | .int _ | .float _ | .str _ => .refl _
  | .arr branches => .arr (alikeItems_marked registry branches)
  | .obj members => by
    rcases marked_obj_cases members with isMarked | isPlain
    · rw [isMarked registry]
      exact (Alike.refl (.obj members)).marked registry
    · rw [isPlain registry]
      exact .refl _

theorem alikeItems_marked (registry : Registry) :
    ∀ branches : List Json, AlikeItems branches (markedBranches registry branches)
  | [] => .nil
  | branch :: rest => .cons (alike_marked registry branch) (alikeItems_marked registry rest)

end

theorem truthful_of_unmarked (plainly : unmarked schema = true) : Truthful schema := by
  intro plain parsed registry known forced given
  have ⟨_, derivation⟩ := parse_forced_ok.mp forced
  have accepted : parse {} [] schema = .ok (marked registry plain, registry) :=
    (parse_unmarked_iff plainly).mpr ⟨plain, derivation.apart, rfl⟩
  rw [accepted] at given
  cases given
  exact ⟨alike_marked registry plain, .refl registry⟩

/-- The reader's parse of a schema succeeds just if no name is defined twice among all its
branches. -/
theorem ParsesApart.forced_iff (apart : ParsesApart schema [] plain registry) :
    (names plain).Nodup ↔ parse .forced [] schema = .ok (plain, registry) := by
  rw [parse_forced_ok]
  constructor
  · exact fun distinct => ⟨_, apart.together distinct (by simp)⟩
  · rintro ⟨defined, derivation⟩
    have ⟨entries, effect⟩ := derivation.effect
    exact effect.distinct

/-- The reader accepts a schema without marks if the writer does and no name is defined twice in
it. -/
theorem forced_iff_nodup (plainly : unmarked schema = true) :
    (∃ plain registry, parse .forced [] schema = .ok (plain, registry)) ↔
      ∃ parsed registry, parse {} [] schema = .ok (parsed, registry) ∧ (names parsed).Nodup := by
  constructor
  · rintro ⟨plain, registry, forced⟩
    have ⟨defined, derivation⟩ := parse_forced_ok.mp forced
    refine ⟨_, registry, (parse_unmarked_iff plainly).mpr ⟨plain, derivation.apart, rfl⟩, ?_⟩
    rw [names_marked]
    exact derivation.apart.forced_iff.mpr forced
  · rintro ⟨parsed, registry, parses, distinct⟩
    obtain ⟨plain, apart, rfl⟩ := (parse_unmarked_iff plainly).mp parses
    rw [names_marked] at distinct
    exact ⟨plain, registry, apart.forced_iff.mp distinct⟩

/-! ### Parsing again -/

mutual

theorem ParsesApart.again {schema plain : Json} {before after : Registry} :
    ParsesApart schema before plain after → ParsesApart plain before plain after
  | .node notUnion derivation => by exact .node (derivation.notUnion notUnion) derivation.again
  | .union parts => by exact .union parts.again

theorem BranchesApart.again {branches parsed : List Json} {before after : Registry} :
    BranchesApart branches before parsed after → BranchesApart parsed before parsed after
  | .nil => by exact .nil
  | .cons first others => by exact .cons first.again others.again

end

section Marks

variable {members others : Members} {type : Json}

theorem bare_parsed (noMarks : ∀ mark ∈ marks, mark ∉ keys others) :
    bare (.obj (commonAttributes members type ++ others)) = bare (.obj members) := by
  have kept (mark : String) (isMark : mark ∈ marks) :
      has (commonAttributes members type ++ others) mark = has members mark := by
    have notReserved : ∀ mark ∈ marks, reservedAttributes.contains mark = false := by decide
    rw [has, has, get?_kept (notReserved mark isMark) (noMarks mark isMark)]
  rw [bare, bare, kept parsedKey (by decide), kept registryKey (by decide)]

end Marks

mutual

theorem Parses.bare {space node parsed : Json} {start stop : ParseState} :
    Parses false space node start parsed stop →
    Schema.bare node = true → Schema.bare parsed = true
  | .primitive _, _ | .reference _ _ _ _, _ => by rfl
  | .expansion _ _ _ expanded _, _ => by simp at expanded
  | .union parts, plainly => by exact parts.bare plainly
  | .primitiveNode _ _ _, plainly => by
    rwa [← List.append_nil (commonAttributes _ _), bare_parsed (by simp [keys])]
  | .collection _ _ isCollection _ _, plainly => by
    have noMarks : ∀ pair ∈ [("array", "items"), ("map", "values")], ∀ mark ∈ marks,
      mark ∉ [pair.2] := by decide
    refine (bare_parsed ?_).trans plainly
    exact noMarks _ isCollection
  | .leaf _ _ isLeaf _ _ _ _, plainly => by
    have noMarks : ∀ pair ∈ [("enum", "symbols"), ("fixed", "size")], ∀ mark ∈ marks,
      mark ∉ ["name", pair.2] := by decide
    refine (bare_parsed ?_).trans plainly
    exact noMarks _ isLeaf
  | .record _ _ _ _ _ _ _ _, plainly => by
    have noMarks : ∀ mark ∈ marks, mark ∉ ["name", "fields"] := by decide
    refine (bare_parsed ?_).trans plainly
    exact noMarks

theorem ParsesBranches.bare {space : Json} {branches parsed : List Json} {start stop : ParseState} :
    ParsesBranches false space branches start parsed stop → branchesBare branches = true →
    branchesBare parsed = true
  | .nil, _ => by rfl
  | .cons first others, plainly => by
    rw [branchesBare, Bool.and_eq_true] at plainly ⊢
    exact ⟨first.bare plainly.1, others.bare plainly.2⟩

end

mutual

theorem ParsesApart.bare {schema plain : Json} {before after : Registry} :
    ParsesApart schema before plain after →
    Schema.bare schema = true → Schema.bare plain = true
  | .node _ derivation, plainly => by exact derivation.bare plainly
  | .union parts, plainly => by exact parts.bare plainly

theorem BranchesApart.bare {branches parsed : List Json} {before after : Registry} :
    BranchesApart branches before parsed after → branchesBare branches = true →
    branchesBare parsed = true
  | .nil, _ => by rfl
  | .cons first others, plainly => by
    rw [branchesBare, Bool.and_eq_true] at plainly ⊢
    exact ⟨first.bare plainly.1, others.bare plainly.2⟩

end

/-! ### Marked schemas -/

mutual

/-- Marks keep a property that goes by parts, if the registry in them has it. -/
theorem good_marked {good : Json → Prop} (hereditary : Json.Hereditary good) {registry : Registry}
    (registryGood : good (.obj registry)) :
    ∀ plain : Json, good plain → good (marked registry plain)
  | .null, isGood | .bool _, isGood | .int _, isGood | .float _, isGood | .str _, isGood => isGood
  | .arr branches, isGood => by
    rw [marked]
    exact (hereditary.arr _).mpr
      (good_markedBranches hereditary registryGood branches ((hereditary.arr _).mp isGood))
  | .obj members, isGood => by
    unfold marked
    split
    · split
      · exact good_set hereditary (good_set hereditary isGood (hereditary.bool true)) registryGood
      · exact isGood
    · exact isGood

theorem good_markedBranches {good : Json → Prop} (hereditary : Json.Hereditary good)
    {registry : Registry} (registryGood : good (.obj registry)) :
    ∀ branches : List Json, (∀ branch ∈ branches, good branch) →
      ∀ branch ∈ markedBranches registry branches, good branch
  | [], areGood => areGood
  | branch :: rest, areGood => by
    rw [List.forall_mem_cons] at areGood
    rw [markedBranches, List.forall_mem_cons]
    exact ⟨good_marked hereditary registryGood branch areGood.1,
      good_markedBranches hereditary registryGood rest areGood.2⟩

end

mutual

theorem ParsesApart.good {good : Json → Prop} (hereditary : Json.Hereditary good)
    {schema plain : Json} {before after : Registry} :
    ParsesApart schema before plain after → good schema → good (.obj before) →
      good plain ∧ good (.obj after)
  | .node _ derivation, isGood, beforeGood => by exact derivation.good hereditary isGood beforeGood
  | .union parts, isGood, beforeGood => by
    have ⟨partsGood, afterGood⟩ := parts.good hereditary ((hereditary.arr _).mp isGood) beforeGood
    exact ⟨(hereditary.arr _).mpr partsGood, afterGood⟩

theorem BranchesApart.good {good : Json → Prop} (hereditary : Json.Hereditary good)
    {branches parsed : List Json} {before after : Registry} :
    BranchesApart branches before parsed after → (∀ branch ∈ branches, good branch) →
      good (.obj before) → (∀ branch ∈ parsed, good branch) ∧ good (.obj after)
  | .nil, areGood, beforeGood => by exact ⟨areGood, beforeGood⟩
  | .cons first others, areGood, beforeGood => by
    rw [List.forall_mem_cons] at areGood ⊢
    have ⟨firstGood, betweenGood⟩ := first.good hereditary areGood.1 beforeGood
    have ⟨othersGood, afterGood⟩ := others.good hereditary areGood.2 betweenGood
    exact ⟨⟨firstGood, othersGood⟩, afterGood⟩

end

/-- The entries that a parse makes for the names that it defines. -/
structure Entries (before after : Registry) (taken : List String) (entries : Registry) : Prop where
  afterIs : after = Members.union before entries
  entered : ∀ name, name ∈ keys entries ↔ name ∈ taken

theorem Entries.append {between : Registry} {entries : Registry}
    (first : Entries before between taken entries) (second : Entries between after others later) :
    Entries before after (taken ++ others) (entries ++ later) := by
  refine ⟨?_, fun name => ?_⟩
  · rw [second.afterIs, first.afterIs, Members.union_append]
  · rw [keys, List.map_append, List.mem_append, List.mem_append, ← keys, ← keys, first.entered,
      second.entered]

mutual

theorem ParsesApart.entries {schema plain : Json} {before after : Registry} :
    ParsesApart schema before plain after →
    ∃ entries, Entries before after (names plain) entries
  | .node _ derivation => by
    have ⟨entries, effect⟩ := derivation.effect
    exact ⟨entries, congrArg ParseState.registry effect.stopIs, effect.entered⟩
  | .union parts => by exact parts.entries

theorem BranchesApart.entries {branches parsed : List Json} {before after : Registry} :
    BranchesApart branches before parsed after →
    ∃ entries, Entries before after (branchNames parsed) entries
  | .nil => by exact ⟨[], rfl, fun _ => Iff.rfl⟩
  | .cons first others => by
    have ⟨entries, made⟩ := first.entries
    have ⟨later, madeLater⟩ := others.entries
    exact ⟨_, made.append madeLater⟩

end

/-- A registry that is complete stays as it is when definitions are entered that it has. -/
theorem Entries.union_complete {entries : Registry} (made : Entries before after taken entries)
    (completed : Entries after final others later) (namesDistinct : (taken ++ others).Nodup)
    (distinct : (keys final).Nodup) : Members.union final entries = final := by
  have isKey (name : String) (isEntry : name ∈ keys entries) : name ∈ keys final := by
    rw [completed.afterIs, made.afterIs]
    exact Members.mem_keys_union.mpr (.inl (Members.mem_keys_union.mpr (.inr isEntry)))
  have sameKeys := Members.keys_union_of_subset isKey
  refine Members.eq_of_get? sameKeys (sameKeys ▸ distinct) fun name _ => ?_
  by_cases isEntry : name ∈ keys entries
  · have notLater : name ∉ keys later := fun isLater =>
      (List.nodup_append.mp namesDistinct).2.2 name ((made.entered name).mp isEntry) name
        ((completed.entered name).mp isLater)
        rfl
    rw [Members.get?_union_congr isEntry final before, completed.afterIs,
      Members.get?_union_of_notMem notLater, made.afterIs]
  · exact Members.get?_union_of_notMem isEntry

theorem Entries.understands {entries : Registry} (made : Entries before after taken entries)
    {name : String} (known : Understands before name) : Understands after name := by
  rw [made.afterIs]
  by_cases isEntry : name ∈ keys entries
  · exact understands_entry isEntry before
  · rwa [Understands, Members.get?_union_of_notMem isEntry]

theorem Entries.keys_start {entries : Registry} (made : Entries before after taken entries) :
    keys before <+: keys after := by
  rw [made.afterIs]
  exact Members.keys_prefix_union before entries

/-- A record that is marked with the final registry is adopted, and completes what is known. -/
theorem parseTop_adopted {current : Registry}
    (isMarked : get? members parsedKey = some (.bool true))
    (holds : get? members registryKey = some (.obj final)) (starts : keys current <+: keys final)
    (distinct : (keys final).Nodup) :
    parseTop {} (.obj members) current = .ok (.plain (.obj members)) final := by
  have hasMark : has members parsedKey = true := by
    rw [has, isMarked]
    rfl
  rw [parseTop, if_neg (by simp [hasMark]), adopt]
  simp only [holds, Members.union_of_prefix starts distinct]

/-! ### Schemas with some of their marks -/

mutual

/-- A plain schema, the schema with some of its records marked, and what that is parsed to: a record
with marks is taken as it is, and the others get theirs. -/
inductive PartlyMarked (registry : Registry) : Json → Json → Json → Prop where
  | plain {schema : Json} (notUnion : ∀ branches, schema ≠ .arr branches) :
      PartlyMarked registry schema schema (marked registry schema)
  | adopted {members others : List (String × Json)}
      (isMarked : marked registry (.obj members) = .obj (sealedMembers registry members))
      (same : ∀ key, get? others key = get? (sealedMembers registry members) key) :
      PartlyMarked registry (.obj members) (.obj others) (.obj others)
  | union {plains givens results : List Json}
      (branches : BranchesPartlyMarked registry plains givens results) :
      PartlyMarked registry (.arr plains) (.arr givens) (.arr results)

inductive BranchesPartlyMarked (registry : Registry) : List Json → List Json →
    List Json → Prop where
  | nil : BranchesPartlyMarked registry [] [] []
  | cons {plain given result : Json} {plains givens results : List Json}
      (first : PartlyMarked registry plain given result)
      (others : BranchesPartlyMarked registry plains givens results) :
      BranchesPartlyMarked registry (plain :: plains) (given :: givens) (result :: results)

end

mutual

theorem partlyMarked_plain (registry : Registry) :
    ∀ plain : Json, PartlyMarked registry plain plain (marked registry plain)
  | .arr branches => .union (branchesPartlyMarked_plain registry branches)
  | .null | .bool _ | .int _ | .float _ | .str _ | .obj _ => .plain nofun

theorem branchesPartlyMarked_plain (registry : Registry) : ∀ plains : List Json,
    BranchesPartlyMarked registry plains plains (markedBranches registry plains)
  | [] => .nil
  | plain :: rest =>
    .cons (partlyMarked_plain registry plain) (branchesPartlyMarked_plain registry rest)

end

mutual

theorem partlyMarked_marked (registry : Registry) : ∀ plain : Json,
    PartlyMarked registry plain (marked registry plain) (marked registry plain)
  | .arr branches => .union (branchesPartlyMarked_marked registry branches)
  | .null | .bool _ | .int _ | .float _ | .str _ => .plain nofun
  | .obj members => by
    rcases marked_obj_cases members with isMarked | isPlain
    · rw [isMarked registry]
      exact .adopted (isMarked registry) fun _ => rfl
    · have plainly := @PartlyMarked.plain registry (.obj members) nofun
      rwa [isPlain registry] at plainly ⊢

theorem branchesPartlyMarked_marked (registry : Registry) : ∀ plains : List Json,
    BranchesPartlyMarked registry plains (markedBranches registry plains)
      (markedBranches registry plains)
  | [] => .nil
  | plain :: rest =>
    .cons (partlyMarked_marked registry plain) (branchesPartlyMarked_marked registry rest)

end

section Marked

variable {schema plain : Json} {before after final current : Registry} {others : List String}
  {later : Registry}
variable {defined : List String}

section

variable (notUnion : ∀ branches, plain ≠ .arr branches)
  (derivation : Parses false (.str "") plain ⟨[], before⟩ plain ⟨defined, after⟩)
  (plainly : unmarked plain = true) (completed : Entries after final others later)
  (namesDistinct : (names plain ++ others).Nodup) (distinct : (keys final).Nodup)
  (currentIs : current = before ∨ current = final)
include notUnion derivation plainly completed namesDistinct distinct currentIs

/-- A node that is no union is parsed again to itself, whether against the registry of the first
time or the final one. -/
theorem parseTop_again :
    ∃ draft next, parseTop {} plain current = .ok draft next ∧
      (∀ any, draft.seal any = marked any plain) ∧
      (next = after ∨ next = final) := by
  have ⟨entries, effect⟩ := derivation.effect
  have made : Entries before after (names plain) entries :=
    ⟨congrArg ParseState.registry effect.stopIs, effect.entered⟩
  rcases currentIs with rfl | rfl
  · have ⟨draft, done, sealed⟩ := (ParsesApart.node notUnion derivation).top plainly
    exact ⟨draft, after, done.parseTop, sealed, .inl rfl⟩
  · have understood (name : String) (known : Understands before name) : Understands current name :=
      completed.understands (made.understands known)
    have replayed := effect.replays ⟨[], current⟩ understood (by simp)
    rw [ParseState.extend, made.union_complete completed namesDistinct distinct] at replayed
    have ⟨draft, done, sealed⟩ := (ParsesApart.node notUnion replayed).top plainly
    exact ⟨draft, current, done.parseTop, sealed, .inr rfl⟩

/-- A node that is no union gets its mark, or is taken as it is if it is marked with the final
registry. -/
theorem parseTop_partlyMarked_node (partly : PartlyMarked final plain given result) :
    ∃ draft next, parseTop {} given current = .ok draft next ∧ draft.seal final = result ∧
      (next = after ∨ next = final) := by
  cases partly with
  | union => exact absurd rfl (notUnion _)
  | plain =>
    have ⟨draft, next, drafted, sealed, nextIs⟩ :=
      parseTop_again notUnion derivation plainly completed namesDistinct distinct currentIs
    exact ⟨draft, next, drafted, sealed final, nextIs⟩
  | adopted isMarked same =>
    have ⟨entries, made⟩ := (ParsesApart.node notUnion derivation).entries
    have starts : keys current <+: keys final := by
      rcases currentIs with rfl | rfl
      · exact made.keys_start.trans completed.keys_start
      · exact List.prefix_rfl
    have flag := (same parsedKey).trans (get?_sealed_parsedKey _ final)
    have table := (same registryKey).trans (get?_sealed_registryKey _ final)
    exact ⟨_, final, parseTop_adopted flag table starts distinct, rfl, .inr rfl⟩

end

end Marked

mutual

/-- What a schema with some of its marks is parsed to. Until its first record with a mark the
registry goes as it did before; from there on it is the final one. -/
theorem ParsesApart.parseTop_partlyMarked {schema plain given result : Json}
    {before after final current : Registry} {others : List String} {later : Registry} :
    ParsesApart schema before plain after → PartlyMarked final plain given result →
      Schema.bare plain = true → Entries after final others later → (names plain ++ others).Nodup →
      (keys final).Nodup → current = before ∨ current = final →
        ∃ draft next, parseTop {} given current = .ok draft next ∧ draft.seal final = result ∧
          (next = after ∨ next = final)
  | .node notUnion derivation, partly, plainly, completed, namesDistinct, distinct, currentIs => by
    exact parseTop_partlyMarked_node (derivation.notUnion notUnion) derivation.again
      (unmarked_of_bare _ plainly) completed
      namesDistinct distinct currentIs partly
  | .union _, .plain notUnion, _, _, _, _, _ => by exact absurd rfl (notUnion _)
  | .union parts, .union branches, plainly, completed, namesDistinct, distinct, currentIs => by
    have ⟨drafts, next, drafted, sealed, nextIs⟩ :=
      parts.parseTop_partlyMarked branches plainly completed namesDistinct distinct currentIs
    refine ⟨.branches drafts, next, ?_, ?_, nextIs⟩
    · rw [parseTop, if_neg (by decide)]
      exact step_bind_ok.mpr ⟨drafts, next, drafted, rfl⟩
    · rw [Draft.seal, sealed]

theorem BranchesApart.parseTop_partlyMarked {branches parsed givens results : List Json}
    {before after final current : Registry} {others : List String} {later : Registry} :
    BranchesApart branches before parsed after → BranchesPartlyMarked final parsed givens results →
      branchesBare parsed = true → Entries after final others later →
      (branchNames parsed ++ others).Nodup →
      (keys final).Nodup → current = before ∨ current = final →
        ∃ drafts next, parseTopBranches {} givens current = .ok drafts next ∧
          Draft.sealAll final drafts = results ∧
          (next = after ∨ next = final)
  | .nil, .nil, _, _, _, _, currentIs => by exact ⟨[], current, rfl, rfl, currentIs⟩
  | .cons first rest, .cons firstPartly restPartly, plainly, completed, namesDistinct, distinct,
      currentIs => by
    rw [branchesBare, Bool.and_eq_true] at plainly
    rw [branchNames, List.append_assoc] at namesDistinct
    have ⟨entries, made⟩ := rest.entries
    have ⟨draft, middle, drafted, sealed, middleIs⟩ :=
      first.parseTop_partlyMarked firstPartly plainly.1 (made.append completed) namesDistinct
        distinct currentIs
    have ⟨drafts, next, restDrafted, restSealed, nextIs⟩ :=
      rest.parseTop_partlyMarked restPartly plainly.2 completed
      (List.nodup_append.mp namesDistinct).2.1 distinct middleIs
    refine ⟨draft :: drafts, next, ?_, ?_, nextIs⟩
    · rw [parseTopBranches]
      exact step_bind_ok.mpr ⟨_, _, drafted, step_bind_ok.mpr ⟨_, _, restDrafted, rfl⟩⟩
    · rw [Draft.sealAll, sealed, restSealed]

end

/-- A schema with some of its marks is parsed as the schema without them, as far as it has to be
parsed at all. -/
theorem ParsesApart.parse_partlyMarked (apart : ParsesApart schema [] plain registry)
    (plainly : Schema.bare schema = true) (namesDistinct : (names plain).Nodup)
    (partly : PartlyMarked registry plain given result) :
    parse {} [] given = .ok (result, registry) := by
  have ⟨entries, made⟩ := apart.entries
  have complete : Entries registry registry [] [] := ⟨rfl, fun _ => Iff.rfl⟩
  have distinct : (keys registry).Nodup := by
    rw [made.afterIs]
    exact Members.nodup_keys_union List.nodup_nil
  have ⟨draft, next, drafted, sealed, nextIs⟩ :=
    apart.parseTop_partlyMarked partly (apart.bare plainly) complete
    ((List.append_nil (names plain)).symm ▸ namesDistinct) distinct (.inl rfl)
  rw [or_self] at nextIs
  subst nextIs
  rw [parse, drafted, ← sealed]

end Avro.Schema
