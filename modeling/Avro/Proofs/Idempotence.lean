import Avro.Proofs.Marking

/-!
Contract: what has been parsed is parsed again to itself.

Owns: that the second parse of a schema gives the same schema with the same registry, and that marks
make no difference to what is accepted.

The second parse does not go the same way. A record that got its mark the first time brings the
whole registry at once, before the branches behind it enter their definitions again. What is entered
later is therefore entered into a registry that has it; the registry is complete from there on.
-/

namespace Avro

open Members (keys union_append)

theorem Members.union_union {α : Type} {members additions : List (String × α)}
    (distinct : (keys (Members.union members additions)).Nodup) :
    Members.union (Members.union members additions) additions =
      Members.union members additions := by
  have sameKeys : keys (Members.union (Members.union members additions) additions) =
      keys (Members.union members additions) :=
    Members.keys_union_of_subset fun key isKey => Members.mem_keys_union.mpr (.inr isKey)
  refine Members.eq_of_get? sameKeys (sameKeys ▸ distinct) fun key _ => ?_
  by_cases isKey : key ∈ keys additions
  · exact Members.get?_union_congr isKey _ _
  · exact Members.get?_union_of_notMem isKey

namespace Schema

variable {before entries final later after registry : Registry} {again : Registry → Registry → Prop}
  {schema parsed : Json} {mark : Bool}

/-! ### Without marks -/

mutual

/-- Whether marks are asked for makes no difference to what is accepted, and to the registry. -/
theorem ParsesTop.unhinted {mark other : Bool} {schema : Json} {before after : Registry}
    {draft : Draft} :
    ParsesTop mark schema before draft after →
    ∃ otherDraft, ParsesTop other schema before otherDraft after
  | .node notUnion plainly derivation => by exact ⟨_, .node notUnion plainly derivation⟩
  | .adopted isMarked holds => by exact ⟨_, .adopted isMarked holds⟩
  | .union parts => by
    obtain ⟨otherDrafts, done⟩ := parts.unhinted
    exact ⟨_, .union done⟩

theorem BranchesTop.unhinted {mark other : Bool} {branches : List Json} {before after : Registry}
    {drafts : List Draft} :
    BranchesTop mark branches before drafts after →
    ∃ otherDrafts, BranchesTop other branches before otherDrafts after
  | .nil => by exact ⟨_, .nil⟩
  | .cons first others => by
    obtain ⟨otherDraft, done⟩ := first.unhinted
    obtain ⟨otherDrafts, othersDone⟩ := others.unhinted
    exact ⟨_, .cons done othersDone⟩

end

/-! ### The second parse -/

theorem Parses.unmarked {space node parsed : Json} {start stop : ParseState}
    (derivation : Parses false space node start parsed stop)
    (notUnion : ∀ branches, node ≠ .arr branches) (plainly : Schema.unmarked node = true) :
    Schema.unmarked parsed = true := by
  have kept {members others : Members} (type : Json) (areOwn : Schema.areOwn others = true)
      (plainly : Schema.unmarked (.obj members) = true) :
      Schema.unmarked (.obj (commonAttributes members type ++ others)) = true := by
    rw [Schema.unmarked, Members.has] at plainly ⊢
    rwa [get?_kept (by decide) (notMem_keys_of_notReserved areOwn (by decide))]
  cases derivation with
  | primitive | reference => rfl
  | expansion _ _ _ expanded => simp at expanded
  | union => exact absurd rfl (notUnion _)
  | primitiveNode =>
    rw [← List.append_nil (commonAttributes _ _)]
    exact kept _ rfl plainly
  | collection _ _ isCollection => exact kept _ (areOwn_collection isCollection _) plainly
  | leaf _ _ isLeaf => exact kept _ (areOwn_leaf isLeaf _ _) plainly
  | record => exact kept _ rfl plainly

/-- The parse of a draft's schema, once the draft is sealed with the final registry: from a registry
which, together with the entries that are still to come, is the final one, it goes to such a
registry again. -/
def ParsesAgain (again : Registry → Registry → Prop) (before after entries final later : Registry) :
    Prop :=
  ∀ current, (∀ name, Understands before name → Understands current name) →
    Members.union current (entries ++ later) = final →
    ∃ next, again current next ∧ Members.union next later = final ∧ ∀ name, Understands after name →
      Understands next name

theorem ParsesAgain.ofEntries
    (enters : ∀ current, (∀ name, Understands before name → Understands current name) →
      again current (Members.union current entries)) :
    ParsesAgain again before (Members.union before entries) entries final later := by
  intro current understood completes
  refine ⟨_, enters current understood, ?_, understands_union understood⟩
  rw [← union_append, completes]

/-- A record that is marked with the final registry completes what is known at once. -/
theorem ParsesAgain.ofFinal (distinct : (keys final).Nodup)
    (adopts : ∀ current, again current (Members.union current final)) :
    ParsesAgain again before (Members.union before entries) entries final later := by
  intro current understood completes
  have complete : Members.union current final = final := by
    refine Members.union_of_prefix ?_ distinct
    rw [← completes]
    exact Members.keys_prefix_union _ _
  rw [union_append] at completes
  refine ⟨final, complete ▸ adopts current, ?_, fun name known => ?_⟩
  · rw [← completes]
    exact Members.union_union (completes.symm ▸ distinct)
  · obtain ⟨definition, found⟩ := understands_union understood name known
    have isKey : name ∈ keys final := by
      rw [← completes]
      exact Members.mem_keys_union.mpr (.inl (Members.mem_keys_of_get? found))
    exact Members.exists_get?_of_mem isKey

theorem ParsesAgain.andThen {first second : Registry → Registry → Prop} {between others : Registry}
    (firstAgain : ParsesAgain first before between entries final (others ++ later))
    (secondAgain : ParsesAgain second between after others final later) :
    ParsesAgain (fun current next => ∃ middle, first current middle ∧ second middle next) before
      after (entries ++ others) final
      later := by
  intro current understood completes
  rw [List.append_assoc] at completes
  obtain ⟨middle, firstDone, completesLater, stillUnderstood⟩ :=
    firstAgain current understood completes
  obtain ⟨next, secondDone, finallyComplete, afterUnderstood⟩ :=
    secondAgain middle stillUnderstood completesLater
  exact ⟨next, ⟨middle, firstDone, secondDone⟩, finallyComplete, afterUnderstood⟩

theorem ParsesAgain.mono {other : Registry → Registry → Prop}
    (parses : ParsesAgain again before after entries final later)
    (implied : ∀ current next, again current next → other current next) :
    ParsesAgain other before after entries final later := by
  intro current understood completes
  obtain ⟨next, done, complete, stillUnderstood⟩ := parses current understood completes
  exact ⟨next, implied current next done, complete, stillUnderstood⟩

/-- What a sealed draft is parsed to again: a draft with the same schema. -/
def Draft.Again (mark : Bool) (final : Registry) (draft : Draft) (current next : Registry) : Prop :=
  ∃ second, ParsesTop mark (draft.seal final) current second next ∧
    second.seal final = draft.seal final

theorem Parses.parsesAgain {plain : Json} {defined : List String}
    (notUnion : ∀ branches, schema ≠ .arr branches) (plainly : Schema.unmarked schema = true)
    (derivation : Parses false (.str "") schema ⟨[], before⟩ plain ⟨defined, after⟩) :
    ∃ entries, after = Members.union before entries ∧ ∀ final later, (keys final).Nodup →
      ParsesAgain ((Draft.ofParsed mark plain).Again mark final) before after entries
        final later := by
  obtain ⟨entries, effect⟩ := derivation.again.effect
  obtain rfl : after = Members.union before entries := congrArg ParseState.registry effect.stopIs
  refine ⟨entries, rfl, fun final later distinct => ?_⟩
  rcases Draft.ofParsed_cases mark plain with isPlain | ⟨members, _, -, -, -, isMarked⟩
  · refine .ofEntries fun current understood => ⟨Draft.ofParsed mark plain, ?_, rfl⟩
    have replayed := effect.replays ⟨[], current⟩ understood (by simp)
    rw [isPlain, Draft.seal, ← isPlain]
    exact .node (derivation.notUnion notUnion) (derivation.unmarked notUnion plainly) replayed
  · have flagged : Members.has (sealedMembers final members) parsedKey = true := by
      rw [Members.has, get?_sealed_parsedKey]
      rfl
    rw [isMarked]
    exact .ofFinal distinct fun current =>
      ⟨_, .adopted flagged (get?_sealed_registryKey members final), rfl⟩

mutual

theorem ParsesTop.parsesAgain {mark : Bool} {schema : Json} {before after : Registry}
    {draft : Draft} :
    ParsesTop mark schema before draft after → ∃ entries, after = Members.union before entries ∧
      ∀ final later, (keys final).Nodup →
        ParsesAgain (draft.Again mark final) before after entries final later
  | .node notUnion plainly derivation => by exact derivation.parsesAgain notUnion plainly
  | .adopted isMarked holds => by
    refine ⟨_, rfl, fun final later _ => .ofEntries fun current _ =>
      ⟨_, .adopted isMarked holds, rfl⟩⟩
  | .union parts => by
    obtain ⟨entries, afterIs, again⟩ := parts.parsesAgain
    refine ⟨entries, afterIs, fun final later distinct => (again final later distinct).mono ?_⟩
    rintro current next ⟨seconds, done, sameSeals⟩
    exact ⟨.branches seconds, .union done, congrArg Json.arr sameSeals⟩

theorem BranchesTop.parsesAgain {mark : Bool} {branches : List Json} {before after : Registry}
    {drafts : List Draft} :
    BranchesTop mark branches before drafts after →
    ∃ entries, after = Members.union before entries ∧
      ∀ final later, (keys final).Nodup → ParsesAgain (fun current next => ∃ seconds,
        BranchesTop mark (Draft.sealAll final drafts) current seconds next ∧
          Draft.sealAll final seconds = Draft.sealAll final drafts) before after entries final later
  | .nil => by
    refine ⟨[], rfl, fun final later _ => .ofEntries fun current _ => ⟨[], .nil, rfl⟩⟩
  | .cons first others => by
    obtain ⟨entries, rfl, firstAgain⟩ := first.parsesAgain
    obtain ⟨moreEntries, rfl, othersAgain⟩ := others.parsesAgain
    refine ⟨entries ++ moreEntries, (union_append ..).symm, fun final later distinct => ?_⟩
    refine ((firstAgain final _ distinct).andThen (othersAgain final later distinct)).mono ?_
    rintro current next ⟨middle, ⟨second, done, sameSeal⟩, seconds, othersDone, sameSeals⟩
    refine ⟨second :: seconds, .cons done othersDone, ?_⟩
    rw [Draft.sealAll, Draft.sealAll, sameSeal, sameSeals]

end

/-- What has been parsed against no registry is parsed again to itself, with the same registry. -/
theorem parse_parse (parses : parse { mark } [] schema = .ok (parsed, registry)) :
    parse { mark } [] parsed = .ok (parsed, registry) := by
  obtain ⟨draft, derivation, rfl⟩ := parse_ok.mp parses
  obtain ⟨entries, rfl, again⟩ := derivation.parsesAgain
  have distinct : (keys (Members.union [] entries)).Nodup := Members.nodup_keys_union List.nodup_nil
  have completes : Members.union [] (entries ++ []) = Members.union [] entries := by
    rw [List.append_nil]
  obtain ⟨next, ⟨second, done, sameSeal⟩, nextIs, -⟩ :=
    again _ [] distinct [] (fun _ => id) completes
  obtain rfl : next = Members.union [] entries := nextIs
  exact parse_ok.mpr ⟨second, done, sameSeal.symm⟩

/-- A schema that is accepted is accepted without marks as well, with the same registry. -/
theorem parse_unhinted {other : Bool}
    (parses : parse { mark } before schema = .ok (parsed, registry)) :
    ∃ plain, parse { mark := other } before schema = .ok (plain, registry) := by
  obtain ⟨draft, derivation, -⟩ := parse_ok.mp parses
  obtain ⟨otherDraft, done⟩ := derivation.unhinted
  exact ⟨_, parse_ok.mpr ⟨otherDraft, done, rfl⟩⟩

end Schema

end Avro
