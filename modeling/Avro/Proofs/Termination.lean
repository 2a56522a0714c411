import Avro.Proofs.Progress
import Avro.Proofs.ReadingLevel
import Mathlib.Data.Finset.Card
import Mathlib.Logic.Relation

/-!
Contract: reading and skipping end on every input.

Owns: `Guarded`, the schemas in which every way from a named type back to itself passes through a
union, an array or a map; `height`, how far a node is from the next byte; and that beyond a depth
which grows with the bytes of the input, neither reading nor skipping fails for want of depth.

Neither the schema nor the input gets smaller at every step. A union, an array and a map read a byte
before they come to their parts. Between two bytes, reading goes on to definitions and to the types
of fields only: a name does not come back there, and from one name to the next the nodes get
smaller.
-/

namespace Avro.Decode

open Schema (attributeOf documentItemAt kindOf)

variable {registry : Registry} {schema node part : Json} {name : String} {definition : Json}

/-! ### Ways through a schema -/

/-- The nodes that a reading by a schema can come to. -/
def Visits (registry : Registry) : Json → Json → Prop :=
  Relation.ReflTransGen fun node part => Leads registry node part ∨ Guards node part

/-- A node leads to a reference to a name. -/
def Refers (registry : Registry) (node : Json) (name : String) : Prop :=
  ∃ reference, Relation.ReflTransGen (Leads registry) node reference ∧
    kindOf reference = .ok (.named name)

/-- Every way from a named type of a schema back to itself passes through a union, an array or a
map. -/
def Guarded (registry : Registry) (schema : Json) : Prop :=
  ∀ reference name definition, Visits registry schema reference →
    kindOf reference = .ok (.named name) →
    Schema.resolve registry name = .ok definition → ¬ Refers registry definition name

theorem Refers.of_leads (leads : Leads registry node part) (refers : Refers registry part name) :
    Refers registry node name := by
  obtain ⟨reference, reaches, isReference⟩ := refers
  exact ⟨reference, .head leads reaches, isReference⟩

/-! ### The distance to the next byte -/

/-- How much there is within a node; a text has no nodes within. -/
noncomputable def bulk : Json → Nat
  | .str _ => 0
  | node => sizeOf node

theorem bulk_le_sizeOf (node : Json) : bulk node ≤ sizeOf node := by
  cases node with
  | str text => exact Nat.zero_le _
  | _ => exact le_rfl

theorem sizeOf_lt_of_attributeOf {key : String} (found : attributeOf node key = .ok part) :
    sizeOf part < bulk node := by
  cases node with
  | obj members =>
    have smaller := Members.sizeOf_lt_of_get? (Schema.required_ok.mp found)
    simp only [bulk, Json.obj.sizeOf_spec]
    omega
  | _ => cases found

theorem bulk_lt_of_field {field type : Json} {fields : List Json}
    (fieldsAre : fieldsOf node = .ok fields) (isField : field ∈ fields)
    (typeIs : attributeOf field "type" = .ok type) : bulk type < bulk node := by
  obtain ⟨document, found, iterated⟩ := outcome_bind_ok.mp fieldsAre
  have smaller := sizeOf_lt_of_attributeOf found
  have typeSmaller := (bulk_le_sizeOf type).trans_lt (sizeOf_lt_of_attributeOf typeIs)
  cases document with
  | arr items =>
    cases iterated
    have itemSmaller := List.sizeOf_lt_of_mem isField
    have fieldBulk := bulk_le_sizeOf field
    simp only [Json.arr.sizeOf_spec] at smaller
    omega
  | str text =>
    cases iterated
    obtain ⟨character, -, rfl⟩ := List.mem_map.mp isField
    cases typeIs
  | obj members =>
    cases iterated
    obtain ⟨member, -, rfl⟩ := List.mem_map.mp isField
    cases typeIs
  | _ => cases iterated

private theorem bulk_le_of_guards (guards : Guards node part) : bulk part ≤ bulk node := by
  cases guards with
  | items _ under => exact (bulk_le_sizeOf part).trans (sizeOf_lt_of_attributeOf under).le
  | values _ under => exact (bulk_le_sizeOf part).trans (sizeOf_lt_of_attributeOf under).le
  | branch _ found =>
    cases node with
    | arr items =>
      have smaller := List.sizeOf_lt_of_mem (mem_of_itemAt found)
      have partBulk := bulk_le_sizeOf part
      change bulk part ≤ sizeOf (Json.arr items)
      rw [Json.arr.sizeOf_spec]
      omega
    | str text =>
      obtain ⟨character, -, isText⟩ := outcome_bind_ok.mp found
      cases isText
      exact le_rfl
    | _ => cases found

/-- No node that a reading comes to is larger than the schema and the registry together. -/
theorem bulk_le_of_visits (visits : Visits registry schema node) :
    bulk node ≤ sizeOf registry + sizeOf schema := by
  induction visits with
  | refl => exact (bulk_le_sizeOf schema).trans (Nat.le_add_left _ _)
  | tail _ onward ih =>
    rcases onward with leads | guards
    · cases leads with
      | definition _ found =>
        have smaller := Members.sizeOf_lt_of_get? (Schema.resolve_ok.mp found)
        exact (bulk_le_sizeOf _).trans (smaller.le.trans (Nat.le_add_right _ _))
      | field _ fieldsAre isField typeIs =>
        exact (bulk_lt_of_field fieldsAre isField typeIs).le.trans ih
    · exact (bulk_le_of_guards guards).trans ih

open Classical in
/-- The names of the registry to which a node leads. -/
noncomputable def namesBelow (registry : Registry) (node : Json) : Finset String :=
  (Members.keys registry).toFinset.filter (Refers registry node)

/-- The distance of a node from the next byte, where no node is larger than the given size. -/
noncomputable def height (registry : Registry) (size : Nat) (node : Json) : Nat :=
  (namesBelow registry node).card * (size + 1) + bulk node

theorem namesBelow_subset (leads : Leads registry node part) :
    namesBelow registry part ⊆ namesBelow registry node := by
  intro name isBelow
  simp only [namesBelow, Finset.mem_filter] at isBelow ⊢
  exact ⟨isBelow.1, isBelow.2.of_leads leads⟩

private theorem namesBelow_ssubset (guarded : Guarded registry schema)
    (visits : Visits registry schema node) (isReference : kindOf node = .ok (.named name))
    (found : Schema.resolve registry name = .ok definition) :
    namesBelow registry definition ⊂ namesBelow registry node := by
  refine Finset.ssubset_iff_of_subset (namesBelow_subset (.definition isReference found)) |>.mpr
    ⟨name, ?_, ?_⟩
  · simp only [namesBelow, Finset.mem_filter, List.mem_toFinset]
    exact ⟨Members.mem_keys_of_get? (Schema.resolve_ok.mp found), node, .refl, isReference⟩
  · intro isBelow
    simp only [namesBelow, Finset.mem_filter] at isBelow
    exact guarded node name definition visits isReference found isBelow.2

private theorem height_lt_of_leads (guarded : Guarded registry schema)
    (visits : Visits registry schema node) (leads : Leads registry node part) :
    height registry (sizeOf registry + sizeOf schema) part <
      height registry (sizeOf registry + sizeOf schema) node := by
  have bounded := bulk_le_of_visits (visits.tail (.inl leads))
  unfold height
  cases leads with
  | definition isReference found =>
    have fewer := Finset.card_lt_card (namesBelow_ssubset guarded visits isReference found)
    have product := Nat.mul_le_mul_right (sizeOf registry + sizeOf schema + 1) fewer
    rw [Nat.succ_mul] at product
    omega
  | field isRecord fieldsAre isField typeIs =>
    have leads : Leads registry node part := .field isRecord fieldsAre isField typeIs
    have fewer := Finset.card_le_card (namesBelow_subset leads)
    have product := Nat.mul_le_mul_right (sizeOf registry + sizeOf schema + 1) fewer
    have smaller := bulk_lt_of_field fieldsAre isField typeIs
    omega

/-- More than the height of any node that a reading by a schema comes to. -/
noncomputable def summit (registry : Registry) (schema : Json) : Nat :=
  (registry.length + 1) * (sizeOf registry + sizeOf schema + 1)

theorem height_lt_summit (visits : Visits registry schema node) :
    height registry (sizeOf registry + sizeOf schema) node < summit registry schema := by
  have bounded := bulk_le_of_visits visits
  have fewer : (namesBelow registry node).card ≤ registry.length := by
    classical
    refine (Finset.card_filter_le _ _).trans ((List.toFinset_card_le _).trans ?_)
    simp [Members.keys]
  have product := Nat.mul_le_mul_right (sizeOf registry + sizeOf schema + 1) fewer
  unfold height summit
  rw [Nat.succ_mul]
  omega

/-- A depth is enough for a node that a reading comes to, on inputs of at most so many bytes. -/
def Suffices (registry : Registry) (schema : Json) (depth : Nat) (node : Json) (limit : Nat) :
    Prop :=
  Visits registry schema node ∧
  limit * summit registry schema + height registry (sizeOf registry + sizeOf schema) node < depth

/-- Without a byte in between, the height is less; behind a byte, there are fewer bytes. -/
theorem Guarded.descends (guarded : Guarded registry schema) :
    Descends registry True (Suffices registry schema) where
  bottom := by
    rintro node limit ⟨-, less⟩
    exact absurd less (Nat.not_lt_zero _)
  leads := by
    rintro depth node limit part ⟨visits, enough⟩ leads
    have lower := height_lt_of_leads guarded visits leads
    exact ⟨visits.tail (.inl leads), by omega⟩
  guards := by
    rintro depth node limit part smaller ⟨visits, enough⟩ guards fewer
    have visitsPart := visits.tail (.inr guards)
    have lower := height_lt_summit visitsPart
    have product := Nat.mul_le_mul_right (summit registry schema) fewer
    rw [Nat.succ_mul] at product
    exact ⟨visitsPart, by omega⟩

/-! ### Every input -/

private theorem suffices_of_bytes {bytes depth : Nat}
    (deep : summit registry schema * (bytes + 1) < depth) :
    Suffices registry schema depth schema bytes := by
  have lower := height_lt_summit (.refl : Visits registry schema schema)
  rw [Nat.mul_succ, Nat.mul_comm] at deep
  exact ⟨.refl, by omega⟩

/-- If every cycle of named types passes through a union, an array or a map, then reading ends on
every input, with or without a reader's schema, and so does skipping: beyond a depth that is in
proportion to the bytes, neither fails for want of depth. -/
theorem reading_ends (guarded : Guarded registry schema) :
    ∃ height, ∀ (input : BinaryInput) (depth : Nat),
    height * (input.rest.length + 1) < depth →
      (∀ reader named after, Decode.read registry depth schema reader named input ≠
        .error .tooDeep after) ∧
      ∀ after, Decode.skip registry depth schema input ≠ .error .tooDeep after := by
  refine ⟨summit registry schema, fun input depth deep =>
    ⟨fun reader named after => ?_, fun after => ?_⟩⟩
  · exact (guarded.descends.follows_read (suffices_of_bytes deep) reader named).not_tooDeep le_rfl
  · exact (guarded.descends.forward_skip (suffices_of_bytes deep)).not_tooDeep le_rfl

/-- Numbers, each of which may be followed by another chain of numbers. -/
def chainSchema : Json :=
  .obj [("type", .str "record"), ("name", .str "Chain"), ("fields", .arr [
    .obj [("name", .str "value"), ("type", .str "long")],
    .obj [("name", .str "next"), ("type", .arr [.str "null", .str "Chain"])]])]

def chainRegistry : Registry := [("Chain", chainSchema)]

private theorem leads_chainSchema (leads : Leads registry chainSchema part) :
    part = .str "long" ∨ part = .arr [.str "null", .str "Chain"] := by
  cases leads with
  | definition isReference => cases isReference
  | field _ fieldsAre isField typeIs =>
    cases fieldsAre
    simp only [List.mem_cons, List.not_mem_nil, or_false] at isField
    rcases isField with rfl | rfl
    · cases typeIs
      exact .inl rfl
    · cases typeIs
      exact .inr rfl

/-- A chain holds no other chain before the byte of its union. -/
theorem guarded_chainSchema : Guarded chainRegistry chainSchema := by
  rintro reference name definition - - found ⟨last, reaches, isReference⟩
  obtain ⟨rfl, rfl⟩ : "Chain" = name ∧ chainSchema = definition := by
    have known := Schema.resolve_ok.mp found
    simpa [chainRegistry, Members.get?] using known
  have leadsNowhere : ∀ node ∈ [Json.str "long", .arr [.str "null", .str "Chain"]], ∀ part,
      ¬ Leads chainRegistry node part := by
    simp only [List.forall_mem_cons]
    refine ⟨?_, ?_, by simp⟩
    all_goals
      rintro part (⟨isReference, -⟩ | ⟨isRecord, -, -, -⟩)
      · cases isReference
      · exact absurd isRecord (by simp [kindOf, Schema.typeOf, Kind.ofType, Kind.ofName])
  rcases reaches.cases_head with rfl | ⟨node, leads, onward⟩
  · cases isReference
  · have isPart := leads_chainSchema leads
    rcases onward.cases_head with rfl | ⟨part, leadsOn, -⟩
    · rcases isPart with rfl | rfl <;> cases isReference
    · exact leadsNowhere node (by simpa using isPart) part leadsOn

/-- A chain of any length is read to its end, and whatever else the bytes may be, reading ends. -/
theorem reading_ends_chain :
    Schema.parse { mark := false } [] chainSchema = .ok (chainSchema, chainRegistry) ∧
    ∃ height, ∀ (input : BinaryInput) (depth : Nat), height * (input.rest.length + 1) < depth →
      (∀ reader named after, Decode.read chainRegistry depth chainSchema reader named input ≠
        .error .tooDeep after) ∧
      ∀ after, Decode.skip chainRegistry depth chainSchema input ≠ .error .tooDeep after :=
  ⟨rfl, reading_ends guarded_chainSchema⟩

end Avro.Decode
