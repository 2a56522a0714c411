import Avro.Proofs.RoundTrip

/-!
Contract: the values that are met while a value is written.

Owns: `Site`, a node with a value that is written by it, `parts`, the sites to which writing goes on
from a site, and `Occurs`, whatever is met on the way down from a site. Conditions on data are
stated over the sites that occur in it.

A union goes on with the branch that the writer chooses, so the parts depend on a depth; a deeper
search chooses alike.
-/

namespace Avro

variable {schema : Json} {datum : Datum} {less more : Nat} {registry : Registry} {field : Json}

theorem check_of_le {strict answer : Bool} {place : Json}
    (answered : Validation.check registry strict less datum schema place = .ok answer)
    (notLess : less ≤ more) :
    Validation.check registry strict more datum schema place = .ok answer := by
  induction more, notLess using Nat.le_induction with
  | base => exact answered
  | succ more _ ih => exact (Validation.check_deepens _ _ more _ _ _).ok ih

/-- The branch that is chosen within a depth is chosen within every greater depth. -/
theorem choose_of_le {chosen : Nat × Datum}
    (done : Branch.choose registry less schema field datum = .ok chosen) (notLess : less ≤ more) :
    Branch.choose registry more schema field datum = .ok chosen := by
  induction more, notLess using Nat.le_induction with
  | base => exact done
  | succ more _ ih => exact (Branch.choose_deepens _ more _ _ _).ok ih

namespace Encode

variable {site : Site}

/-- A node of a schema, and a value that is written by it. -/
structure Site where
  node : Json
  value : Datum

def Site.isPlain (site : Site) : Bool :=
  match Logical.ofSchema site.node with
  | .ok none => true
  | _ => false

theorem Site.plain_of_isPlain (isPlain : site.isPlain = true) :
    Logical.ofSchema site.node = .ok none := by
  unfold Site.isPlain at isPlain
  split at isPlain
  · assumption
  · cases isPlain

/-- Where writing goes on from a prepared value of a node of a kind. A reference passes the value on
as it was given. -/
def partsOfKind (registry : Registry) (depth : Nat) (site : Site) (datum : Datum) : Kind → List Site
  | .named name =>
    match Schema.resolve registry name with
    | .ok definition => [⟨definition, site.value⟩]
    | .error _ => []
  | .array =>
    match Schema.attributeOf site.node "items" with
    | .ok items => (datum.iterated?.getD []).map fun item => ⟨items, item⟩
    | .error _ => []
  | .map =>
    match Schema.attributeOf site.node "values", datum with
    | .ok values, .dict entries => entries.map fun entry => ⟨values, entry.2⟩
    | _, _ => []
  | .union | .errorUnion =>
    match Branch.choose registry depth site.node .null datum with
    | .ok (index, value) =>
      match Schema.documentItemAt site.node index with
      | .ok branch => [⟨branch, value⟩]
      | .error _ => []
    | .error _ => []
  | .record | .error =>
    match Decode.fieldsOf site.node, datum with
    | .ok nodes, .dict entries =>
      nodes.filterMap fun node =>
        match Validation.fieldView node with
        | .ok view => some ⟨view.type, Validation.fieldValue entries view.name view.default⟩
        | .error _ => none
    | _, _ => []
  | _ => []

/-- The sites to which writing goes on from a site. -/
def parts (registry : Registry) (depth : Nat) (site : Site) : List Site :=
  match Schema.kindOf site.node, Logical.prepareFor site.node site.value with
  | .ok kind, .ok datum => partsOfKind registry depth site datum kind
  | _, _ => []

/-- The second site is met while the first one is written. -/
inductive Occurs (registry : Registry) (depth : Nat) : Site → Site → Prop where
  | whole (site : Site) : Occurs registry depth site site
  | within {site part other : Site} (isPart : part ∈ parts registry depth site)
      (inner : Occurs registry depth part other) :
      Occurs registry depth site other

/-- Whatever occurs in one of some sites is one of them, if their parts are. -/
theorem Occurs.mem_of_closed {registry : Registry} {depth : Nat} {sites : List Site} {other : Site}
    (closed : sites.flatMap (parts registry depth) ⊆ sites) (start : site ∈ sites)
    (occurs : Occurs registry depth site other) : other ∈ sites := by
  induction occurs with
  | whole site => exact start
  | within isPart _ ih =>
    exact ih (closed (List.mem_flatMap.mpr ⟨_, start, isPart⟩))

section Members

variable {registry : Registry} {depth : Nat} {schema node : Json} {given datum : Datum}
  {kind : Kind}
variable {entries : List (Datum × Datum)}

/-- The parts of a site, once the kind of its node and its prepared value are known. -/
theorem parts_eq (kindIs : Schema.kindOf schema = .ok kind)
    (prepared : Logical.prepareFor schema given = .ok datum) :
    parts registry depth ⟨schema, given⟩ =
      partsOfKind registry depth ⟨schema, given⟩ datum kind := by
  simp only [parts, kindIs, prepared]

theorem mem_partsOfKind_named {name : String} (resolved : Schema.resolve registry name = .ok node) :
    ⟨node, given⟩ ∈ partsOfKind registry depth ⟨schema, given⟩ datum (.named name) := by
  simp [partsOfKind, resolved]

theorem mem_partsOfKind_item {items : List Datum} {item : Datum}
    (nodeIs : Schema.attributeOf schema "items" = .ok node)
    (itemsAre : datum.iterated? = some items) (isItem : item ∈ items) :
    ⟨node, item⟩ ∈ partsOfKind registry depth ⟨schema, given⟩ datum .array := by
  simp [partsOfKind, nodeIs, itemsAre, isItem]

theorem mem_partsOfKind_entry {entry : Datum × Datum}
    (nodeIs : Schema.attributeOf schema "values" = .ok node) (isEntry : entry ∈ entries) :
    ⟨node, entry.2⟩ ∈ partsOfKind registry depth ⟨schema, given⟩ (.dict entries) .map := by
  simp only [partsOfKind, nodeIs]
  exact List.mem_map_of_mem isEntry

theorem mem_partsOfKind_field {nodes : List Json} {view : Validation.FieldView}
    (nodesAre : Decode.fieldsOf schema = .ok nodes) (isNode : node ∈ nodes)
    (viewIs : Validation.fieldView node = .ok view) (fielded : kind = .record ∨ kind = .error) :
    ⟨view.type, Validation.fieldValue entries view.name view.default⟩ ∈
      partsOfKind registry depth ⟨schema, given⟩ (.dict entries) kind := by
  rcases fielded with rfl | rfl <;>
    · simp only [partsOfKind, nodesAre]
      exact List.mem_filterMap.mpr ⟨node, isNode, by rw [viewIs]⟩

/-- The branch that is chosen is a part, also if it is chosen within a smaller depth. -/
theorem mem_partsOfKind_branch {index : Nat} {value : Datum} {less : Nat}
    (chosen : Branch.choose registry less schema field datum = .ok (index, value))
    (notLess : less ≤ depth) (branchIs : Schema.documentItemAt schema index = .ok node)
    (isUnion : kind = .union ∨ kind = .errorUnion) :
    ⟨node, value⟩ ∈ partsOfKind registry depth ⟨schema, given⟩ datum kind := by
  have chosenAlike := choose_of_le (choose_ok_field chosen .null) notLess
  rcases isUnion with rfl | rfl <;> simp [partsOfKind, chosenAlike, branchIs]

end Members

end Encode

end Avro
