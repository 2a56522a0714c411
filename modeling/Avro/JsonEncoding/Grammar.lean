import Avro.Schema.Basic

/-!
Contract: the grammar of the JSON encoding of a schema.

Owns: the symbols of the grammar, the grammar of a schema, and the walk through a grammar.

Values are written and read by elementary steps. Each of them advances to a terminal symbol of its
kind. On the way there, symbols without a counterpart among the steps are carried out as actions:
starts and ends of records and fields. References to named types are replaced by their definitions,
so a recursive type has no grammar.
-/

namespace Avro.JsonEncoding

inductive Terminal where
  | null | boolean | string | bytes | int | long | float | double | fixed
  | union | mapEnd | mapStart | mapKeyMarker | itemEnd | arrayEnd | arrayStart | enum
deriving DecidableEq, Repr, Inhabited

def Terminal.name : Terminal → String
  | null => "Null"
  | boolean => "Boolean"
  | string => "String"
  | bytes => "Bytes"
  | int => "Int"
  | long => "Long"
  | float => "Float"
  | double => "Double"
  | fixed => "Fixed"
  | union => "Union"
  | mapEnd => "MapEnd"
  | mapStart => "MapStart"
  | mapKeyMarker => "MapKeyMarker"
  | itemEnd => "ItemEnd"
  | arrayEnd => "ArrayEnd"
  | arrayStart => "ArrayStart"
  | enum => "Enum"

structure Slot where
  record : String
  field : String
deriving DecidableEq, Repr, Inhabited

structure Default where
  slot : Slot
  value : Json
deriving Repr, Inhabited

inductive Symbol where
  | terminal (kind : Terminal) (default : Option Default)
  | sequence (symbols : List Symbol)
  /-- Symbols that are repeated until an end is wanted. -/
  | repeater (stop : Terminal) (symbols : List Symbol)
  | alternative (branches : List Symbol) (labels : List Json) (default : Option Default)
  | enumLabels (labels : Json)
  | unionEnd
  | recordStart (default : Option Default)
  | recordEnd
  | fieldStart (name : Json)
  | fieldEnd
  /-- The whole grammar once more. -/
  | root
deriving Repr, Inhabited

namespace Symbol

def name : Symbol → String
  | terminal kind _ => kind.name
  | sequence _ => "Sequence"
  | repeater _ _ => "Repeater"
  | alternative _ _ _ => "Alternative"
  | enumLabels _ => "EnumLabels"
  | unionEnd => "UnionEnd"
  | recordStart _ => "RecordStart"
  | recordEnd => "RecordEnd"
  | fieldStart _ => "FieldStart"
  | fieldEnd => "FieldEnd"
  | root => "Root"

def isTerminal (kind : Terminal) : Symbol → Bool
  | terminal own _ => own == kind
  | _ => false

mutual

def weight : Symbol → Nat
  | sequence symbols => weights symbols + 1
  | repeater _ symbols => weights symbols + 1
  | alternative branches _ _ => weights branches + 1
  | _ => 1

def weights : List Symbol → Nat
  | [] => 0
  | symbol :: rest => weight symbol + weights rest

end

end Symbol

/-! ### The grammar of a schema -/

/-- The label of a union branch: the name or type of a definition, else the branch itself. -/
def branchLabel : Json → Json
  | .obj members => (Members.get? members "name").getD ((Members.get? members "type").getD .null)
  | branch => branch

abbrev SymbolRule := Option Default → Json → Outcome Symbol

def fieldSymbols (symbolFor : SymbolRule) (record : Json) (field : Json) :
    Outcome (List Symbol) := do
  let name ← Schema.attributeOf field "name"
  let type ← Schema.attributeOf field "type"
  let default := (field.get? "default").map fun value => ⟨⟨record.displayed, name.displayed⟩, value⟩
  let symbol ← symbolFor default type
  return [.fieldStart name, symbol, .fieldEnd]

def recordSymbol (symbolFor : SymbolRule) (default : Option Default) (schema : Json) :
    Outcome Symbol := do
  let fields ← Schema.iterate (← Schema.attributeOf schema "fields")
  let name := (schema.get? "name").getD .null
  let symbols ← fields.mapM (fieldSymbols symbolFor name)
  return .sequence (.recordStart default :: symbols.flatten ++ [.recordEnd])

def unionSymbol (symbolFor : SymbolRule) (default : Option Default) (schema : Json) :
    Outcome Symbol := do
  let branches ← Schema.iterate schema
  let symbols ← branches.mapM (symbolFor none)
  return .sequence [.terminal .union none, .alternative symbols (branches.map branchLabel) default]

def mapSymbol (symbolFor : SymbolRule) (default : Option Default) (schema : Json) :
    Outcome Symbol := do
  let values ← symbolFor none (← Schema.attributeOf schema "values")
  return .sequence [.terminal .mapStart default,
    .repeater .mapEnd [.terminal .string none, .terminal .mapKeyMarker none, values]]

def arraySymbol (symbolFor : SymbolRule) (default : Option Default) (schema : Json) :
    Outcome Symbol := do
  let items ← symbolFor none (← Schema.attributeOf schema "items")
  return .sequence [.terminal .arrayStart default,
    .repeater .arrayEnd [items, .terminal .itemEnd none]]

def enumSymbol (default : Option Default) (schema : Json) : Outcome Symbol := do
  return .sequence [.terminal .enum default, .enumLabels (← Schema.attributeOf schema "symbols")]

def namedSymbol (symbolFor : SymbolRule) (registry : Registry) (name : String) : Outcome Symbol :=
  match Members.get? registry name with
  | some definition => symbolFor none definition
  | none => .error (.unhandledType (.str name))

def kindSymbol (symbolFor : SymbolRule) (registry : Registry) (default : Option Default)
    (schema : Json) :
    Kind → Outcome Symbol
  | .record => recordSymbol symbolFor default schema
  | .union => unionSymbol symbolFor default schema
  | .map => mapSymbol symbolFor default schema
  | .array => arraySymbol symbolFor default schema
  | .enum => enumSymbol default schema
  | .null => .ok (.terminal .null none)
  | .boolean => .ok (.terminal .boolean default)
  | .string => .ok (.terminal .string default)
  | .bytes => .ok (.terminal .bytes default)
  | .int => .ok (.terminal .int default)
  | .long => .ok (.terminal .long default)
  | .float => .ok (.terminal .float default)
  | .double => .ok (.terminal .double default)
  | .fixed => .ok (.terminal .fixed default)
  | .errorUnion => namedSymbol symbolFor registry "error_union"
  | .error => namedSymbol symbolFor registry "error"
  | .request => namedSymbol symbolFor registry "request"
  | .named name => namedSymbol symbolFor registry name
  | .foreign value => .error (.unhandledType value)

def grammar (registry : Registry) : Nat → SymbolRule
  | 0, _, _ => .error .tooDeep
  | depth + 1, default, schema => do
    kindSymbol (grammar registry depth) registry default schema
      (← Kind.ofType (← Schema.typeOf schema))

/-! ### The walk through a grammar -/

/-- A grammar with the symbols that are still to come, and the state of what is written or read
along it. -/
structure Walk (σ : Type) where
  start : Symbol
  pending : List Symbol
  content : σ

/-- A step of a walk, which may change the walk before it fails. -/
abbrev WalkM (σ α : Type) := EStateM Error (Walk σ) α

namespace Walk

variable {σ : Type}

def ofGrammar (start : Symbol) (content : σ) : Walk σ := ⟨start, [start, .root], content⟩

/-- A bound for the number of symbols that are met before a terminal: all that are pending, and a
whole grammar. -/
def bound (walk : Walk σ) : Nat := Symbol.weights walk.pending + walk.start.weight + 2

end Walk

namespace WalkM

variable {σ α : Type}

def onContent (step : EStateM Error σ α) : WalkM σ α := fun walk =>
  match step walk.content with
  | .ok value content => .ok value { walk with content := content }
  | .error error content => .error error { walk with content := content }

def next : WalkM σ Symbol := do
  match (← get).pending with
  | [] => throw .indexOutOfRange
  | symbol :: rest =>
    modify fun walk => { walk with pending := rest }
    return symbol

def prepend (symbols : List Symbol) : WalkM σ Unit :=
  modify fun walk => { walk with pending := symbols ++ walk.pending }

def isNext (kind : Terminal) : WalkM σ Bool := do
  match (← get).pending with
  | [] => throw .indexOutOfRange
  | symbol :: _ => return symbol.isTerminal kind

/-- Puts the parts of a symbol that is neither terminal nor action in its place. A repeater stands
again after its symbols. The branches of a union stand in reverse order. -/
def unfold : Symbol → WalkM σ Unit
  | .sequence symbols => prepend symbols
  | .repeater stop symbols => prepend (symbols ++ [.repeater stop symbols])
  | .alternative branches _ _ => prepend branches.reverse
  | .root => do prepend [(← get).start, .root]
  | _ => pure ()

def isAction : Symbol → Bool
  | .enumLabels _ => true
  | .unionEnd => true
  | .recordStart _ => true
  | .recordEnd => true
  | .fieldStart _ => true
  | .fieldEnd => true
  | _ => false

/-- Advances to a terminal of the wanted kind, and gives its default. A repeater that the terminal
ends counts as that terminal. -/
def advanceWithin (perform : Symbol → EStateM Error σ Unit) (wanted : Terminal) :
    Nat → WalkM σ (Option Default)
  | 0 => throw .tooDeep
  | fuel + 1 => do
    let symbol ← next
    match symbol with
    | .terminal kind default =>
      if kind = wanted then return default else throw (.unexpectedSymbol kind.name)
    | .repeater stop symbols =>
      if stop = wanted then return none
      else
        unfold (.repeater stop symbols)
        advanceWithin perform wanted fuel
    | symbol =>
      if isAction symbol then onContent (perform symbol) else unfold symbol
      advanceWithin perform wanted fuel

def advance (perform : Symbol → EStateM Error σ Unit) (wanted : Terminal) :
    WalkM σ (Option Default) := do
  advanceWithin perform wanted (← get).bound

def drainWithin (perform : Symbol → EStateM Error σ Unit) : Nat → WalkM σ Unit
  | 0 => throw .tooDeep
  | fuel + 1 => do
    let symbol ← next
    match symbol with
    | .root => prepend [.root]
    | .terminal kind _ => throw (.unexpectedSymbol kind.name)
    | symbol =>
      if isAction symbol then onContent (perform symbol) else unfold symbol
      drainWithin perform fuel

def drain (perform : Symbol → EStateM Error σ Unit) : WalkM σ Unit := do
  drainWithin perform (← get).bound

/-- Carries out all symbols that are still to come, which have to be actions. -/
def finish (perform : Symbol → EStateM Error σ Unit) : List Symbol → WalkM σ Unit
  | [] => pure ()
  | symbol :: rest => do
    modify fun walk => { walk with pending := rest }
    match symbol with
    | .root => onContent (perform .root)
    | symbol =>
      if isAction symbol then onContent (perform symbol) else throw (.unexpectedSymbol symbol.name)
    finish perform rest

end WalkM

end Avro.JsonEncoding
