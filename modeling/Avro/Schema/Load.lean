import Avro.Json.Parser
import Avro.Schema.Inject
import Avro.Storage

/-!
Contract: schemas that are spread over several files.

Owns: `Schema.load`, which finds the definition of an unknown name in the file of that name beside
the file that refers to it, and `Schema.loadOrdered`, which reads files in a given order,
dependencies first. Both put each definition at the place of its first reference.

The files are given as a list of paths and texts. Files that depend on each other in a circle are
followed up to the depth limit.
-/

namespace Avro.Schema

abbrev FileTexts := Files String

def isFileError : Error → Bool
  | .fileNotFound => true
  | .isDirectory => true
  | .notDirectory => true
  | _ => false

def directoryOf (path : String) : String :=
  String.ofList (path.toList.reverse.dropWhile (· != '/')).reverse

/-- What loading has met so far: the registry of the caller, and the names of the definitions put
into place. -/
structure LoadState where
  registry : Registry
  injected : List Json
deriving Inhabited

abbrev LoadM := EStateM Error LoadState

def LoadM.lift {α : Type} : Outcome α → LoadM α
  | .ok value => pure value
  | .error error => throw error

/-- Parses against a registry other than that of the state, and leaves that registry in the
state. -/
def LoadM.parse (mark : Bool) (schema : Json) : LoadM Draft := fun state =>
  match parseTop { mark := mark } schema state.registry with
  | .ok draft registry => .ok draft { state with registry := registry }
  | .error error registry => .error error { state with registry := registry }

def isInjected (names : List Json) (name : Json) : Bool := names.any fun other => other.same name

mutual

def loadFile (files : FileTexts) (mark : Bool) : Nat → String → LoadM (Draft × Registry)
  | 0, _ => throw .tooDeep
  | depth + 1, path => do
    let text ← LoadM.lift (Files.read files path)
    match Json.parse? text with
    | none => throw .malformedJson
    | some schema => loadSchema files mark depth (directoryOf path) schema

/-- Parses a schema. For an unknown name the file of that name is loaded, its definition is put at
the place of its first reference, and parsing starts again with what the file has defined. The
answer holds the registry that the final parse has filled, which is not that of the caller if a file
had to be loaded. -/
def loadSchema (files : FileTexts) (mark : Bool) : Nat → String → Json → LoadM (Draft × Registry)
  | 0, _, _ => throw .tooDeep
  | depth + 1, directory, schema => do
    let before := (← get).registry
    match (LoadM.parse mark schema) (← get) with
    | .ok draft state =>
      set state
      return (draft, state.registry)
    | .error (.unknownType name) failed =>
      let path := directory ++ name.displayed ++ ".avsc"
      match (loadFile files false depth path) { failed with registry := before } with
      | .error error state =>
        set { state with registry := failed.registry : LoadState }
        if isFileError error then throw (.unknownType name) else throw error
      | .ok (draft, _) state =>
        set { state with registry := failed.registry : LoadState }
        let inner := draft.seal []
        let innerName ← LoadM.lift (attributeOf inner "name")
        let mut outer := schema
        if !isInjected state.injected innerName then
          let (searched, _) ← LoadM.lift (inject schema inner (.str "") false)
          outer := inPlace schema searched
          modify fun current => { current with injected := innerName :: current.injected }
        let injected := (← get).injected
        match (loadSchema files mark depth directory outer) ⟨state.registry, injected⟩ with
        | .error error after =>
          set { after with registry := failed.registry : LoadState }
          throw error
        | .ok result after =>
          set { after with registry := failed.registry : LoadState }
          return result
    | .error error state =>
      set state
      throw error

end

def load (files : FileTexts) (mark : Bool) (path : String) : Outcome Json :=
  match (loadFile files mark depthLimit path) ⟨[], []⟩ with
  | .ok (draft, registry) _ => .ok (draft.seal registry)
  | .error error _ => .error error

mutual

def definitionIn (name : Json) : Json → Option Json
  | .arr branches => definitionInBranches name branches
  | .obj members =>
    if (Members.get? members "name").any name.same then some (.obj members)
    else definitionInMembers name members
  | _ => none
termination_by structural schema => schema

def definitionInBranches (name : Json) : List Json → Option Json
  | [] => none
  | branch :: rest => (definitionIn name branch).or (definitionInBranches name rest)
termination_by structural branches => branches

def definitionInMembers (name : Json) : List (String × Json) → Option Json
  | [] => none
  | (key, value) :: rest =>
    if ["items", "values"].contains key then
      (definitionIn name value).or (definitionInMembers name rest)
    else if key = "fields" then (fieldDefinition name value).or (definitionInMembers name rest)
    else definitionInMembers name rest
termination_by structural members => members

def fieldDefinition (name : Json) : Json → Option Json
  | .arr fields => fieldDefinitions name fields
  | .obj members => typeDefinition name members
  | _ => none
termination_by structural field => field

def fieldDefinitions (name : Json) : List Json → Option Json
  | [] => none
  | field :: rest => (fieldDefinition name field).or (fieldDefinitions name rest)
termination_by structural fields => fields

def typeDefinition (name : Json) : List (String × Json) → Option Json
  | [] => none
  | (key, value) :: rest =>
    if key = "type" then (definitionIn name value).or (typeDefinition name rest)
    else typeDefinition name rest
termination_by structural members => members

end

mutual

def Draft.bare : Draft → Json
  | .plain schema => schema
  | .marked members => .obj members
  | .branches drafts => .arr (Draft.bareAll drafts)

def Draft.bareAll : List Draft → List Json
  | [] => []
  | draft :: rest => draft.bare :: Draft.bareAll rest

end

mutual

/-- A draft of the same shape, with the parts of another schema. -/
def Draft.fill : Draft → Json → Draft
  | .plain _, schema => .plain schema
  | .marked _, .obj members => .marked members
  | .branches drafts, .arr nodes => .branches (Draft.fillAll drafts nodes)
  | draft, _ => draft

def Draft.fillAll : List Draft → List Json → List Draft
  | draft :: rest, schema :: others => draft.fill schema :: Draft.fillAll rest others
  | drafts, _ => drafts

end

/-- Reads files one after the other against one registry; only the last one may be marked. -/
def loadAll (files : FileTexts) (mark : Bool) :
    List String → Registry → Outcome (List (Draft × Registry) × Registry)
  | [], registry => .ok ([], registry)
  | path :: rest, registry =>
    match (loadFile files (mark && rest.isEmpty) depthLimit path) ⟨registry, []⟩ with
    | .error error _ => .error error
    | .ok result state =>
      match loadAll files mark rest state.registry with
      | .error error => .error error
      | .ok (results, final) => .ok (result :: results, final)

def injectAll (outer : Json) : List Json → Outcome Json
  | [] => .ok outer
  | inner :: rest => do
    let (searched, _) ← inject outer inner (.str "") false
    injectAll (inPlace outer searched) rest

/-- An entry of the registry that was made by one of the loaded schemas changes together with it. -/
def followEntry (loaded : List Json) (outer : Json) (entry : String × Json) : String × Json :=
  let isShared := loaded.any fun schema => (definitionIn (.str entry.1) schema).any entry.2.same
  if isShared then (entry.1, (definitionIn (.str entry.1) outer).getD entry.2) else entry

/-- Loads the schema of the last of several files, with the definitions of the files before it. -/
def loadOrdered (files : FileTexts) (mark : Bool) (paths : List String) : Outcome Json := do
  let (results, _) ← loadAll files mark paths []
  match results.reverse with
  | [] => throw .indexOutOfRange
  | (draft, registry) :: others =>
    let loaded := results.map fun result => result.1.bare
    let outer ← injectAll draft.bare (others.map fun result => result.1.bare)
    return (draft.fill outer).seal (registry.map (followEntry loaded outer))

end Avro.Schema
