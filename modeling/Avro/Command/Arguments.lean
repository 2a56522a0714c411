import Avro.Error

/-!
Contract: the arguments of the command.

Owns: which words are options, and what a list of words asks for.

Options may be shortened as long as they stay unique, and options of one letter may be joined. Words
that are no options are file names; they have to stand together. After a word of two hyphens all
words are file names.
-/

namespace Avro.Command

inductive Flag where
  | help | schema | metadata | codecs | version | pretty
deriving DecidableEq, Repr

def flagWords : List (String × Flag) :=
  [("-h", .help), ("--help", .help), ("--schema", .schema), ("--metadata", .metadata),
    ("--codecs", .codecs), ("--version", .version), ("-p", .pretty), ("--pretty", .pretty)]

structure Options where
  schema : Bool := false
  metadata : Bool := false
  codecs : Bool := false
  pretty : Bool := false
  /-- The names of the files; none means standard input. -/
  files : List String := []
deriving DecidableEq, Repr, Inhabited

inductive Request where
  | help
  | version
  | run (options : Options)
  /-- The words make no sense. -/
  | refused
deriving DecidableEq, Repr, Inhabited

inductive Word where
  | name (text : String)
  /-- Two hyphens. -/
  | separator
  /-- An option, and the text that is attached to it. -/
  | option (word : String) (flag : Flag) (attached : Option String)
  | unknown
  | ambiguous
deriving DecidableEq, Repr

def splitEquals (word : String) : String × Option String :=
  let front := word.toList.takeWhile (· != '=')
  let back := word.toList.dropWhile (· != '=')
  (String.ofList front, if back.isEmpty then none else some (String.ofList (back.drop 1)))

def candidates (word : String) : List Word :=
  if word.startsWith "--" then
    let (front, attached) := splitEquals word
    flagWords.filterMap fun (name, flag) =>
      if name.startsWith front then some (.option name flag attached) else none
  else
    flagWords.filterMap fun (name, flag) =>
      if name.toList = word.toList.take 2 then
        some (.option name flag (some (String.ofList (word.toList.drop 2))))
      else if name.startsWith word then some (.option name flag none)
      else none

def isDigit (character : Char) : Bool := '0' ≤ character && character ≤ '9'

def isNegativeNumber (word : String) : Bool :=
  match word.toList with
  | '-' :: rest =>
    let whole := rest.takeWhile isDigit
    match rest.dropWhile isDigit with
    | [] => !whole.isEmpty
    | '.' :: fraction => !fraction.isEmpty && fraction.all isDigit
    | _ => false
  | _ => false

def classify (word : String) : Word :=
  if word = "--" then .separator
  else if !word.startsWith "-" then .name word
  else
    match flagWords.lookup word with
    | some flag => .option word flag none
    | none =>
      if word = "-" then .name word
      else
        let (front, attached) := splitEquals word
        match attached, flagWords.lookup front with
        | some text, some flag => .option front flag (some text)
        | _, _ =>
          match candidates word with
          | [] => if isNegativeNumber word || word.toList.contains ' ' then .name word else .unknown
          | [single] => single
          | _ => .ambiguous

/-- What the words are; after a separator all are names. -/
def classifyAll : List String → List Word
  | [] => []
  | word :: rest =>
    match classify word with
    | .separator => .separator :: rest.map Word.name
    | other => other :: classifyAll rest

structure Progress where
  options : Options
  /-- Whether the file names have been met. -/
  hasFiles : Bool
  /-- Whether a word was left over. -/
  hasExtras : Bool
deriving Repr

def Options.setFlag (options : Options) : Flag → Options
  | .schema => { options with schema := true }
  | .metadata => { options with metadata := true }
  | .codecs => { options with codecs := true }
  | .pretty => { options with pretty := true }
  | _ => options

/-- The options of one letter that a joined text stands for; none if a letter is no option. -/
def joinedFlags : List Char → Option (List Flag)
  | [] => some []
  | letter :: rest => do
    let flag ← flagWords.lookup (String.ofList ['-', letter])
    return flag :: (← joinedFlags rest)

/-- The options that an option with attached text stands for. Text can be attached to options of one
letter only, and is then a series of such options. -/
def expandOption (word : String) (flag : Flag) : Option String → Option (List Flag)
  | none => some [flag]
  | some text =>
    if word.startsWith "--" || text.isEmpty then none
    else (joinedFlags text.toList).map fun others => flag :: others

/-- Carries out options: they end the reading of words, or are set. -/
def applyFlags (progress : Progress) : List Flag → Except Request Progress
  | [] => .ok progress
  | .help :: _ => .error .help
  | .version :: _ => .error .version
  | flag :: rest => applyFlags { progress with options := progress.options.setFlag flag } rest

def nameTexts : List Word → List String
  | [] => []
  | .name text :: rest => text :: nameTexts rest
  | _ :: rest => nameTexts rest

/-- Takes a series of names as the file names; a second series is left over. -/
def takeNames (progress : Progress) (names : List Word) : Progress :=
  if names.isEmpty then progress
  else if progress.hasFiles then { progress with hasExtras := true }
  else { progress with
    hasFiles := true, options := { progress.options with files := nameTexts names } }

/-- Reads words. The names that directly precede the current word stand last first. -/
def readWords (progress : Progress) (names : List Word) : List Word → Request
  | [] =>
    let last := takeNames progress names.reverse
    if last.hasExtras then .refused else .run last.options
  | .option word flag attached :: rest =>
    match expandOption word flag attached with
    | none => .refused
    | some flags =>
      match applyFlags (takeNames progress names.reverse) flags with
      | .ok next => readWords next [] rest
      | .error request => request
  | .unknown :: rest =>
    readWords { takeNames progress names.reverse with hasExtras := true } [] rest
  | .ambiguous :: _ => .refused
  | word :: rest => readWords progress (word :: names) rest

def parseArguments (words : List String) : Request :=
  let classified := classifyAll words
  if classified.contains .ambiguous then .refused
  else readWords ⟨{}, false, false⟩ [] classified

end Avro.Command
