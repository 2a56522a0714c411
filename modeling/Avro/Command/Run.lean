import Avro.Codec.Installed
import Avro.Command.Arguments
import Avro.Command.Report
import Avro.Container.Reader
import Avro.Storage

/-!
Contract: the command, which prints the records of container files as JSON.

Owns: `Command.run`, which carries out what the arguments ask for: records, one on each line or
indented, or the schema or the metadata of each file, or the names of the codecs.
-/

namespace Avro.Command

structure Result where
  stdout : String
  /-- The exit code, if the command ends by itself before all files are done. -/
  exit : Option Nat
  failure : Option Error
deriving Repr, Inhabited

def versionText : String := "fastavro 1.3.1"

def helpText (program : String) : String :=
  "usage: " ++ program ++ " [-h] [--schema] [--metadata] [--codecs] [--version] [-p]\n"
    ++ String.ofList (List.replicate (program.length + 8) ' ') ++ "[file ...]\n\n"
    ++ "iter over avro file, emit records as JSON\n\n"
    ++ "positional arguments:\n"
    ++ "  file          file(s) to parse, use `-' for stdin\n\n"
    ++ "options:\n"
    ++ "  -h, --help    show this help message and exit\n"
    ++ "  --schema      dump schema instead of records\n"
    ++ "  --metadata    dump metadata instead of records\n"
    ++ "  --codecs      print supported codecs\n"
    ++ "  --version     show program's version number and exit\n"
    ++ "  -p, --pretty  pretty print json\n"

def codecNames : List String := ["bzip2", "deflate", "lz4", "null", "snappy", "xz", "zstandard"]

def indented : Json.Layout := ⟨true, some 4⟩

def recordLayout (options : Options) : Json.Layout :=
  if options.pretty then indented else Json.Layout.line

def printRecords (layout : Json.Layout) : List Datum → PrintM Unit
  | [] => pure ()
  | record :: rest => do
    printValue layout 0 record
    print "\n"
    printRecords layout rest

/-- Prints what is asked for of one file: what is left of the file's bytes. -/
def printFile (options : Options) (data : Bytes) : PrintM Bytes := do
  match Container.ofBytes data .null false with
  | .error error => throw error
  | .ok (file, input) =>
    if options.schema then
      print (file.schema.print indented ++ "\n")
      return input.rest
    else if options.metadata then
      let shown := file.header.metadata.filter fun (key, _) => key != "avro.schema"
      print ((Json.obj (shown.map fun (key, text) => (key, .str text))).print indented ++ "\n")
      return input.rest
    else
      let series := file.records Codec.installed input
      printRecords (recordLayout options) series.items
      match series.failure with
      | some error => throw error
      | none => return []

/-- Prints files one by one; a hyphen stands for what is left of standard input. -/
def printFiles (options : Options) (files : Files Bytes) (stdin : Bytes) : List String → PrintM Unit
  | [] => pure ()
  | name :: rest => do
    if name = "-" then
      let left ← printFile options stdin
      printFiles options files left rest
    else
      match files.read name with
      | .error error => throw error
      | .ok data =>
        let _ ← printFile options data
        printFiles options files stdin rest

/-- The names of the files that are printed; without any, standard input is. -/
def Options.inputs (options : Options) : List String :=
  if options.codecs then [] else if options.files.isEmpty then ["-"] else options.files

def Request.inputs : Request → List String
  | .run options => options.inputs
  | _ => []

def run (program : String) (arguments : List String) (files : Files Bytes) (stdin : Bytes) :
    Result :=
  match parseArguments arguments with
  | .help => ⟨helpText program, some 0, none⟩
  | .version => ⟨versionText ++ "\n", some 0, none⟩
  | .refused => ⟨"", some 2, none⟩
  | .run options =>
    if options.codecs then ⟨String.intercalate "\n" codecNames ++ "\n", some 0, none⟩
    else
      match printFiles options files stdin options.inputs "" with
      | .ok _ printed => ⟨printed, none, none⟩
      | .error error printed => ⟨printed, none, some error⟩

end Avro.Command
