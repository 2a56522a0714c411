import Avro.Command.Run

/-!
The command: reads the files that the arguments name, and prints what `Avro.Command.run` makes of
them.
-/

open Avro

def readNamed (names : List String) : IO (Files Bytes) :=
  names.filterMapM fun (name : String) => do
    try
      let content ← IO.FS.readBinFile name
      return some (name, content.data.toList)
    catch _ => return none

partial def readToEnd (stream : IO.FS.Stream) (before : ByteArray) : IO ByteArray := do
  let chunk ← stream.read 65536
  if chunk.isEmpty then return before else readToEnd stream (before ++ chunk)

def main (arguments : List String) : IO UInt32 := do
  let names := (Command.parseArguments arguments).inputs
  let files ← readNamed (names.filter (· != "-"))
  let stdin ← if names.contains "-" then do readToEnd (← IO.getStdin) ByteArray.empty
    else pure ByteArray.empty
  let result := Command.run "avro" arguments files stdin.data.toList
  (← IO.getStdout).putStr result.stdout
  match result.failure, result.exit with
  | some error, _ =>
    (← IO.getStderr).putStrLn error.message
    return 1
  | none, some code => return UInt32.ofNat code
  | none, none => return 0
