import Avro.Binary.Input
import Avro.Error

/-!
Contract: where files are kept.

Owns: how a path finds its file among the files of a directory, and why it does not; and the stream
to which a container file is written, a series of bytes with a position, at which it is read and
written, and what it allows.
-/

namespace Avro

abbrev Files (α : Type) := List (String × α)

namespace Files

/-- The components of a path without those that stay in place; a component that leads back removes
the last one. -/
def components (path : String) : List String :=
  (path.splitOn "/").foldl (fun done component =>
    if component = "" || component = "." then done
    else if component = ".." && !done.isEmpty && done.getLast? != some ".." then done.dropLast
    else done ++ [component]) []

/-- The content of the file at a path. Absolute paths lead out of the directory. -/
def read {α : Type} (files : Files α) (path : String) : Outcome α :=
  let wanted := components path
  if path = "" || path.startsWith "/" then .error .fileNotFound
  else
    match files.find? fun file => components file.1 == wanted with
    | some (_, content) => if path.endsWith "/" then .error .notDirectory else .ok content
    | none =>
      if wanted.all (· == "..") ||
          files.any fun file => wanted.isPrefixOf (components file.1) then .error .isDirectory
      else if files.any fun file => (components file.1).isPrefixOf wanted then .error .notDirectory
      else .error .fileNotFound

end Files

end Avro

namespace Avro.Container

structure Stream where
  content : Bytes
  position : Nat
  readable : Bool := true
  /-- Whether the position can be asked for and moved. -/
  seekable : Bool := true
  name : Option String := none
deriving DecidableEq, Repr, Inhabited

namespace Stream

def empty : Stream := { content := [], position := 0 }

def atEnd (content : Bytes) : Stream := { content := content, position := content.length }

/-- Writes bytes at the position, over those that stand there. A gap before the position is filled
with zeros. -/
def put (stream : Stream) (bytes : Bytes) : Stream :=
  let before := stream.content.take stream.position
  let gap := List.replicate (stream.position - stream.content.length) 0
  let after := stream.content.drop (stream.position + bytes.length)
  { stream with
    content := before ++ gap ++ bytes ++ after, position := stream.position + bytes.length }

def seek (stream : Stream) (position : Nat) : Stream := { stream with position := position }

def seekEnd (stream : Stream) : Stream := stream.seek stream.content.length

/-- Performs a step of reading from the position on, and moves the position by what has been
read. -/
def run {α : Type} (step : ReadM BinaryInput α) : EStateM Error Stream α := fun stream =>
  let moved (input : BinaryInput) : Stream :=
    stream.seek (stream.content.length - input.rest.length)
  match step (BinaryInput.ofBytes (stream.content.drop stream.position)) with
  | .ok value input => .ok value (moved input)
  | .error error input => .error error (moved input)

end Stream

end Avro.Container
