import Avro.Codec.Basic
import Avro.Codec.Bzip2
import Avro.Codec.Inflate
import Avro.Codec.Lz4
import Avro.Codec.Xz
import Avro.Codec.Zstandard

/-!
Contract: the libraries with which the command runs.

Owns: `Codec.installed`. Its codecs read the formats that they are named after as far as the modules
of these formats go, and write data without compressing it.
-/

namespace Avro.Codec

def intact (codec : String) : Option Bytes → Outcome Bytes
  | some data => .ok data
  | none => .error (.corruptBlock codec)

/-- A codec that has no levels, and never fails to write. -/
def ofFormat (name : String) (write : Bytes → Bytes) (read : Bytes → Option Bytes) : Codec :=
  ⟨fun _ data => .ok (write data), .ok fun data => intact name (read data)⟩

def isLevel (level : Int) : Bool := -1 ≤ level && level ≤ 9

/-- Deflated data stands in a block without the two bytes before it, and without the last byte
behind it. -/
def deflate : Codec :=
  ⟨fun level data =>
    if level.all isLevel then .ok ((Inflate.wrapped data).drop 2).dropLast else .error .badLevel,
    .ok fun data => intact "deflate" (Inflate.expand data)⟩

def missing (codec library : String) : Codec :=
  ⟨fun _ _ => .error (.codecNotInstalled codec library), .error (.codecNotInstalled codec library)⟩

def installed : Libraries
  | "deflate" => some deflate
  | "bzip2" => some (ofFormat "bzip2" Bzip2.bytewise Bzip2.expand)
  | "xz" => some (ofFormat "xz" Xz.stored Xz.expand)
  | "zstandard" => some (ofFormat "zstandard" Zstandard.stored Zstandard.expand)
  | "lz4" => some (ofFormat "lz4" Lz4.stored Lz4.expand)
  | "snappy" => some (missing "snappy" "python-snappy")
  | _ => none

end Avro.Codec
