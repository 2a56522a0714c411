import Avro.Binary.Input

/-!
Contract: how the data of a block is compressed.

Owns: what a codec is to a container file, the codec that leaves data as it is, and the reading of a
block of compressed data.

All other codecs are the work of libraries, and nothing is assumed about them here; that a codec
expands what it has compressed is a hypothesis, `Codec.Inverts`, of whoever needs it. A library that
is not installed has a codec as well, which fails at the first block.
-/

namespace Avro

structure Codec where
  /-- The compressed form of data, at a level of compression if one is chosen. -/
  compress : Option Int → Bytes → Outcome Bytes
  /-- What expands compressed data, or why there is nothing that does. -/
  expander : Outcome (Bytes → Outcome Bytes)

namespace Codec

def null : Codec := ⟨fun _ data => .ok data, .ok fun data => .ok data⟩

instance : Inhabited Codec := ⟨null⟩

def expand (codec : Codec) (compressed : Bytes) : Outcome Bytes := do (← codec.expander) compressed

/-- Reads the data of a block: its compressed size and the compressed data. -/
def readBlock (codec : Codec) : ReadM BinaryInput Bytes := do
  let expand ← ReadM.lift codec.expander
  ReadM.lift (expand (← BinaryInput.readSized))

/-- What the codec has compressed at a level, it expands to what it was. -/
def Inverts (codec : Codec) (level : Option Int) : Prop :=
  ∀ ⦃data compressed⦄, codec.compress level data = .ok compressed →
    codec.expand compressed = .ok data

/-- The codecs of libraries, by name. -/
abbrev Libraries := String → Option Codec

/-- The codec of a name: data under the name null is not compressed, whatever libraries there
are. -/
def find? (libraries : Libraries) (name : String) : Option Codec :=
  if name = "null" then some null else libraries name

end Codec

end Avro
