import Avro.Number.Octets

/-!
Contract: the block digests of byte strings.

Owns: the padding of a message to whole blocks of 64 bytes and the division into blocks, which they
share; MD5, SHA-1 and SHA-256.
-/

namespace Avro.Digest

open Avro.Octets

/-- A message followed by a set bit, zeros, and its length in bits, to a multiple of 64 bytes. -/
def pad (lengthBytes : Nat → Bytes) (message : Bytes) : Bytes :=
  let size := message.length
  let zeros := (119 - size % 64) % 64
  message ++ 0x80 :: List.replicate zeros 0 ++ lengthBytes (8 * size)

def chunks {α : Type} (size : Nat) (items : List α) : List (List α) :=
  (List.range (items.length / size)).map fun index => (items.drop (index * size)).take size

def rotateLeft (word : UInt32) (count : UInt32) : UInt32 :=
  (word <<< count) ||| (word >>> (32 - count))

def rotateRight (word : UInt32) (count : UInt32) : UInt32 :=
  (word >>> count) ||| (word <<< (32 - count))

end Avro.Digest

namespace Avro.Digest.Md5

open Avro.Octets

def constants : Array UInt32 := #[
    0xd76aa478, 0xe8c7b756, 0x242070db, 0xc1bdceee, 0xf57c0faf, 0x4787c62a, 0xa8304613, 0xfd469501,
    0x698098d8, 0x8b44f7af, 0xffff5bb1, 0x895cd7be, 0x6b901122, 0xfd987193, 0xa679438e, 0x49b40821,
    0xf61e2562, 0xc040b340, 0x265e5a51, 0xe9b6c7aa, 0xd62f105d, 0x02441453, 0xd8a1e681, 0xe7d3fbc8,
    0x21e1cde6, 0xc33707d6, 0xf4d50d87, 0x455a14ed, 0xa9e3e905, 0xfcefa3f8, 0x676f02d9, 0x8d2a4c8a,
    0xfffa3942, 0x8771f681, 0x6d9d6122, 0xfde5380c, 0xa4beea44, 0x4bdecfa9, 0xf6bb4b60, 0xbebfbc70,
    0x289b7ec6, 0xeaa127fa, 0xd4ef3085, 0x04881d05, 0xd9d4d039, 0xe6db99e5, 0x1fa27cf8, 0xc4ac5665,
    0xf4292244, 0x432aff97, 0xab9423a7, 0xfc93a039, 0x655b59c3, 0x8f0ccc92, 0xffeff47d, 0x85845dd1,
    0x6fa87e4f, 0xfe2ce6e0, 0xa3014314, 0x4e0811a1, 0xf7537e82, 0xbd3af235, 0x2ad7d2bb, 0xeb86d391]

def rotations : Array UInt32 := #[7, 12, 17, 22, 5, 9, 14, 20, 4, 11, 16, 23, 6, 10, 15, 21]

structure State where
  a : UInt32
  b : UInt32
  c : UInt32
  d : UInt32

def initial : State := ⟨0x67452301, 0xefcdab89, 0x98badcfe, 0x10325476⟩

def step (words : Array UInt32) (state : State) (index : Nat) : State :=
  let round := index / 16
  let mixed :=
    if round = 0 then (state.b &&& state.c) ||| (~~~state.b &&& state.d)
    else if round = 1 then (state.d &&& state.b) ||| (~~~state.d &&& state.c)
    else if round = 2 then state.b ^^^ state.c ^^^ state.d
    else state.c ^^^ (state.b ||| ~~~state.d)
  let source :=
    if round = 0 then index else if round = 1 then (5 * index + 1) % 16
    else if round = 2 then (3 * index + 5) % 16 else 7 * index % 16
  let sum := state.a + mixed + constants.getD index 0 + words.getD source 0
  ⟨state.d, state.b + rotateLeft sum (rotations.getD (4 * round + index % 4) 0), state.b, state.c⟩

def compress (state : State) (block : Bytes) : State :=
  let words := ((chunks 4 block).map fun word => UInt32.ofNat (ofBigEndian word.reverse)).toArray
  let result := (List.range 64).foldl (step words) state
  ⟨state.a + result.a, state.b + result.b, state.c + result.c, state.d + result.d⟩

def digest (message : Bytes) : Bytes :=
  let result := (chunks 64 (pad (littleEndian 8) message)).foldl compress initial
  [result.a, result.b, result.c, result.d].flatMap fun word => littleEndian 4 word.toNat

end Avro.Digest.Md5

namespace Avro.Digest.Sha1

open Avro.Octets

structure State where
  a : UInt32
  b : UInt32
  c : UInt32
  d : UInt32
  e : UInt32

def initial : State := ⟨0x67452301, 0xefcdab89, 0x98badcfe, 0x10325476, 0xc3d2e1f0⟩

def schedule (block : Bytes) : Array UInt32 :=
  let first := ((chunks 4 block).map fun word => UInt32.ofNat (ofBigEndian word)).toArray
  (List.range 64).foldl (fun words offset =>
    let index := offset + 16
    words.push (rotateLeft (words.getD (index - 3) 0 ^^^ words.getD (index - 8) 0
      ^^^ words.getD (index - 14) 0 ^^^ words.getD (index - 16) 0) 1)) first

def step (words : Array UInt32) (state : State) (index : Nat) : State :=
  let (mixed, constant) : UInt32 × UInt32 :=
    if index < 20 then ((state.b &&& state.c) ||| (~~~state.b &&& state.d), 0x5a827999)
    else if index < 40 then (state.b ^^^ state.c ^^^ state.d, 0x6ed9eba1)
    else if index < 60 then
      ((state.b &&& state.c) ||| (state.b &&& state.d) ||| (state.c &&& state.d), 0x8f1bbcdc)
    else (state.b ^^^ state.c ^^^ state.d, 0xca62c1d6)
  let sum := rotateLeft state.a 5 + mixed + state.e + constant + words.getD index 0
  ⟨sum, state.a, rotateLeft state.b 30, state.c, state.d⟩

def compress (state : State) (block : Bytes) : State :=
  let result := (List.range 80).foldl (step (schedule block)) state
  ⟨state.a + result.a, state.b + result.b, state.c + result.c, state.d + result.d,
    state.e + result.e⟩

def digest (message : Bytes) : Bytes :=
  let result := (chunks 64 (pad (bigEndian 8) message)).foldl compress initial
  [result.a, result.b, result.c, result.d, result.e].flatMap fun word => bigEndian 4 word.toNat

end Avro.Digest.Sha1

namespace Avro.Digest.Sha256

open Avro.Octets

def constants : Array UInt32 := #[
    0x428a2f98, 0x71374491, 0xb5c0fbcf, 0xe9b5dba5, 0x3956c25b, 0x59f111f1, 0x923f82a4, 0xab1c5ed5,
    0xd807aa98, 0x12835b01, 0x243185be, 0x550c7dc3, 0x72be5d74, 0x80deb1fe, 0x9bdc06a7, 0xc19bf174,
    0xe49b69c1, 0xefbe4786, 0x0fc19dc6, 0x240ca1cc, 0x2de92c6f, 0x4a7484aa, 0x5cb0a9dc, 0x76f988da,
    0x983e5152, 0xa831c66d, 0xb00327c8, 0xbf597fc7, 0xc6e00bf3, 0xd5a79147, 0x06ca6351, 0x14292967,
    0x27b70a85, 0x2e1b2138, 0x4d2c6dfc, 0x53380d13, 0x650a7354, 0x766a0abb, 0x81c2c92e, 0x92722c85,
    0xa2bfe8a1, 0xa81a664b, 0xc24b8b70, 0xc76c51a3, 0xd192e819, 0xd6990624, 0xf40e3585, 0x106aa070,
    0x19a4c116, 0x1e376c08, 0x2748774c, 0x34b0bcb5, 0x391c0cb3, 0x4ed8aa4a, 0x5b9cca4f, 0x682e6ff3,
    0x748f82ee, 0x78a5636f, 0x84c87814, 0x8cc70208, 0x90befffa, 0xa4506ceb, 0xbef9a3f7, 0xc67178f2]

structure State where
  a : UInt32
  b : UInt32
  c : UInt32
  d : UInt32
  e : UInt32
  f : UInt32
  g : UInt32
  h : UInt32

def initial : State :=
  ⟨0x6a09e667, 0xbb67ae85, 0x3c6ef372, 0xa54ff53a, 0x510e527f, 0x9b05688c, 0x1f83d9ab, 0x5be0cd19⟩

def schedule (block : Bytes) : Array UInt32 :=
  let first := ((chunks 4 block).map fun word => UInt32.ofNat (ofBigEndian word)).toArray
  (List.range 48).foldl (fun words offset =>
    let index := offset + 16
    let early := words.getD (index - 15) 0
    let late := words.getD (index - 2) 0
    let small := rotateRight early 7 ^^^ rotateRight early 18 ^^^ (early >>> 3)
    let large := rotateRight late 17 ^^^ rotateRight late 19 ^^^ (late >>> 10)
    words.push (words.getD (index - 16) 0 + small + words.getD (index - 7) 0 + large)) first

def step (words : Array UInt32) (state : State) (index : Nat) : State :=
  let spreadE := rotateRight state.e 6 ^^^ rotateRight state.e 11 ^^^ rotateRight state.e 25
  let choice := (state.e &&& state.f) ^^^ (~~~state.e &&& state.g)
  let first := state.h + spreadE + choice + constants.getD index 0 + words.getD index 0
  let spreadA := rotateRight state.a 2 ^^^ rotateRight state.a 13 ^^^ rotateRight state.a 22
  let majority := (state.a &&& state.b) ^^^ (state.a &&& state.c) ^^^ (state.b &&& state.c)
  ⟨first + spreadA + majority, state.a, state.b, state.c, state.d + first, state.e,
    state.f, state.g⟩

def compress (state : State) (block : Bytes) : State :=
  let result := (List.range 64).foldl (step (schedule block)) state
  ⟨state.a + result.a, state.b + result.b, state.c + result.c, state.d + result.d,
    state.e + result.e, state.f + result.f, state.g + result.g, state.h + result.h⟩

def digest (message : Bytes) : Bytes :=
  let result := (chunks 64 (pad (bigEndian 8) message)).foldl compress initial
  [result.a, result.b, result.c, result.d, result.e, result.f, result.g, result.h].flatMap
    fun word => bigEndian 4 word.toNat

end Avro.Digest.Sha256
