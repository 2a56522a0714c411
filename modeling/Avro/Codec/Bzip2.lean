import Avro.Codec.PrefixCode
import Avro.Codec.Scan

/-!
Contract: the bzip2 format.

Owns: `Bzip2.expand`, which expands compressed data, and `Bzip2.bytewise`, which writes data in
blocks of one byte.

The data of a block is run-length encoded, sorted by what follows each byte, turned into the places
of recently used bytes, with runs of the first place counted, and written in prefix codes. A block
of one byte needs none of these steps, so writing in such blocks is simple, though it does not make
data shorter.
-/

namespace Avro.Bzip2

open Codec

def bitsOf (count value : Nat) : List Bool :=
  (List.range count).map fun place => value.testBit (count - 1 - place)

def bitsOfBytes (bytes : Bytes) : List Bool := bytes.flatMap fun byte => bitsOf 8 byte.toNat

def blockMark : Nat := 0x314159265359

def endMark : Nat := 0x177245385090

/-! ### The check -/

def checkStep (value : UInt32) : UInt32 :=
  (value <<< 1) ^^^ (if value &&& 0x80000000 = 0 then 0 else 0x04c11db7)

def checkSteps (value : UInt32) : Nat → UInt32
  | 0 => value
  | count + 1 => checkSteps (checkStep value) count

def checkByte (value : UInt32) (byte : UInt8) : UInt32 :=
  checkSteps (value ^^^ (byte.toUInt32 <<< 24)) 8

def blockCheck (data : Bytes) : UInt32 := data.foldl checkByte 0xffffffff ^^^ 0xffffffff

def combine (total check : UInt32) : UInt32 := ((total <<< 1) ||| (total >>> 31)) ^^^ check

/-! ### Reading -/

/-- The places of the set bits among the next `count`, from a base on. -/
def takeSetPlaces (base : Nat) : Nat → BitM (List Nat)
  | 0 => pure []
  | count + 1 => do
    let isSet ← takeBit
    let rest ← takeSetPlaces (base + 1) count
    return if isSet then base :: rest else rest

def takeUsed : List Nat → BitM (List Nat)
  | [] => pure []
  | range :: rest => do
    let own ← takeSetPlaces (16 * range) 16
    return own ++ (← takeUsed rest)

/-- A number in unary: how many set bits there are before one that is not. -/
def takeUnary : Nat → BitM Nat
  | 0 => failure
  | limit + 1 => do
    if ← takeBit then return 1 + (← takeUnary limit) else return 0

def moveToFront {α : Type} (items : List α) (place : Nat) : Option (α × List α) :=
  match items[place]? with
  | some item => some (item, item :: items.eraseIdx place)
  | none => none

/-- The selectors of prefix codes, as places of recently used ones. -/
def takeSelectors (recent : List Nat) : Nat → BitM (List Nat)
  | 0 => pure []
  | count + 1 => do
    match moveToFront recent (← takeUnary recent.length) with
    | some (selector, updated) => return selector :: (← takeSelectors updated count)
    | none => failure

/-- Changes a length by steps of one. Lengths are from one to twenty. -/
def takeLengthChange : Nat → Nat → BitM Nat
  | 0, _ => failure
  | fuel + 1, length => do
    if length < 1 || length > 20 then failure
    if ← takeBit then
      if ← takeBit then takeLengthChange fuel (length - 1) else takeLengthChange fuel (length + 1)
    else return length

def takeLengths (length : Nat) : Nat → BitM (List Nat)
  | 0 => pure []
  | count + 1 => do
    let fuel := (← get).length + 1
    let own ← takeLengthChange fuel length
    return own :: (← takeLengths own count)

def takeCode (symbols : Nat) : BitM PrefixCode := do
  let start ← takeLeading 5
  return .ofLengths 20 (← takeLengths start symbols)

def takeCodes (symbols : Nat) : Nat → BitM (List PrefixCode)
  | 0 => pure []
  | count + 1 => do
    let code ← takeCode symbols
    return code :: (← takeCodes symbols count)

/-- Reads up to `count` symbols of one code; whether the end symbol was met. -/
def takeGroup (code : PrefixCode) (endSymbol : Nat) : Nat → BitM (List Nat × Bool)
  | 0 => pure ([], false)
  | count + 1 => do
    let symbol ← code.read
    if symbol = endSymbol then return ([], true)
    let (rest, ended) ← takeGroup code endSymbol count
    return (symbol :: rest, ended)

/-- The symbols of a block, in groups of fifty, each in the code that its selector names. -/
def takeSymbols (codes : List PrefixCode) (endSymbol : Nat) : List Nat → BitM (List Nat)
  | [] => failure
  | selector :: rest => do
    match codes[selector]? with
    | some code =>
      let (group, ended) ← takeGroup code endSymbol 50
      if ended then return group else return group ++ (← takeSymbols codes endSymbol rest)
    | none => failure

/-- The sorted bytes of a block. Symbols zero and one count a run of the byte in front, as digits of
a number; the others are places of recently used bytes. The bytes so far stand last first. -/
def placeBytes (recent : List Nat) (run weight : Nat) (before : List Nat) :
    List Nat → Option (List Nat)
  | [] => some (List.replicate run (recent.headD 0) ++ before).reverse
  | 0 :: rest => placeBytes recent (run + weight) (2 * weight) before rest
  | 1 :: rest => placeBytes recent (run + 2 * weight) (2 * weight) before rest
  | symbol :: rest =>
    match moveToFront recent (symbol - 1) with
    | some (byte, updated) =>
      placeBytes updated 0 1 (byte :: List.replicate run (recent.headD 0) ++ before) rest
    | none => none

def sortedPlaces (bytes : List Nat) : Array Nat :=
  ((List.range 256).flatMap fun value =>
    bytes.zipIdx.filterMap fun (byte, place) => if byte = value then some place else none).toArray

def follow (bytes order : Array Nat) (place : Nat) : Nat → Option (List Nat)
  | 0 => some []
  | count + 1 => do
    let next ← order[place]?
    let byte ← bytes[next]?
    return byte :: (← follow bytes order next count)

def unsort (start : Nat) (bytes : List Nat) : Option (List Nat) :=
  follow bytes.toArray (sortedPlaces bytes) start bytes.length

/-- Undoes the run-length encoding: after four equal bytes comes how many more there are. -/
def expandRuns (last run : Nat) : List Nat → List Nat
  | [] => []
  | byte :: rest =>
    if run = 4 then List.replicate byte last ++ expandRuns 256 0 rest
    else if byte = last then byte :: expandRuns last (run + 1) rest
    else byte :: expandRuns byte 1 rest

def expandBlock : BitM Bytes := do
  let check ← takeLeading 32
  if ← takeBit then failure
  let start ← takeLeading 24
  let used ← takeUsed (← takeSetPlaces 0 16)
  if used.isEmpty then failure
  let codeCount ← takeLeading 3
  let selectorCount ← takeLeading 15
  if codeCount < 2 || codeCount > 6 || selectorCount = 0 then failure
  let selectors ← takeSelectors (List.range codeCount) selectorCount
  let codes ← takeCodes (used.length + 2) codeCount
  let symbols ← takeSymbols codes (used.length + 1) selectors
  match (placeBytes used 0 1 [] symbols).bind (unsort start) with
  | some encoded =>
    let data := (expandRuns 256 0 encoded).map UInt8.ofNat
    if (blockCheck data).toNat = check then return data else failure
  | none => failure

/-- Expands blocks up to the end mark, and checks the check of all. -/
def expandBlocks : Nat → UInt32 → Bytes → BitM Bytes
  | 0, _, _ => failure
  | fuel + 1, total, before => do
    let mark ← takeLeading 48
    if mark = blockMark then
      let data ← expandBlock
      expandBlocks fuel (combine total (blockCheck data)) (data.reverse ++ before)
    else if mark = endMark then
      if (← takeLeading 32) = total.toNat then return before.reverse else failure
    else failure

def expand (data : Bytes) : Option Bytes := do
  let (level, body) ← (do ScanM.expect [0x42, 0x5a, 0x68]; ScanM.byte : ScanM Nat) data
  if level < 0x31 || level > 0x39 then none
  else
    let bits := bitsOfBytes body
    (expandBlocks (bits.length + 1) 0 [] bits).map Prod.fst

/-! ### Writing -/

def writtenCode : List Bool := bitsOf 5 1 ++ [false, true, false, false, false]

/-- A block of one byte: its mark and check, which byte occurs, two codes of which the first is
used, the symbol for a run of one, and the end symbol. -/
def byteBlock (byte : UInt8) : List Bool :=
  bitsOf 48 blockMark ++ bitsOf 32 (blockCheck [byte]).toNat ++ [false] ++ bitsOf 24 0
    ++ bitsOf 16 (Nat.pow 2 (15 - byte.toNat / 16)) ++ bitsOf 16 (Nat.pow 2 (15 - byte.toNat % 16))
    ++ bitsOf 3 2 ++ bitsOf 15 1 ++ [false] ++ writtenCode ++ writtenCode ++ [false, true, true]

def packBits (bits : List Bool) : Bytes :=
  match bits with
  | [] => []
  | bit :: rest =>
    let eight := (bit :: rest.take 7) ++ List.replicate (7 - rest.length) false
    UInt8.ofNat (eight.foldl (fun value next => 2 * value + next.toNat) 0) :: packBits (rest.drop 7)
termination_by bits.length
decreasing_by simp only [List.length_drop, List.length_cons]; omega

def bytewise (data : Bytes) : Bytes :=
  let total := data.foldl (fun check byte => combine check (blockCheck [byte])) 0
  [0x42, 0x5a, 0x68, 0x39] ++ packBits
    (data.flatMap byteBlock ++ bitsOf 48 endMark ++ bitsOf 32 total.toNat)

end Avro.Bzip2
