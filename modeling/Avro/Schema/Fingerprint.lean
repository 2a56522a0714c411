import Avro.Digest.Blocks
import Avro.Digest.Checksum
import Avro.Schema.Canonical

/-!
Contract: fingerprints of schemas.

Owns: the names of the algorithms, and the fingerprint of a canonical form as hexadecimal digits.
-/

namespace Avro.Schema

inductive Algorithm where
  | rabin
  | md5
  | sha1
  | sha256
  /-- A digest whose length has to be chosen, which a fingerprint does not do. -/
  | extendable
deriving DecidableEq, Repr

/-- The algorithm of a name; two names have a second spelling. -/
def Algorithm.ofName? : String → Option Algorithm
  | "CRC-64-AVRO" => some rabin
  | "MD5" => some md5
  | "md5" => some md5
  | "sha1" => some sha1
  | "SHA-256" => some sha256
  | "sha256" => some sha256
  | "shake_128" => some extendable
  | "shake_256" => some extendable
  | _ => none

def fingerprint (form algorithm : String) : Outcome String :=
  let data := Text.encodeUtf8 form
  match Algorithm.ofName? algorithm with
  | none => .error (.unknownFingerprint algorithm)
  | some .rabin => Digest.Rabin.fingerprint data
  | some .md5 => .ok (Text.hexOfBytes (Digest.Md5.digest data))
  | some .sha1 => .ok (Text.hexOfBytes (Digest.Sha1.digest data))
  | some .sha256 => .ok (Text.hexOfBytes (Digest.Sha256.digest data))
  | some .extendable => .error (.wrongType [])

end Avro.Schema
