import LatticeSuite.Digest.Algorithm
import LatticeSuite.Digest.Keccak
import LatticeSuite.Digest.Blake2b
import LatticeSuite.Digest.Whirlpool

/-!
# Digests by algorithm, whole and in parts

`HashAlgorithm.digest` is the digest of a whole message. A `Hasher` takes the
message in parts; since a digest depends on the joined parts only, it keeps
the parts and hashes once at the end.
-/

namespace LatticeSuite

def HashAlgorithm.digest : HashAlgorithm → Bytes → Bytes
  | .sha2_224 => Sha2.sha224
  | .sha2_256 => Sha2.sha256
  | .sha2_384 => Sha2.sha384
  | .sha2_512 => Sha2.sha512
  | .sha3_224 => Keccak.sha3 28
  | .sha3_256 => Keccak.sha3 32
  | .sha3_384 => Keccak.sha3 48
  | .sha3_512 => Keccak.sha3 64
  | .blake2b224 => Blake2b.digest 28
  | .blake2b256 => Blake2b.digest 32
  | .blake2b384 => Blake2b.digest 48
  | .blake2b512 => Blake2b.digest 64
  | .whirlpool => Whirlpool.digest

/-- The digest of the concatenation of several parts. -/
def HashAlgorithm.digestParts (a : HashAlgorithm) (parts : List Bytes) : Bytes :=
  a.digest parts.flatten

structure Hasher where
  algorithm : HashAlgorithm
  /-- The parts absorbed so far, latest first. -/
  parts : List Bytes := []

namespace Hasher

def new (algorithm : HashAlgorithm) : Hasher :=
  { algorithm }

def message (h : Hasher) : Bytes :=
  h.parts.reverse.flatten

def update (h : Hasher) (part : Bytes) : Hasher :=
  { h with parts := part :: h.parts }

def finish (h : Hasher) : Bytes :=
  h.algorithm.digest h.message

/-- The digest of what was absorbed, and a fresh hasher of the same algorithm. -/
def finishReset (h : Hasher) : Bytes × Hasher :=
  (h.finish, new h.algorithm)

@[simp] theorem message_new (a : HashAlgorithm) : (new a).message = [] := rfl

@[simp] theorem message_update (h : Hasher) (part : Bytes) :
    (h.update part).message = h.message ++ part := by
  simp [message, update]

end Hasher

end LatticeSuite
