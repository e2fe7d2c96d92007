import LatticeSuite.Digest.Hasher
import LatticeSuite.Random.Counter
import LatticeSuite.Random.Seed

/-!
# Hash_DRBG over any digest

The state is two numbers of 55 or 111 bytes: a counter that is hashed to give
output, and a constant that is added to it after every request. Both come
from the seed material through the derivation function `derive`.
-/

namespace LatticeSuite

/-- The state of a Hash_DRBG. -/
structure HashDrbg where
  algorithm : HashAlgorithm
  /-- The value hashed for output. -/
  v : Bytes
  /-- What every request adds to it. -/
  c : Bytes
  /-- One more than the number of requests since the last seeding. -/
  reseedCounter : Nat
  deriving DecidableEq

namespace HashDrbg

/-- The length of the two numbers: 440 bits for digests of up to 256 bits,
else 888. -/
def seedLength (a : HashAlgorithm) : Nat :=
  if a.outputSize ≤ 32 then 55 else 111

/-- The derivation function: `n` bytes from an input of any length. -/
def derive (a : HashAlgorithm) (input : Bytes) (n : Nat) : Bytes :=
  ((List.range ((n + a.outputSize - 1) / a.outputSize)).flatMap fun i =>
    a.digest (UInt8.ofNat (i + 1) :: Bytes.toBE 4 (8 * n) ++ input)).take n

/-- The state whose counter is derived from `input`. -/
def ofInput (a : HashAlgorithm) (input : Bytes) : HashDrbg :=
  let v := derive a input (seedLength a)
  { algorithm := a, v, c := derive a (0 :: v) (seedLength a), reseedCounter := 1 }

/-- The state of a first seeding. -/
def new (a : HashAlgorithm) (entropy : Bytes) : HashDrbg :=
  ofInput a (entropy ++ Seed.personalization)

/-- Mix in fresh entropy. -/
def reseed (d : HashDrbg) (entropy : Bytes) : HashDrbg :=
  ofInput d.algorithm (1 :: d.v ++ entropy)

/-- The digests of `count` successive values, appended to the reversed `acc`. -/
def hashFrom (a : HashAlgorithm) : (count : Nat) → (value : Bytes) → (acc : List UInt8) → Bytes
  | 0, _, acc => acc.reverse
  | n + 1, value, acc => hashFrom a n value.increment ((a.digest value).reverseAux acc)

/-- What follows a request: the counter plus its digest, the constant and the
number of requests. -/
def step (d : HashDrbg) : HashDrbg :=
  let h := d.algorithm.digest (3 :: d.v)
  { d with
    v := ((d.v.addInto h).addInto d.c).addInto (Bytes.toBE 8 d.reseedCounter)
    reseedCounter := d.reseedCounter + 1 }

def generate (d : HashDrbg) (n : Nat) : Bytes × HashDrbg :=
  let size := d.algorithm.outputSize
  ((hashFrom d.algorithm ((n + size - 1) / size) d.v []).take n, d.step)

end HashDrbg

end LatticeSuite
