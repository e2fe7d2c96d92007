import LatticeSuite.Cipher.Aes256
import LatticeSuite.Digest.Sha2
import LatticeSuite.Random.Counter
import LatticeSuite.Random.Seed

/-!
# CTR_DRBG over AES-256

The state is a key and a counter. Output is the encryption of successive
counter values; after every request the key and the counter are replaced by
three more blocks, so output already given cannot be computed from the state.
There is no derivation function: seed material of any length is condensed
with SHA-384 to the 48 bytes that key and counter have together.
-/

namespace LatticeSuite

/-- The state of a CTR_DRBG. -/
structure CtrDrbg where
  key : Bytes
  counter : Bytes
  /-- One more than the number of requests since the last seeding. -/
  reseedCounter : Nat
  deriving DecidableEq

namespace CtrDrbg

/-- The 48 bytes that seed material is condensed to. -/
def condense (entropy : Bytes) : Bytes :=
  Sha2.sha384 (entropy ++ Seed.personalization)

/-- Encrypt the next `count` counter values, appended to the reversed `acc`;
the last counter value goes with them. -/
def blocksFrom (keys : Aes256.RoundKeys) : (count : Nat) → (counter : Bytes) →
    (acc : List UInt8) → Bytes × Bytes
  | 0, counter, acc => (acc.reverse, counter)
  | n + 1, counter, acc =>
    let counter := counter.increment
    blocksFrom keys n counter ((Aes256.encrypt keys counter).reverseAux acc)

/-- Encrypt the next `count` counter values. -/
def blocks (d : CtrDrbg) (count : Nat) : Bytes × Bytes :=
  blocksFrom (Aes256.expandKey d.key) count d.counter []

/-- Replace key and counter by the next three blocks with `provided` added. -/
def update (d : CtrDrbg) (provided : Bytes) : CtrDrbg :=
  let fresh := Bytes.xor (d.blocks 3).1 provided
  { d with key := fresh.take 32, counter := fresh.drop 32 }

/-- The state seeded from zeros. -/
def new (entropy : Bytes) : CtrDrbg :=
  update
    { key := List.replicate 32 0, counter := List.replicate 16 0, reseedCounter := 1 }
    (condense entropy)

/-- Mix in fresh entropy. -/
def reseed (d : CtrDrbg) (entropy : Bytes) : CtrDrbg :=
  { d.update (condense entropy) with reseedCounter := 1 }

def generate (d : CtrDrbg) (n : Nat) : Bytes × CtrDrbg :=
  let (out, counter) := d.blocks ((n + 15) / 16)
  (out.take n,
    { ({ d with counter }).update (List.replicate 48 0) with
      reseedCounter := d.reseedCounter + 1 })

end CtrDrbg

end LatticeSuite
