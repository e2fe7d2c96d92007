import LatticeSuite.Cipher.Aes256
import LatticeSuite.Cipher.ChaCha20
import LatticeSuite.Cipher.Keystream
import LatticeSuite.Cipher.Salsa20
import LatticeSuite.Digest.Sha2
import LatticeSuite.Random.Seed

/-!
# Keystreams as generators

A cipher's keystream under a key made from the seed. The state is the key and
the position reached. Salsa20 and AES in counter mode go on at the byte where
the last request ended; ChaCha20 counts in 32-bit words, and the rest of a
word that a request used in part is lost. A seeding forgets everything before
it.
-/

namespace LatticeSuite

/-- Seed material of any length, stretched to key and nonce. -/
def Seed.expand (seed : Bytes) : Bytes :=
  Sha2.sha512 (seed ++ Seed.personalization)

/-- ChaCha20 with a 64-bit counter and an all-zero nonce. -/
structure ChaChaStream where
  key : Quad × Quad
  /-- The number of words used. -/
  words : Nat := 0
  deriving DecidableEq

namespace ChaChaStream

def new (seed : Bytes) : ChaChaStream :=
  { key := ChaCha20.keyOf ((Seed.expand seed).take 32) }

/-- Block `i` of the keystream. -/
def block (g : ChaChaStream) (i : Nat) : Bytes :=
  ChaCha20.block g.key ⟨UInt32.ofNat i, UInt32.ofNat (i / 2 ^ 32), 0, 0⟩

def generate (g : ChaChaStream) (n : Nat) : Bytes × ChaChaStream :=
  (Keystream.slice 64 g.block (4 * g.words) n, { g with words := g.words + (n + 3) / 4 })

end ChaChaStream

/-- Salsa20 with a nonce from the seed. -/
structure SalsaStream where
  key : Salsa20.Key
  /-- The number of bytes used. -/
  position : Nat := 0
  deriving DecidableEq

namespace SalsaStream

def new (seed : Bytes) : SalsaStream :=
  let material := Seed.expand seed
  { key := ⟨material.take 32, (material.drop 32).take 8⟩ }

def generate (g : SalsaStream) (n : Nat) : Bytes × SalsaStream :=
  (Keystream.slice 64 g.key.block g.position n, { g with position := g.position + n })

end SalsaStream

/-- AES-256 in counter mode, counting from a block of the seed. -/
structure AesStream where
  keys : Aes256.RoundKeys
  /-- The counter value of the first block. -/
  start : Nat
  /-- The number of bytes used. -/
  position : Nat := 0
  deriving DecidableEq

namespace AesStream

def new (seed : Bytes) : AesStream :=
  let material := Seed.expand seed
  { keys := Aes256.expandKey (material.take 32), start := Bytes.ofBE ((material.drop 32).take 16) }

/-- Block `i` of the keystream. -/
def block (g : AesStream) (i : Nat) : Bytes :=
  Aes256.encrypt g.keys (Bytes.toBE 16 (g.start + i))

def generate (g : AesStream) (n : Nat) : Bytes × AesStream :=
  (Keystream.slice 16 g.block g.position n, { g with position := g.position + n })

end AesStream

end LatticeSuite
