import LatticeSuite.Digest.Algorithm

/-!
# Requests for a generator

A request names the generator, the source of its seeds and the number of
bytes after which it is seeded again.
-/

namespace LatticeSuite

-- A power of natural numbers is the core library's, whatever else is imported.
attribute [default_instance 20000] instPowNat
attribute [scoped instance (high)] instPowNat

/-- The generators a context can be given. -/
inductive CsprngAlgorithm where
  /-- The operating system's generator, without state of its own. -/
  | system
  | aesCtrDrbg | aesCtr | isaac | salsa20 | chaCha20 | kiss
  | hashDrbg (hash : HashAlgorithm)
  deriving DecidableEq, Repr, Inhabited

namespace CsprngAlgorithm

def all : List CsprngAlgorithm :=
  [.system, .aesCtrDrbg, .aesCtr, .isaac, .salsa20, .chaCha20, .kiss] ++
    HashAlgorithm.all.map .hashDrbg

/-- Whether the output is fit for keys. ISAAC and KISS only have good
statistics. -/
def isCryptographic : CsprngAlgorithm → Bool
  | .isaac | .kiss => false
  | _ => true

/-- The name shown to users. -/
def text : CsprngAlgorithm → String
  | .system => "system"
  | .aesCtrDrbg => "AES-256 CTR_DRBG"
  | .aesCtr => "AES-256-CTR"
  | .isaac => "ISAAC-64"
  | .salsa20 => "Salsa20"
  | .chaCha20 => "ChaCha20"
  | .kiss => "KISS-64"
  | .hashDrbg hash => "Hash_DRBG(" ++ hash.name ++ ")"

/-- The identifier used in diagnostic records. -/
def label : CsprngAlgorithm → String
  | .system => "System"
  | .aesCtrDrbg => "AesCtrDrbg"
  | .aesCtr => "AesCtr"
  | .isaac => "Isaac"
  | .salsa20 => "Salsa20"
  | .chaCha20 => "ChaCha20"
  | .kiss => "Kiss"
  | .hashDrbg hash => "HashDrbg(" ++ hash.label ++ ")"

end CsprngAlgorithm

/-- Where seed material comes from. -/
inductive EntropySource where
  | devRandom | devUrandom | os
  /-- The callback that the application installed. -/
  | callback
  deriving DecidableEq, Repr

def EntropySource.all : List EntropySource := [.devRandom, .devUrandom, .os, .callback]

/-- The identifier used in diagnostic records. -/
def EntropySource.label : EntropySource → String
  | .devRandom => "DevRandom"
  | .devUrandom => "DevUrandom"
  | .os => "Os"
  | .callback => "Callback"

/-- The seed period of a request that does not choose one. -/
def defaultSeedPeriod : Nat := 2 ^ 20

/-- A request for a generator. -/
structure CsprngRequest where
  algorithm : CsprngAlgorithm := .system
  source : EntropySource := .os
  /-- Bytes of output between two seedings; zero means no limit. -/
  seedPeriod : Nat := defaultSeedPeriod
  deriving DecidableEq, Repr

end LatticeSuite
