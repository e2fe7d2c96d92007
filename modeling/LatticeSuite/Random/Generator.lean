import LatticeSuite.Random.CtrDrbg
import LatticeSuite.Random.HashDrbg
import LatticeSuite.Random.Isaac64
import LatticeSuite.Random.Kiss64
import LatticeSuite.Random.Request
import LatticeSuite.Random.Stream

/-!
# Seeded generators

The seven kinds of generator behind one set of operations. Each of them is
deterministic: what it produces is a function of its seedings and of the
requests made so far.
-/

namespace LatticeSuite

/-- A seeded generator. -/
inductive Generator where
  | ctrDrbg (state : CtrDrbg)
  | hashDrbg (state : HashDrbg)
  | aesCtr (state : AesStream)
  | salsa20 (state : SalsaStream)
  | chaCha20 (state : ChaChaStream)
  | isaac (state : Isaac64)
  | kiss (state : Kiss64)
  deriving DecidableEq

namespace Generator

/-- The algorithm of a generator. -/
def algorithm : Generator → CsprngAlgorithm
  | .ctrDrbg _ => .aesCtrDrbg
  | .hashDrbg s => .hashDrbg s.algorithm
  | .aesCtr _ => .aesCtr
  | .salsa20 _ => .salsa20
  | .chaCha20 _ => .chaCha20
  | .isaac _ => .isaac
  | .kiss _ => .kiss

/-- The generator of an algorithm and a seed. The operating system's
generator is not among them. -/
def ofSeed? (algorithm : CsprngAlgorithm) (seed : Bytes) : Option Generator :=
  match algorithm with
  | .system => none
  | .aesCtrDrbg => some (.ctrDrbg (CtrDrbg.new seed))
  | .aesCtr => some (.aesCtr (AesStream.new seed))
  | .isaac => some (.isaac (Isaac64.new seed))
  | .salsa20 => some (.salsa20 (SalsaStream.new seed))
  | .chaCha20 => some (.chaCha20 (ChaChaStream.new seed))
  | .kiss => some (.kiss (Kiss64.new seed))
  | .hashDrbg h => some (.hashDrbg (HashDrbg.new h seed))

def generate (g : Generator) (n : Nat) : Bytes × Generator :=
  match g with
  | .ctrDrbg s => let (out, s) := s.generate n; (out, .ctrDrbg s)
  | .hashDrbg s => let (out, s) := s.generate n; (out, .hashDrbg s)
  | .aesCtr s => let (out, s) := s.generate n; (out, .aesCtr s)
  | .salsa20 s => let (out, s) := s.generate n; (out, .salsa20 s)
  | .chaCha20 s => let (out, s) := s.generate n; (out, .chaCha20 s)
  | .isaac s => let (out, s) := s.generate n; (out, .isaac s)
  | .kiss s => let (out, s) := s.generate n; (out, .kiss s)

/-- Mix in fresh entropy. The keystreams start anew from it. -/
def reseed (g : Generator) (entropy : Bytes) : Generator :=
  match g with
  | .ctrDrbg s => .ctrDrbg (s.reseed entropy)
  | .hashDrbg s => .hashDrbg (s.reseed entropy)
  | .aesCtr _ => .aesCtr (AesStream.new entropy)
  | .salsa20 _ => .salsa20 (SalsaStream.new entropy)
  | .chaCha20 _ => .chaCha20 (ChaChaStream.new entropy)
  | .isaac s => .isaac (s.reseed entropy)
  | .kiss s => .kiss (s.reseed entropy)

/-- The request counter of a DRBG. -/
def reseedCounter? : Generator → Option Nat
  | .ctrDrbg s => some s.reseedCounter
  | .hashDrbg s => some s.reseedCounter
  | _ => none

@[simp] theorem algorithm_generate (g : Generator) (n : Nat) :
    (g.generate n).2.algorithm = g.algorithm := by
  cases g <;> simp [generate, algorithm, HashDrbg.generate, HashDrbg.step]

@[simp] theorem algorithm_reseed (g : Generator) (entropy : Bytes) :
    (g.reseed entropy).algorithm = g.algorithm := by
  cases g <;> simp [reseed, algorithm, HashDrbg.reseed, HashDrbg.ofInput]

theorem algorithm_ofSeed? {a : CsprngAlgorithm} {seed : Bytes} {g : Generator}
    (h : ofSeed? a seed = some g) : g.algorithm = a := by
  cases a <;> simp only [ofSeed?, Option.some.injEq, reduceCtorEq] at h <;> subst h <;>
    simp [algorithm, HashDrbg.new, HashDrbg.ofInput]

end Generator

end LatticeSuite
