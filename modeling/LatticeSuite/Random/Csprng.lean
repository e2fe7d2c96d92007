import LatticeSuite.Random.Entropy
import LatticeSuite.Random.Generator

/-!
# Generators that are seeded again in time

A `Csprng` counts the bytes since its last seeding and never hands out a byte
beyond its seed period: `Supply.fill` gives what the period still allows,
seeds the generator again, and goes on. So a request may need several
seedings, and one that fails ends the request where it stands.

A `Supply` is a generator together with the entropy it is seeded from. The
operating system's generator has no state to seed and answers each request
from the host, but its requests are counted and its seedings done all the
same.
-/

namespace LatticeSuite

/-- What the bytes of a context are computed from. -/
inductive Engine where
  /-- The operating system's generator. -/
  | system
  | seeded (generator : Generator)
  deriving DecidableEq

namespace Engine

/-- The algorithm of an engine. -/
def algorithm : Engine → CsprngAlgorithm
  | .system => .system
  | .seeded g => g.algorithm

/-- The engine of an algorithm and a seed. -/
def ofSeed (algorithm : CsprngAlgorithm) (seed : Bytes) : Engine :=
  match Generator.ofSeed? algorithm seed with
  | some g => .seeded g
  | none => .system

/-- Mix in fresh entropy. -/
def reseed : Engine → Bytes → Engine
  | .system, _ => .system
  | .seeded g, entropy => .seeded (g.reseed entropy)

@[simp] theorem algorithm_reseed (e : Engine) (entropy : Bytes) :
    (e.reseed entropy).algorithm = e.algorithm := by
  cases e <;> simp [reseed, algorithm]

end Engine

/-- A generator that is seeded again after every `seedPeriod` bytes. -/
structure Csprng where
  engine : Engine
  source : EntropySource
  seedPeriod : Nat
  seedPeriod_pos : 0 < seedPeriod
  /-- Bytes since the last seeding. -/
  sinceReseed : Nat := 0
  /-- Seedings since the first. -/
  reseeds : Nat := 0
  deriving DecidableEq

namespace Csprng

/-- The algorithm of the generator. -/
def algorithm (c : Csprng) : CsprngAlgorithm :=
  c.engine.algorithm

/-- The period that stands for no limit: the greatest 64-bit number. -/
def unlimitedPeriod : Nat := 2 ^ 64 - 1

/-- The diagnostic record of a generator. -/
def describe (c : Csprng) : String :=
  "Csprng \x7b algorithm: " ++ c.algorithm.label ++ ", source: " ++ c.source.label ++
    ", reseeds: " ++ toString c.reseeds ++ " \x7d"

/-- The generator of a request and a first seed. -/
def ofSeed (request : CsprngRequest) (seed : Bytes) : Csprng :=
  { engine := Engine.ofSeed request.algorithm seed
    source := request.source
    seedPeriod := if request.seedPeriod = 0 then unlimitedPeriod else request.seedPeriod
    seedPeriod_pos := by
      split
      · decide
      · omega }

/-- The generator after a seeding. -/
def seededWith (c : Csprng) (seed : Bytes) : Csprng :=
  { c with engine := c.engine.reseed seed, sinceReseed := 0, reseeds := c.reseeds + 1 }

/-- The bytes that the period still allows. -/
def room (c : Csprng) : Nat :=
  c.seedPeriod - c.sinceReseed

end Csprng

/-- A generator and what it is seeded from. -/
structure Supply where
  csprng : Csprng
  entropy : Entropy

namespace Supply

/-- A buffer for a seed. -/
def seedBuffer : Bytes :=
  List.replicate Seed.size 0

/-- The generator of a request, seeded for the first time. -/
def construct (request : CsprngRequest) (entropy : Entropy) :
    Except EntropyError Csprng × Entropy :=
  let (seed, entropy) := entropy.gather request.source seedBuffer
  (seed.map (Csprng.ofSeed request), entropy)

/-- Seed the generator again. A failure leaves it as it was. -/
def reseed (s : Supply) : Except EntropyError Unit × Supply :=
  match s.entropy.gather s.csprng.source seedBuffer with
  | (.error e, entropy) => (.error e, { s with entropy })
  | (.ok seed, entropy) => (.ok (), { csprng := s.csprng.seededWith seed, entropy })

/-- A seeding that failed changes nothing but the entropy. -/
theorem csprng_of_reseed_error {s t : Supply} {e : EntropyError} (h : s.reseed = (.error e, t)) :
    t.csprng = s.csprng := by
  unfold reseed at h
  split at h
  next => rw [← (Prod.mk.inj h).2]
  next => exact absurd (Prod.mk.inj h).1 (by simp)

/-- Let the engine give `n` bytes and count them. The host writes into a buffer
of that length. -/
def emit (s : Supply) (n : Nat) : Except EntropyError Bytes × Supply :=
  let counted := { s.csprng with sinceReseed := s.csprng.sinceReseed + n }
  match s.csprng.engine with
  | .seeded g =>
    let (out, g) := g.generate n
    (.ok out, { s with csprng := { counted with engine := .seeded g } })
  | .system =>
    match s.entropy.askHost .os n with
    | (.error e, entropy) => (.error e, { s with entropy })
    | (.ok out, entropy) =>
      (.ok (Entropy.overlay out (List.replicate n 0)), { csprng := counted, entropy })

/-- What a request for bytes left behind. -/
structure Filled where
  /-- The bytes given before the request ended. -/
  written : Bytes
  /-- Why it ended early, if it did. -/
  failure : Option EntropyError
  supply : Supply

theorem room_pos_of_reseed {s t : Supply} (h : s.reseed = (.ok (), t)) :
    0 < t.csprng.room := by
  unfold reseed at h
  split at h
  · simp at h
  · simp only [Prod.mk.injEq, true_and] at h
    subst h
    exact s.csprng.seedPeriod_pos

/-- The supply with room for at least one byte, seeded again if there was
none. -/
def ready (s : Supply) : Except (EntropyError × Supply) { t : Supply // 0 < t.csprng.room } :=
  if hroom : 0 < s.csprng.room then .ok ⟨s, hroom⟩
  else
    match h : s.reseed with
    | (.error e, t) => .error (e, t)
    | (.ok (), t) => .ok ⟨t, room_pos_of_reseed h⟩

/-- Give `n` bytes, appended to the reversed `acc`, seeding again whenever the
period is used up. -/
def fillFrom (s : Supply) (n : Nat) (acc : List UInt8) : Filled :=
  if _hn : n = 0 then { written := acc.reverse, failure := none, supply := s }
  else
    match s.ready with
    | .error (e, s) => { written := acc.reverse, failure := some e, supply := s }
    | .ok ⟨s, _hroom⟩ =>
      let take := min n s.csprng.room
      match s.emit take with
      | (.error e, s) => { written := acc.reverse, failure := some e, supply := s }
      | (.ok out, s) => s.fillFrom (n - take) (out.reverseAux acc)
termination_by n
decreasing_by omega

/-- Give `n` bytes. -/
def fill (s : Supply) (n : Nat) : Filled :=
  s.fillFrom n []

end Supply

end LatticeSuite
