import LatticeSuite.Key
import LatticeSuite.MlDsa.Encoding
import LatticeSuite.Random.Draw

/-!
# ML-DSA: keys, signatures and their verification

A signature answers a challenge that is the digest of the message and of a
commitment to a random mask. The answer must not tell anything about the
secret, so it is thrown away if it is too large, and the next mask is tried;
masks are numbered, and a signature is a function of the private key, the
message and 32 random bytes. Verification finds the commitment again, up to
hints, and compares the challenge.

Messages are signed without a context: two zero bytes stand in front.
-/

namespace LatticeSuite.MlDsa

open LatticeSuite.Lattice (Poly)

/-- The first `n` bytes of the SHAKE256 stream of a byte string. -/
def shake (n : Nat) (bs : Bytes) : Bytes := (Keccak.shake256 bs).squeeze n

/-- The keys of a seed of 32 bytes. -/
def keyPair (l : Level) (xi : Bytes) : KeyPair :=
  let material := shake 128 (xi ++ [UInt8.ofNat l.rows, UInt8.ofNat l.columns])
  let seed := material.take 32
  let secretSeed := (material.drop 32).take 64
  let s₁ := secretVector l secretSeed 0 l.columns
  let s₂ := secretVector l secretSeed l.columns l.rows
  let t := addVec ((Lattice.mulVec mul (matrix l seed) (s₁.map ntt)).map inverseNtt) s₂
  let publicKey := encodePublicKey seed (t.map (·.map keyHigh))
  { publicKey
    privateKey := PrivateKey.encode l
      { seed, key := material.drop 96, digest := shake 64 publicKey, s₁, s₂,
        t₀ := t.map (·.map keyLow) } }

/-- What is signed for a message: the digest of the public key and the message
without a context. -/
def messageDigest (keyDigest message : Bytes) : Bytes :=
  shake 64 (keyDigest ++ 0 :: 0 :: message)

/-- A private key as signing uses it: the matrix and the transforms of its
vectors. -/
structure SigningKey where
  matrix : List (List (Poly q))
  s₁ : List (Poly q)
  s₂ : List (Poly q)
  t₀ : List (Poly q)

/-- A private key made ready for signing. -/
def SigningKey.ofPrivateKey (l : Level) (k : PrivateKey) : SigningKey :=
  { matrix := MlDsa.matrix l k.seed, s₁ := k.s₁.map ntt, s₂ := k.s₂.map ntt, t₀ := k.t₀.map ntt }

/-- The answer under the mask of a counter, unless it must be thrown away. -/
def attempt (l : Level) (k : SigningKey) (digest maskSeed : Bytes) (counter : Nat) :
    Option Signature :=
  let y := mask l maskSeed counter
  let w := (Lattice.mulVec mul k.matrix (y.map ntt)).map inverseNtt
  let seed := shake l.challengeBytes (digest ++ encodeHigh l (highVec l w))
  let c := ntt (challenge l seed)
  let z := addVec y (mulBack c k.s₁)
  let r := subVec w (mulBack c k.s₂)
  if l.gamma₁ - l.beta ≤ norm z ∨ l.gamma₂ - l.beta ≤ lowNorm l r then none
  else
    let ct₀ := mulBack c k.t₀
    let hints := List.zipWith (List.zipWith fun t x => makeHint l (-t) (x + t)) ct₀ r
    if l.gamma₂ ≤ norm ct₀ ∨ l.omega < hintCount hints then none
    else some { challenge := seed, response := z, hints }

/-- Try the masks from a counter on, at most `limit` of them. -/
def firstAnswer (l : Level) (k : SigningKey) (digest maskSeed : Bytes) :
    (limit : Nat) → (counter : Nat) → Option Signature
  | 0, _ => none
  | n + 1, counter =>
    match attempt l k digest maskSeed counter with
    | some s => some s
    | none => firstAnswer l k digest maskSeed n (counter + l.columns)

/-- The signature of a message under 32 random bytes. The mask counter has
sixteen bits; should no mask do, there is no signature. -/
def signWith (l : Level) (key message random : Bytes) : Option Bytes :=
  let k := PrivateKey.decode l key
  let digest := messageDigest k.digest message
  let maskSeed := shake 64 (k.key ++ random ++ digest)
  (firstAnswer l (SigningKey.ofPrivateKey l k) digest maskSeed (2 ^ 16 / l.columns) 0).map
    (Signature.encode l)

/-- Whether a signature is one of a message under a public key. -/
def verify (l : Level) (key message signature : Bytes) : Bool :=
  match Signature.decode? l signature with
  | none => false
  | some s =>
    let k := PublicKey.decode l key
    let digest := messageDigest (shake 64 key) message
    let c := ntt (challenge l s.challenge)
    let high := k.high.map (·.map fun n => coeff (n * 2 ^ droppedBits))
    let w := (subVec (Lattice.mulVec mul (matrix l k.seed) (s.response.map ntt))
      (high.map fun f => mul c (ntt f))).map inverseNtt
    let commitment := List.zipWith (List.zipWith (useHint l)) s.hints w
    decide (norm s.response < l.gamma₁ - l.beta) &&
      s.challenge == shake l.challengeBytes (digest ++ encodeHigh l commitment)

/-- Key generation: one draw of 32 bytes. -/
def keygen (l : Level) : DrawProgram (Option KeyPair) :=
  .tryFillBytes 32 fun random xi => .done (if random then some (keyPair l xi) else none)

/-- Signing: one draw of 32 bytes. -/
def sign (l : Level) (key message : Bytes) : DrawProgram (Option Bytes) :=
  .tryFillBytes 32 fun random bs => .done (if random then signWith l key message bs else none)

end LatticeSuite.MlDsa
