import LatticeSuite.Cipher.Sealed
import LatticeSuite.Digest.Hkdf
import LatticeSuite.Scheme.Kyber

/-!
# The hybrid encryption backend

A message is sealed under a key that is derived from an encapsulated secret.
The ciphertext is the encapsulation, a random nonce, and the sealed message
with its tag.
-/

namespace LatticeSuite.KyberHybrid

open MlKem (Level)

def nonceBytes : Nat := 12

def keyBytes : Nat := 32

def tagBytes : Nat := 16

/-- The salt of the key derivation. -/
def salt : Bytes := "pqc-engine kyber hybrid".toUTF8.toList

/-- What the derivation is bound to after the encapsulation. -/
def purpose : Bytes := "chacha20poly1305 key".toUTF8.toList

/-- The parameter set of a level: encryption adds the encapsulation, the nonce
and the tag. -/
def parameterSet (l : Level) : ParameterSet :=
  { Kyber.parameterSet l with outputBytes := l.ciphertextBytes + nonceBytes + tagBytes }

def descriptor : SchemeDescriptor :=
  { id := .encKyberHybrid
    capabilities := .encryption
    parameterSets := Level.all.map parameterSet
    defaultHash := .sha3_256
    defaultReduction := .barrett }

/-- The key that a secret and its encapsulation give. -/
def sealingKey (kdf : HashAlgorithm) (secret encapsulation : Bytes) : Except SchemeError Bytes :=
  match kdf.hkdf? salt secret (encapsulation ++ purpose) keyBytes with
  | some key => .ok key
  | none => .error .failed

def encrypt (l : Level) (kdf : HashAlgorithm) (publicKey plaintext : Bytes) (supply : Supply) :
    Except SchemeError Bytes × Supply :=
  match Kyber.encapsulate l publicKey supply with
  | (.error e, supply) => (.error e, supply)
  | (.ok kem, supply) =>
    match sealingKey kdf kem.secret kem.ciphertext with
    | .error e => (.error e, supply)
    | .ok key =>
      match supply.nextBytes nonceBytes with
      | (.error e, supply) => (.error e, supply)
      | (.ok nonce, supply) =>
        (.ok (kem.ciphertext ++ nonce ++ Sealed.encrypt key nonce plaintext), supply)

def decrypt (l : Level) (kdf : HashAlgorithm) (privateKey ciphertext : Bytes) :
    Except SchemeError Bytes :=
  if ciphertext.length < l.ciphertextBytes + nonceBytes + tagBytes then .error .failed
  else
    let encapsulation := ciphertext.take l.ciphertextBytes
    let rest := ciphertext.drop l.ciphertextBytes
    match Kyber.decapsulate l privateKey encapsulation with
    | .error e => .error e
    | .ok secret =>
      match sealingKey kdf secret encapsulation with
      | .error e => .error e
      | .ok key =>
        match Sealed.decrypt? key (rest.take nonceBytes) (rest.drop nonceBytes) with
        | some plaintext => .ok plaintext
        | none => .error .failed

/-- The backend of a level and the digest of its key derivation. -/
def backend (σ : Type) (l : Level) (kdf : HashAlgorithm) : Backend σ :=
  { id := .encKyberHybrid
    keygen := .ofSupply (MlKem.keygen l).drive
    encrypt := fun key plaintext => .ofSupply (encrypt l kdf key plaintext)
    decrypt := fun key ciphertext => .ofResult (decrypt l kdf key ciphertext) }

end LatticeSuite.KyberHybrid
