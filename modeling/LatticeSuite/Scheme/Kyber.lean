import LatticeSuite.MlKem.Kem
import LatticeSuite.Scheme.Backend
import LatticeSuite.Scheme.Config

/-!
# The Kyber backend

Key encapsulation by ML-KEM, whose three levels are the parameter sets 0, 1
and 2. Keys are checked before anything else is looked at: a key of the wrong
length or without a meaning is an invalid key. Whatever is wrong with a
ciphertext is an unspecific failure.
-/

namespace LatticeSuite.Kyber

open MlKem (Level PrivateKey)

def parameterSet (l : Level) : ParameterSet :=
  { name := l.name, publicKeyBytes := l.publicKeyBytes, privateKeyBytes := l.privateKeyBytes,
    outputBytes := l.ciphertextBytes }

def descriptor : SchemeDescriptor :=
  { id := .kemKyber
    capabilities := .kem
    parameterSets := Level.all.map parameterSet
    defaultHash := .sha3_256
    defaultReduction := .barrett }

def publicKey? (l : Level) (bs : Bytes) : Option MlKem.Encryption.PublicKey :=
  if bs.length = l.publicKeyBytes then MlKem.Encryption.PublicKey.decode? l bs else none

def privateKey? (l : Level) (bs : Bytes) : Option PrivateKey :=
  if bs.length = l.privateKeyBytes then PrivateKey.decode? l bs else none

def encapsulate (l : Level) (publicKey : Bytes) (supply : Supply) :
    Except SchemeError Encapsulation × Supply :=
  match publicKey? l publicKey with
  | none => (.error .invalidKey, supply)
  | some key =>
    let (r, supply) := (MlKem.encapsulate l key (MlKem.keyDigest publicKey)).drive supply
    (r.map fun (ciphertext, secret) => { ciphertext, secret }, supply)

def decapsulate (l : Level) (privateKey ciphertext : Bytes) : Except SchemeError Bytes :=
  match privateKey? l privateKey with
  | none => .error .invalidKey
  | some key =>
    if ciphertext.length ≠ l.ciphertextBytes then .error .failed
    else
      match MlKem.decapsulate? l key ciphertext with
      | some secret => .ok secret
      | none => .error .failed

def level (config : SchemeConfig) : Except SchemeError Level :=
  match Level.ofIndex? config.paramSet with
  | some l => .ok l
  | none => .error .failed

def backend (σ : Type) (l : Level) : Backend σ :=
  { id := .kemKyber
    keygen := .ofSupply (MlKem.keygen l).drive
    encapsulate := fun key => .ofSupply (encapsulate l key)
    decapsulate := fun key ciphertext => .ofResult (decapsulate l key ciphertext) }

end LatticeSuite.Kyber
