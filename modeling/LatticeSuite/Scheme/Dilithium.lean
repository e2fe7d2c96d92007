import LatticeSuite.MlDsa.Signing
import LatticeSuite.Scheme.Backend
import LatticeSuite.Scheme.Config

/-!
# The Dilithium backend

Signatures of ML-DSA, whose three levels are the parameter sets 0, 1 and 2. A
signature of the wrong length is not valid, which is no error; a key of the
wrong length is one.
-/

namespace LatticeSuite.Dilithium

open MlDsa (Level)

def parameterSet (l : Level) : ParameterSet :=
  { name := l.name, publicKeyBytes := l.publicKeyBytes, privateKeyBytes := l.privateKeyBytes,
    outputBytes := l.signatureBytes }

def descriptor : SchemeDescriptor :=
  { id := .sigDilithium
    capabilities := .signature
    parameterSets := Level.all.map parameterSet
    defaultHash := .sha3_256
    defaultReduction := .barrett }

/-- Sign with a private key. The length is all that can be wrong with one: each byte string of
the right length can be read, and a coefficient beyond `eta` is taken as it is decoded. -/
def sign (l : Level) (privateKey message : Bytes) (supply : Supply) :
    Except SchemeError Bytes × Supply :=
  if privateKey.length = l.privateKeyBytes then (MlDsa.sign l privateKey message).drive supply
  else (.error .invalidKey, supply)

/-- The verdict on a signature. Each public key of the right length can be read, too. -/
def verify (l : Level) (publicKey message signature : Bytes) : Except SchemeError Bool :=
  if publicKey.length = l.publicKeyBytes then
    .ok (signature.length == l.signatureBytes && MlDsa.verify l publicKey message signature)
  else .error .invalidKey

def level (config : SchemeConfig) : Except SchemeError Level :=
  match Level.ofIndex? config.paramSet with
  | some l => .ok l
  | none => .error .failed

def backend (σ : Type) (l : Level) : Backend σ :=
  { id := .sigDilithium
    keygen := .ofSupply (MlDsa.keygen l).drive
    sign := fun key message => .ofSupply (sign l key message)
    verify := fun key message signature => .ofResult (verify l key message signature) }

end LatticeSuite.Dilithium
