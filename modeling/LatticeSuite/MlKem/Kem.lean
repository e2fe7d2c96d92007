import LatticeSuite.Key
import LatticeSuite.MlKem.Encryption
import LatticeSuite.Random.Draw

/-!
# ML-KEM: key encapsulation

The shared secret is derived from a message of 32 random bytes, which also
fixes the randomness of its encryption. So decapsulation can encrypt the
message again: if the ciphertext differs, it answers with a secret that
depends on nothing but the ciphertext and a part of the private key.

Keys are checked when they are read. A private key holds the public one and
its digest, and both must be right; its own secret vector is only looked at
when it is used.
-/

namespace LatticeSuite.MlKem

open LatticeSuite.Lattice (Poly)

/-- The digest of a public key. -/
def keyDigest (bs : Bytes) : Bytes := Keccak.sha3 32 bs

/-- A private key, taken apart. -/
structure PrivateKey where
  /-- The secret vector as it is written. -/
  secret : Bytes
  publicKey : Encryption.PublicKey
  /-- The digest of the public key. -/
  digest : Bytes
  /-- What a refused ciphertext is answered with is derived from this. -/
  rejection : Bytes

/-- Read a private key, if its public key is one and the digest is its own. -/
def PrivateKey.decode? (l : Level) (bs : Bytes) : Option PrivateKey :=
  let n := 384 * l.rank
  let publicBytes := (bs.drop n).take l.publicKeyBytes
  let rest := bs.drop (n + l.publicKeyBytes)
  match Encryption.PublicKey.decode? l publicBytes with
  | none => none
  | some publicKey =>
    let digest := rest.take 32
    if keyDigest publicBytes = digest then
      some { secret := bs.take n, publicKey, digest, rejection := rest.drop 32 }
    else none

/-- The keys of two seeds of 32 bytes. -/
def keyPair (l : Level) (d z : Bytes) : KeyPair :=
  let (publicKey, s) := Encryption.keygen l d
  let publicKey := publicKey.encode
  { publicKey, privateKey := encodeVector s ++ publicKey ++ keyDigest publicKey ++ z }

/-- The ciphertext and the shared secret of a message of 32 bytes. -/
def encapsulateMessage (l : Level) (key : Encryption.PublicKey) (digest message : Bytes) :
    Bytes × Bytes :=
  let (secret, randomness) := Encryption.split64 (Keccak.sha3 64 (message ++ digest))
  (Encryption.encrypt l key message randomness, secret)

/-- The shared secret of a ciphertext; none if the private key's secret vector
is not one. -/
def decapsulate? (l : Level) (key : PrivateKey) (ciphertext : Bytes) : Option Bytes :=
  (decodeVector? l.rank key.secret).map fun s =>
    let message := Encryption.decrypt l s ciphertext
    let (again, secret) := encapsulateMessage l key.publicKey key.digest message
    if again = ciphertext then secret
    else (Keccak.shake256 (key.rejection ++ ciphertext)).squeeze 32

/-- Key generation: two draws of 32 bytes. -/
def keygen (l : Level) : DrawProgram (Option KeyPair) :=
  .tryFillBytes 32 fun random d =>
    if !random then .done none
    else
      .tryFillBytes 32 fun random z =>
        .done (if random then some (keyPair l d z) else none)

/-- Encapsulation: one draw of 32 bytes. The public key is given as it was
read, together with its digest. -/
def encapsulate (l : Level) (key : Encryption.PublicKey) (digest : Bytes) :
    DrawProgram (Option (Bytes × Bytes)) :=
  .tryFillBytes 32 fun random message =>
    .done (if random then some (encapsulateMessage l key digest message) else none)

end LatticeSuite.MlKem
