import LatticeSuite.MlKem.Encoding

/-!
# ML-KEM: the encryption scheme inside

Encryption of 32 bytes under randomness given as a seed. Everything here is
deterministic. Keys are kept in the transform's domain, ciphertexts are
compressed.
-/

namespace LatticeSuite.MlKem.Encryption

open LatticeSuite.Lattice (Poly)

/-- A public key: the vector `A * s + e` in the transform's domain and the
seed of the matrix. -/
structure PublicKey where
  t : List (Poly q)
  seed : Bytes

def PublicKey.encode (k : PublicKey) : Bytes :=
  encodeVector k.t ++ k.seed

/-- Read a public key, if all coefficients are below `q`. -/
def PublicKey.decode? (l : Level) (bs : Bytes) : Option PublicKey :=
  (decodeVector? l.rank bs).map fun t => { t, seed := (bs.drop (384 * l.rank)).take 32 }

/-- The two digests of a byte string of 64 bytes. -/
def split64 (bs : Bytes) : Bytes × Bytes :=
  (bs.take 32, bs.drop 32)

/-- The keys of a seed: the public key, and the secret vector in the
transform's domain. -/
def keygen (l : Level) (d : Bytes) : PublicKey × List (Poly q) :=
  let (seed, noiseSeed) := split64 (Keccak.sha3 64 (d ++ [UInt8.ofNat l.rank]))
  let s := (noiseVector l.eta₁ noiseSeed 0 l.rank).map ntt
  let e := (noiseVector l.eta₁ noiseSeed l.rank l.rank).map ntt
  let t := List.zipWith Poly.add (Lattice.mulVec mul (matrix l seed) s) e
  ({ t, seed }, s)

/-- Encrypt 32 bytes under randomness of 32 bytes. -/
def encrypt (l : Level) (key : PublicKey) (message randomness : Bytes) : Bytes :=
  let y := (noiseVector l.eta₁ randomness 0 l.rank).map ntt
  let e₁ := noiseVector Level.eta₂ randomness l.rank l.rank
  let e₂ := noise Level.eta₂ randomness (2 * l.rank)
  let u := List.zipWith Poly.add
    ((Lattice.mulVec mul (transposedMatrix l key.seed) y).map inverseNtt) e₁
  let v := Poly.add (Poly.add (inverseNtt (Poly.sum (List.zipWith mul key.t y))) e₂)
    (decodeCompressed 1 message)
  u.flatMap (encodeCompressed l.du) ++ encodeCompressed l.dv v

/-- Decrypt a ciphertext with the secret vector. -/
def decrypt (l : Level) (s : List (Poly q)) (ciphertext : Bytes) : Bytes :=
  let width := 32 * l.du
  let u := (List.range l.rank).map fun i =>
    decodeCompressed l.du ((ciphertext.drop (width * i)).take width)
  let v := decodeCompressed l.dv (ciphertext.drop (width * l.rank))
  let w := Poly.sub v (inverseNtt (Poly.sum (List.zipWith mul s (u.map ntt))))
  encodeCompressed 1 w

end LatticeSuite.MlKem.Encryption
