import LatticeSuite.MlDsa.Sampling

/-!
# ML-DSA: the written forms

Keys and signatures are polynomials with a fixed number of bits per
coefficient behind a few digests and seeds. A coefficient near zero is
written as its distance below an upper bound, and read back in the same way:
whatever the bits are, they spell a coefficient.

Hints are written as the places of the ones, polynomial by polynomial, and
the number of places used after each polynomial. The places must ascend and
the unused ones be zero, so that a hint has one written form.
-/

namespace LatticeSuite.MlDsa

open LatticeSuite.Lattice (Poly)

attribute [local instance (high)] Zero.ofOfNat0

/-- A polynomial with `width` bits per coefficient, written as distances below
`b`. -/
def packBelow (b width : Nat) (f : Poly q) : Bytes :=
  Lattice.pack width (f.map fun x => (coeff b - x).val)

/-- Cut `count` pieces of `width` bytes from a byte string. -/
def pieces (width count : Nat) (bs : Bytes) : List Bytes :=
  (List.range count).map fun i => (bs.drop (width * i)).take width

/-! ## Keys -/

def encodePublicKey (seed : Bytes) (high : List (List Nat)) : Bytes :=
  seed ++ high.flatMap (Lattice.pack 10)

/-- A public key: the seed of the matrix and the high parts of the vector. -/
structure PublicKey where
  seed : Bytes
  high : List (List Nat)

def PublicKey.decode (l : Level) (bs : Bytes) : PublicKey :=
  { seed := bs.take 32
    high := (pieces 320 l.rows (bs.drop 32)).map (Lattice.unpack 10 Lattice.degree) }

structure PrivateKey where
  /-- The seed of the matrix. -/
  seed : Bytes
  /-- The key that masks are derived from. -/
  key : Bytes
  /-- The digest of the public key. -/
  digest : Bytes
  s₁ : List (Poly q)
  s₂ : List (Poly q)
  /-- The low parts of the public vector. -/
  t₀ : List (Poly q)

def PrivateKey.encode (l : Level) (k : PrivateKey) : Bytes :=
  k.seed ++ k.key ++ k.digest ++
    k.s₁.flatMap (packBelow l.eta l.etaBits) ++ k.s₂.flatMap (packBelow l.eta l.etaBits) ++
    k.t₀.flatMap (packBelow (2 ^ (droppedBits - 1)) droppedBits)

def PrivateKey.decode (l : Level) (bs : Bytes) : PrivateKey :=
  let width := 32 * l.etaBits
  let small := fun bs => unpackBelow l.eta l.etaBits bs
  let rest := bs.drop 128
  let rest₂ := rest.drop (width * l.columns)
  { seed := bs.take 32
    key := (bs.drop 32).take 32
    digest := (bs.drop 64).take 64
    s₁ := (pieces width l.columns rest).map small
    s₂ := (pieces width l.rows rest₂).map small
    t₀ := (pieces 416 l.rows (rest₂.drop (width * l.rows))).map
      (unpackBelow (2 ^ (droppedBits - 1)) droppedBits) }

/-! ## Hints -/

/-- The places of the ones in a polynomial of hints. -/
def hintPlaces (f : List Bool) : List Nat :=
  (f.zipIdx.filter (·.1)).map (·.2)

/-- The number of ones in a vector of hints. -/
def hintCount (hints : List (List Bool)) : Nat :=
  (hints.map fun f => (hintPlaces f).length).sum

/-- The running totals of a list of numbers. -/
def totals : (start : Nat) → List Nat → List Nat
  | _, [] => []
  | n, k :: ks => (n + k) :: totals (n + k) ks

/-- The written form of a vector of hints. -/
def encodeHints (l : Level) (hints : List (List Bool)) : Bytes :=
  let places := hints.flatMap hintPlaces
  let ends := totals 0 (hints.map fun f => (hintPlaces f).length)
  (places ++ List.replicate (l.omega - places.length) 0 ++ ends).map UInt8.ofNat

/-- Whether every number is greater than the one before it. -/
def ascending : Bytes → Bool
  | a :: b :: rest => decide (a < b) && ascending (b :: rest)
  | _ => true

/-- Read the polynomials of a vector of hints. The places of a polynomial end
where `ends` says, and `places` are those from `start` on. -/
def readHints (omega : Nat) : (start : Nat) → (places : Bytes) → (ends : Bytes) →
    Option (List (List Bool))
  | _, places, [] => if places.all (· == 0) then some [] else none
  | start, places, e :: ends =>
    if e.toNat < start ∨ omega < e.toNat then none
    else
      let mine := places.take (e.toNat - start)
      if !ascending mine then none
      else
        (readHints omega e.toNat (places.drop (e.toNat - start)) ends).map fun more =>
          ((List.range Lattice.degree).map fun i => mine.contains (UInt8.ofNat i)) :: more

/-- Read a vector of hints. -/
def decodeHints? (l : Level) (bs : Bytes) : Option (List (List Bool)) :=
  readHints l.omega 0 (bs.take l.omega) ((bs.drop l.omega).take l.rows)

/-! ## Signatures -/

structure Signature where
  /-- The seed of the challenge. -/
  challenge : Bytes
  response : List (Poly q)
  hints : List (List Bool)

def Signature.encode (l : Level) (s : Signature) : Bytes :=
  s.challenge ++ s.response.flatMap (packBelow l.gamma₁ (l.gammaBits + 1)) ++
    encodeHints l s.hints

/-- Read a signature, if its hints are well formed. -/
def Signature.decode? (l : Level) (bs : Bytes) : Option Signature :=
  let width := 32 * (l.gammaBits + 1)
  let rest := bs.drop l.challengeBytes
  (decodeHints? l (rest.drop (width * l.columns))).map fun hints =>
    { challenge := bs.take l.challengeBytes
      response := (pieces width l.columns rest).map (unpackBelow l.gamma₁ (l.gammaBits + 1))
      hints }

/-- The written form of a vector of high parts. -/
def encodeHigh (l : Level) (v : List (List Nat)) : Bytes :=
  v.flatMap (Lattice.pack l.highBits)

end LatticeSuite.MlDsa
