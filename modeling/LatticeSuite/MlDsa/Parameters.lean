import LatticeSuite.Bytes
import LatticeSuite.Lattice.Packing
import LatticeSuite.Lattice.Transform

/-!
# ML-DSA: parameters

Three levels of one scheme over polynomials modulo `X ^ 256 + 1` and 8380417.
The prime has a primitive 512th root of one, so a transform is 256 values and
the product of two transforms is taken value by value.
-/

namespace LatticeSuite.MlDsa

open LatticeSuite.Lattice (Poly)

attribute [local instance (high)] Zero.ofOfNat0

abbrev q : Nat := 8380417

instance : NeZero q := ⟨by decide⟩

abbrev Coeff := Fin q

inductive Level where
  | dilithium2 | dilithium3 | dilithium5
  deriving DecidableEq, Repr

/-- The bits dropped from the public vector. -/
def droppedBits : Nat := 13

namespace Level

def name : Level → String
  | .dilithium2 => "Dilithium2"
  | .dilithium3 => "Dilithium3"
  | .dilithium5 => "Dilithium5"

def ofIndex? (index : UInt32) : Option Level :=
  if index = 0 then some .dilithium2
  else if index = 1 then some .dilithium3
  else if index = 2 then some .dilithium5
  else none

def all : List Level := [.dilithium2, .dilithium3, .dilithium5]

def rows : Level → Nat
  | .dilithium2 => 4
  | .dilithium3 => 6
  | .dilithium5 => 8

def columns : Level → Nat
  | .dilithium2 => 4
  | .dilithium3 => 5
  | .dilithium5 => 7

/-- The bound of secret coefficients. -/
def eta : Level → Nat
  | .dilithium2 | .dilithium5 => 2
  | .dilithium3 => 4

/-- The bits of a secret coefficient. -/
def etaBits : Level → Nat
  | .dilithium2 | .dilithium5 => 3
  | .dilithium3 => 4

/-- The number of non-zero coefficients of a challenge. -/
def tau : Level → Nat
  | .dilithium2 => 39
  | .dilithium3 => 49
  | .dilithium5 => 60

/-- The bytes of a challenge's seed. -/
def challengeBytes : Level → Nat
  | .dilithium2 => 32
  | .dilithium3 => 48
  | .dilithium5 => 64

/-- One less than the bits of a mask coefficient. -/
def gammaBits : Level → Nat
  | .dilithium2 => 17
  | .dilithium3 | .dilithium5 => 19

/-- The bound of mask coefficients. -/
def gamma₁ (l : Level) : Nat := 2 ^ l.gammaBits

/-- The number of high parts of a coefficient. -/
def highParts : Level → Nat
  | .dilithium2 => 44
  | .dilithium3 | .dilithium5 => 16

/-- The bits of a high part. -/
def highBits : Level → Nat
  | .dilithium2 => 6
  | .dilithium3 | .dilithium5 => 4

/-- Half the distance of two high parts. -/
def gamma₂ (l : Level) : Nat := (q - 1) / (2 * l.highParts)

/-- The bound of a challenge times a secret. -/
def beta (l : Level) : Nat := l.tau * l.eta

/-- The greatest number of hints. -/
def omega : Level → Nat
  | .dilithium2 => 80
  | .dilithium3 => 55
  | .dilithium5 => 75

def publicKeyBytes (l : Level) : Nat := 32 + 320 * l.rows

def privateKeyBytes (l : Level) : Nat :=
  128 + 32 * l.etaBits * (l.columns + l.rows) + 416 * l.rows

def signatureBytes (l : Level) : Nat :=
  l.challengeBytes + 32 * (l.gammaBits + 1) * l.columns + l.omega + l.rows

end Level

/-! ## The transform -/

/-- A primitive 512th root of one. -/
def root : Coeff := 1753

def roots : Array Coeff := Lattice.rootTable root 8

def inverseRoots : Array Coeff := Lattice.rootTable (Lattice.power root 511) 8

/-- The transform, eight layers deep. -/
def ntt (f : Poly q) : Poly q := Lattice.forward roots 8 1 f

/-- The polynomial of a transform. The factor is the inverse of `2 ^ 8`. -/
def inverseNtt (f : Poly q) : Poly q := Poly.scale 8347681 (Lattice.inverse inverseRoots 8 1 f)

def mul (f g : Poly q) : Poly q := List.zipWith (· * ·) f g

/-- A polynomial times a challenge, both as transforms, taken back. -/
def mulBack (c : Poly q) (v : List (Poly q)) : List (Poly q) :=
  v.map fun f => inverseNtt (mul c f)

def addVec (u v : List (Poly q)) : List (Poly q) := List.zipWith Poly.add u v

def subVec (u v : List (Poly q)) : List (Poly q) := List.zipWith Poly.sub u v

/-- The greatest distance of a coefficient of a vector from zero. -/
def norm (v : List (Poly q)) : Nat :=
  v.foldl (fun n f => max n (Poly.norm f)) 0

end LatticeSuite.MlDsa
