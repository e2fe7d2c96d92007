import LatticeSuite.Lattice.Transform

/-!
# ML-KEM: parameters

Three levels of one scheme over polynomials modulo `X ^ 256 + 1` and 3329.
They differ in the rank of the matrix, in the width of the noise and in how
much of a ciphertext is kept.
-/

namespace LatticeSuite.MlKem

open LatticeSuite.Lattice (Poly)

attribute [local instance (high)] Zero.ofOfNat0

abbrev q : Nat := 3329

instance : NeZero q := ⟨by decide⟩

abbrev Coeff := Fin q

inductive Level where
  | kyber512 | kyber768 | kyber1024
  deriving DecidableEq, Repr

namespace Level

def name : Level → String
  | .kyber512 => "Kyber512"
  | .kyber768 => "Kyber768"
  | .kyber1024 => "Kyber1024"

def ofIndex? (index : UInt32) : Option Level :=
  if index = 0 then some .kyber512
  else if index = 1 then some .kyber768
  else if index = 2 then some .kyber1024
  else none

def all : List Level := [.kyber512, .kyber768, .kyber1024]

def rank : Level → Nat
  | .kyber512 => 2
  | .kyber768 => 3
  | .kyber1024 => 4

/-- The width of the noise in keys and in the encryption's secret. -/
def eta₁ : Level → Nat
  | .kyber512 => 3
  | .kyber768 | .kyber1024 => 2

/-- The width of the noise added by encryption. -/
def eta₂ : Nat := 2

/-- The bits kept of each coefficient of the ciphertext's vector. -/
def du : Level → Nat
  | .kyber512 | .kyber768 => 10
  | .kyber1024 => 11

/-- The bits kept of each coefficient of the ciphertext's last polynomial. -/
def dv : Level → Nat
  | .kyber512 | .kyber768 => 4
  | .kyber1024 => 5

/-- The length of an encapsulation key. -/
def publicKeyBytes (l : Level) : Nat := 384 * l.rank + 32

def privateKeyBytes (l : Level) : Nat := 768 * l.rank + 96

def ciphertextBytes (l : Level) : Nat := 32 * (l.du * l.rank + l.dv)

end Level

/-! ## The transform -/

/-- A primitive 256th root of one. -/
def root : Coeff := 17

def roots : Array Coeff := Lattice.rootTable root 7

def inverseRoots : Array Coeff := Lattice.rootTable (Lattice.power root 255) 7

/-- The transform, seven layers deep: 128 remainders of degree one. -/
def ntt (f : Poly q) : Poly q := Lattice.forward roots 7 1 f

/-- The polynomial of a transform. The factor is the inverse of `2 ^ 7`. -/
def inverseNtt (f : Poly q) : Poly q := Poly.scale 3303 (Lattice.inverse inverseRoots 7 1 f)

/-- The numbers `g` such that remainder `i` of a transform is modulo
`X ^ 2 - g`. -/
def moduli : List Coeff :=
  (List.range 128).map fun i => Lattice.power root (2 * Lattice.bitReverse 7 i + 1)

/-- The product of two transforms, remainder by remainder. -/
def mulFrom : (moduli : List Coeff) → (f g : Poly q) → Poly q
  | m :: ms, a₀ :: a₁ :: f, b₀ :: b₁ :: g =>
    (a₀ * b₀ + a₁ * b₁ * m) :: (a₀ * b₁ + a₁ * b₀) :: mulFrom ms f g
  | _, _, _ => []

def mul (f g : Poly q) : Poly q := mulFrom moduli f g

end LatticeSuite.MlKem
