import LatticeSuite.Digest.Keccak
import LatticeSuite.Lattice.Packing
import LatticeSuite.MlKem.Parameters

/-!
# ML-KEM: sampling

The matrix is made of transforms with uniform entries, drawn from a stream by
rejection: three bytes hold two candidates of twelve bits. Secrets and noise
have small coefficients, each the difference of two bit counts.
-/

namespace LatticeSuite.MlKem

open LatticeSuite.Lattice (Poly)
open Keccak (Sponge)

/-- The candidates below `q` in a byte string, two from each three bytes. -/
def candidates : Bytes → List Coeff
  | b₀ :: b₁ :: b₂ :: rest =>
    let d₁ := b₀.toNat + 256 * (b₁.toNat % 16)
    let d₂ := b₁.toNat / 16 + 16 * b₂.toNat
    let tail := candidates rest
    let tail := if h : d₂ < q then ⟨d₂, h⟩ :: tail else tail
    if h : d₁ < q then ⟨d₁, h⟩ :: tail else tail
  | _ => []

/-- A transform with uniform entries, from a seed and a place in the matrix. -/
def uniform (seed : Bytes) (row column : Nat) : Poly q :=
  let stream := Keccak.shake128 (seed ++ [UInt8.ofNat column, UInt8.ofNat row])
  Poly.ofList (stream.feed (fun acc block => acc ++ candidates block)
    (fun acc => Lattice.degree ≤ acc.length) Sponge.blockLimit [])

/-- The matrix of a seed, by rows. -/
def matrix (l : Level) (seed : Bytes) : List (List (Poly q)) :=
  (List.range l.rank).map fun i => (List.range l.rank).map fun j => uniform seed i j

/-- The matrix of a seed, by columns. -/
def transposedMatrix (l : Level) (seed : Bytes) : List (List (Poly q)) :=
  (List.range l.rank).map fun i => (List.range l.rank).map fun j => uniform seed j i

/-- The number of ones among the low `bits` bits of a number. -/
def bitCount : (bits : Nat) → (n : Nat) → Nat
  | 0, _ => 0
  | b + 1, n => n % 2 + bitCount b (n / 2)

def coeff (n : Nat) : Coeff := Fin.ofNat q n

/-- A polynomial with coefficients between `-eta` and `eta`, from `64 * eta`
bytes. -/
def centeredBinomial (eta : Nat) (bs : Bytes) : Poly q :=
  (Lattice.unpack (2 * eta) Lattice.degree bs).map fun n =>
    coeff (bitCount eta n) - coeff (bitCount eta (n / 2 ^ eta))

/-- The noise polynomial of a seed and an index. -/
def noise (eta : Nat) (seed : Bytes) (index : Nat) : Poly q :=
  centeredBinomial eta ((Keccak.shake256 (seed ++ [UInt8.ofNat index])).squeeze (64 * eta))

/-- The noise polynomials of a seed for `count` indices from `first` on. -/
def noiseVector (eta : Nat) (seed : Bytes) (first count : Nat) : List (Poly q) :=
  (List.range' first count).map (noise eta seed)

end LatticeSuite.MlKem
