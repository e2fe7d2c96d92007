import LatticeSuite.Lattice.Packing
import LatticeSuite.MlKem.Sampling

/-!
# ML-KEM: encoding and compression

A polynomial is written with as many bits per coefficient as its use asks
for. Compression keeps the `d` leading bits of a coefficient and rounds to the
nearest; decompression scales back and rounds up, so it is off by less than
one from the number it stands for. An uncompressed polynomial has twelve bits
per coefficient, more than `q` needs, so reading one must refuse coefficients
from `q` on.
-/

namespace LatticeSuite.MlKem

open LatticeSuite.Lattice (Poly)

/-- The leading `d` bits of a coefficient, rounded. -/
def compress (d : Nat) (x : Coeff) : Nat :=
  (x.val * 2 ^ (d + 1) + q) / (2 * q) % 2 ^ d

/-- The coefficient that `d` leading bits stand for: the first from
`q * y / 2 ^ d` on. -/
def decompress (d : Nat) (y : Nat) : Coeff :=
  coeff ((q * y + 2 ^ d - 1) / 2 ^ d)

/-- A polynomial with `d` bits per coefficient. -/
def encodeCompressed (d : Nat) (f : Poly q) : Bytes :=
  Lattice.pack d (f.map (compress d))

/-- A polynomial from `d` bits per coefficient. -/
def decodeCompressed (d : Nat) (bs : Bytes) : Poly q :=
  (Lattice.unpack d Lattice.degree bs).map (decompress d)

/-- A polynomial with twelve bits per coefficient. -/
def encode (f : Poly q) : Bytes :=
  Lattice.pack 12 (f.map Fin.val)

/-- A polynomial from twelve bits per coefficient, if all are below `q`. -/
def decode? (bs : Bytes) : Option (Poly q) :=
  (Lattice.unpack 12 Lattice.degree bs).mapM fun n => if h : n < q then some ⟨n, h⟩ else none

/-- The polynomials of a vector, each with twelve bits per coefficient. -/
def encodeVector (v : List (Poly q)) : Bytes :=
  v.flatMap encode

/-- A vector from `rank` encoded polynomials, if all coefficients are below `q`. -/
def decodeVector? (rank : Nat) (bs : Bytes) : Option (List (Poly q)) :=
  (List.range rank).mapM fun i => decode? ((bs.drop (384 * i)).take 384)

end LatticeSuite.MlKem
