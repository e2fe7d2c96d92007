import LatticeSuite.Digest.Keccak
import LatticeSuite.MlDsa.Rounding

/-!
# ML-DSA: sampling

The matrix is drawn by rejection from three bytes per candidate, the secrets
from half a byte per candidate. A challenge has `tau` coefficients of one or
minus one at places drawn by rejection; their signs are the first 64 bits of
its stream. The mask of a signature is read from its stream without
rejection.
-/

namespace LatticeSuite.MlDsa

open LatticeSuite.Lattice (Poly)
open Keccak (Sponge)

/-- The candidates below `q` in a byte string, one from each three bytes, of
which 23 bits count. -/
def candidates : Bytes → List Coeff
  | b₀ :: b₁ :: b₂ :: rest =>
    let n := b₀.toNat + 256 * b₁.toNat + 65536 * (b₂.toNat % 128)
    if h : n < q then ⟨n, h⟩ :: candidates rest else candidates rest
  | _ => []

/-- A stream's candidates, until there are enough for a polynomial. -/
def sample (parse : Bytes → List Coeff) (stream : Sponge) : Poly q :=
  Poly.ofList (stream.feed (fun acc block => acc ++ parse block)
    (fun acc => Lattice.degree ≤ acc.length) Sponge.blockLimit [])

/-- The matrix of a seed, by rows. -/
def matrix (l : Level) (seed : Bytes) : List (List (Poly q)) :=
  (List.range l.rows).map fun r => (List.range l.columns).map fun s =>
    sample candidates (Keccak.shake128 (seed ++ [UInt8.ofNat s, UInt8.ofNat r]))

/-- The secret coefficient of half a byte, if it gives one. -/
def ofNibble? (l : Level) (n : Nat) : Option Coeff :=
  match l with
  | .dilithium2 | .dilithium5 => if n < 15 then some (2 - coeff (n % 5)) else none
  | .dilithium3 => if n < 9 then some (4 - coeff n) else none

/-- The secret coefficients in a byte string, low halves first. -/
def smallCandidates (l : Level) (bs : Bytes) : List Coeff :=
  bs.flatMap fun b => [b.toNat % 16, b.toNat / 16].filterMap (ofNibble? l)

/-- The secret polynomials of a seed for `count` indices from `first` on. -/
def secretVector (l : Level) (seed : Bytes) (first count : Nat) : List (Poly q) :=
  (List.range' first count).map fun i =>
    sample (smallCandidates l) (Keccak.shake256 (seed ++ Bytes.toLE 2 i))

/-- A polynomial of coefficients from `b` downwards, `width` bits each. -/
def unpackBelow (b width : Nat) (bs : Bytes) : Poly q :=
  (Lattice.unpack width Lattice.degree bs).map fun n => coeff b - coeff n

/-- The mask of a seed and a counter. -/
def mask (l : Level) (seed : Bytes) (counter : Nat) : List (Poly q) :=
  (List.range l.columns).map fun r =>
    let stream := Keccak.shake256 (seed ++ Bytes.toLE 2 (counter + r))
    unpackBelow l.gamma₁ (l.gammaBits + 1) (stream.squeeze (32 * (l.gammaBits + 1)))

/-- A challenge in the making: its coefficients so far and the place that is
filled next. -/
structure Ball where
  coefficients : Array Coeff
  place : Nat

/-- Use a byte of the stream. A byte beyond the place to be filled is skipped;
any other is a place whose coefficient moves there and makes room for a one
or minus one. -/
def Ball.step (l : Level) (signs : Nat) (s : Ball) (b : UInt8) : Ball :=
  if s.place < Lattice.degree ∧ b.toNat ≤ s.place then
    let moved := s.coefficients.setIfInBounds s.place (s.coefficients.getD b.toNat 0)
    let one : Coeff := if signs.testBit (s.place + l.tau - Lattice.degree) then -1 else 1
    { coefficients := moved.setIfInBounds b.toNat one, place := s.place + 1 }
  else s

/-- The challenge of a seed. -/
def challenge (l : Level) (seed : Bytes) : Poly q :=
  let (block, stream) := (Keccak.shake256 seed).next
  let signs := Bytes.ofLE (block.take 8)
  let start : Ball :=
    { coefficients := Array.replicate Lattice.degree 0, place := Lattice.degree - l.tau }
  let ball := stream.feed (fun s block => block.foldl (Ball.step l signs) s)
    (fun s => Lattice.degree ≤ s.place) Sponge.blockLimit
    ((block.drop 8).foldl (Ball.step l signs) start)
  ball.coefficients.toList

end LatticeSuite.MlDsa
