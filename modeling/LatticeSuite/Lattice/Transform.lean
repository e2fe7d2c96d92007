import LatticeSuite.Lattice.Poly

/-!
# The number-theoretic transform

A layer of the transform takes a polynomial modulo `X ^ (2n) - z ^ 2` to its
remainders modulo `X ^ n - z` and `X ^ n + z`, and goes on with each of them.
So the transform is a recursion on halves. The root that a block needs is
found by the block's place in the binary tree of all blocks, numbered as in a
heap: the whole is block 1, and block `i` has the blocks `2 * i` and
`2 * i + 1` below it.

`inverse` undoes `forward` layer by layer, but for the factor two that every
layer leaves behind.
-/

namespace LatticeSuite.Lattice

attribute [local instance (high)] Zero.ofOfNat0

/-- The low `bits` bits of a number in reverse order. -/
def bitReverse : (bits : Nat) → (n : Nat) → Nat
  | 0, _ => 0
  | b + 1, n => n % 2 * 2 ^ b + bitReverse b (n / 2)

/-- A power of a number modulo `q`. -/
def power {q : Nat} [NeZero q] (x : Fin q) : (n : Nat) → Fin q
  | 0 => 1
  | n + 1 => x * power x n

/-- The roots of the blocks `0, …, 2 ^ bits - 1`, given a primitive root. -/
def rootTable {q : Nat} [NeZero q] (root : Fin q) (bits : Nat) : Array (Fin q) :=
  ((List.range (2 ^ bits)).map fun i => power root (bitReverse bits i)).toArray

variable {q : Nat} [NeZero q]

/-- The transform of block `i`, `depth` layers down. -/
def forward (roots : Array (Fin q)) : (depth : Nat) → (i : Nat) → Poly q → Poly q
  | 0, _, f => f
  | d + 1, i, f =>
    let low : Poly q := f.take (f.length / 2)
    let high : Poly q := Poly.scale (roots.getD i 0) (f.drop (f.length / 2))
    forward roots d (2 * i) (Poly.add low high) ++ forward roots d (2 * i + 1) (Poly.sub low high)

/-- The polynomial whose transform is given, times `2 ^ depth`. -/
def inverse (inverseRoots : Array (Fin q)) : (depth : Nat) → (i : Nat) → Poly q → Poly q
  | 0, _, f => f
  | d + 1, i, f =>
    let plus := inverse inverseRoots d (2 * i) (f.take (f.length / 2))
    let minus := inverse inverseRoots d (2 * i + 1) (f.drop (f.length / 2))
    Poly.add plus minus ++ Poly.scale (inverseRoots.getD i 0) (Poly.sub plus minus)

end LatticeSuite.Lattice
