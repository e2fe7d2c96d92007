/-!
# Polynomials over a prime field

A polynomial of degree below 256 is the list of its coefficients, lowest
first. The same type holds a polynomial's transform, where the entries are
values (or pairs of values) instead of coefficients; sums are the same in
both.
-/

namespace LatticeSuite.Lattice

-- A power of natural numbers is the core library's, whatever else is imported.
attribute [default_instance 20000] instPowNat
attribute [scoped instance (high)] instPowNat

attribute [local instance (high)] Zero.ofOfNat0

/-- The number of coefficients. -/
def degree : Nat := 256

/-- The coefficients of a polynomial modulo `q`, lowest first. -/
abbrev Poly (q : Nat) := List (Fin q)

namespace Poly

variable {q : Nat}

def zero [NeZero q] : Poly q := List.replicate degree 0

def add (f g : Poly q) : Poly q := List.zipWith (· + ·) f g

def sub (f g : Poly q) : Poly q := List.zipWith (· - ·) f g

/-- Every coefficient times a number. -/
def scale (c : Fin q) (f : Poly q) : Poly q := f.map (c * ·)

/-- The sum of a list of polynomials. -/
def sum [NeZero q] (fs : List (Poly q)) : Poly q := fs.foldl add zero

/-- The first `degree` entries of a list, filled up with zeros. -/
def ofList [NeZero q] (cs : List (Fin q)) : Poly q :=
  cs.take degree ++ List.replicate (degree - cs.length) 0

@[simp] theorem length_ofList [NeZero q] (cs : List (Fin q)) : (ofList cs).length = degree := by
  simp [ofList]
  omega

end Poly

/-- The distance of a number from zero, modulo `q`. -/
def magnitude {q : Nat} (x : Fin q) : Nat :=
  min x.val (q - x.val)

/-- The greatest distance of a coefficient from zero. -/
def Poly.norm {q : Nat} (f : Poly q) : Nat :=
  f.foldl (fun n x => max n (magnitude x)) 0

/-- The product of a matrix of transforms with a vector of transforms, given
the product of two transforms. -/
def mulVec {q : Nat} [NeZero q] (mul : Poly q → Poly q → Poly q) (matrix : List (List (Poly q)))
    (v : List (Poly q)) : List (Poly q) :=
  matrix.map fun row => Poly.sum (List.zipWith mul row v)

end LatticeSuite.Lattice
