/-!
# Rows of four words

ChaCha20 and Salsa20 mix a square of 32-bit words by columns and then along
diagonals. With the square held as four rows, a mixing step works on whole
rows at once, and the diagonals are the columns of the same square with its
rows turned.
-/

namespace LatticeSuite

/-- Four 32-bit words side by side. -/
structure Quad where
  (x0 x1 x2 x3 : UInt32)
  deriving Inhabited, DecidableEq

namespace Quad

@[inline] def add (a b : Quad) : Quad :=
  ⟨a.x0 + b.x0, a.x1 + b.x1, a.x2 + b.x2, a.x3 + b.x3⟩

@[inline] def xor (a b : Quad) : Quad :=
  ⟨a.x0 ^^^ b.x0, a.x1 ^^^ b.x1, a.x2 ^^^ b.x2, a.x3 ^^^ b.x3⟩

/-- Every word rotated to the left by `n` bits. -/
@[inline] def rotl (a : Quad) (n : UInt32) : Quad :=
  let r (w : UInt32) : UInt32 := (w <<< n) ||| (w >>> (32 - n))
  ⟨r a.x0, r a.x1, r a.x2, r a.x3⟩

/-- The words turned one place to the left. -/
@[inline] def turn1 (a : Quad) : Quad := ⟨a.x1, a.x2, a.x3, a.x0⟩

/-- The words turned two places to the left. -/
@[inline] def turn2 (a : Quad) : Quad := ⟨a.x2, a.x3, a.x0, a.x1⟩

/-- The words turned three places to the left. -/
@[inline] def turn3 (a : Quad) : Quad := ⟨a.x3, a.x0, a.x1, a.x2⟩

end Quad

/-- A square of words, by rows. -/
structure Square where
  (a b c d : Quad)
  deriving Inhabited, DecidableEq

def Square.add (s t : Square) : Square :=
  ⟨s.a.add t.a, s.b.add t.b, s.c.add t.c, s.d.add t.d⟩

/-- A step done `n` times. -/
def Square.iterate (step : Square → Square) : (n : Nat) → Square → Square
  | 0, s => s
  | n + 1, s => Square.iterate step n (step s)

/-- The four words that spell "expand 32-byte k". -/
def expandConstants : Quad :=
  ⟨0x61707865, 0x3320646e, 0x79622d32, 0x6b206574⟩

end LatticeSuite
