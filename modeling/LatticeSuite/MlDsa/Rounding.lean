import LatticeSuite.MlDsa.Parameters

/-!
# ML-DSA: rounding and hints

A coefficient is split into a high part and a small remainder, once by a power
of two for keys and once by `2 * gamma₂` for signatures. A hint tells for each
coefficient whether adding a small number changed its high part, and with it
the high part of the sum is found from the other summand alone.
-/

namespace LatticeSuite.MlDsa

open LatticeSuite.Lattice (Poly)

def coeff (n : Nat) : Coeff := Fin.ofNat q n

/-- The remainder of a number modulo `m` that is nearest to zero. -/
def centredMod (n m : Nat) : Int :=
  let r := n % m
  if 2 * r ≤ m then (r : Int) else (r : Int) - m

/-- The high part of a coefficient, with `droppedBits` bits dropped. -/
def keyHigh (x : Coeff) : Nat :=
  (x.val + 2 ^ (droppedBits - 1) - 1) / 2 ^ droppedBits

/-- What the high part of a key coefficient leaves. -/
def keyLow (x : Coeff) : Coeff :=
  x - coeff (keyHigh x * 2 ^ droppedBits)

/-- The high part of a coefficient and the remainder. The topmost high part
counts as zero, since it lies next to it modulo `q`. -/
def decompose (l : Level) (x : Coeff) : Nat × Int :=
  let low := centredMod x.val (2 * l.gamma₂)
  let high := ((x.val : Int) - low).toNat
  if high = q - 1 then (0, low - 1) else (high / (2 * l.gamma₂), low)

def high (l : Level) (x : Coeff) : Nat := (decompose l x).1

/-- The distance of a coefficient from its high part. -/
def lowMagnitude (l : Level) (x : Coeff) : Nat := (decompose l x).2.natAbs

/-- Whether adding `z` changes the high part of a coefficient. -/
def makeHint (l : Level) (z x : Coeff) : Bool :=
  high l x != high l (x + z)

/-- The high part that a hint points to. -/
def useHint (l : Level) (hint : Bool) (x : Coeff) : Nat :=
  let (h, low) := decompose l x
  if !hint then h
  else if 0 < low then (h + 1) % l.highParts
  else (h + l.highParts - 1) % l.highParts

/-- The high parts of a vector. -/
def highVec (l : Level) (v : List (Poly q)) : List (List Nat) :=
  v.map (·.map (high l))

/-- The greatest distance of a coefficient of a vector from its high part. -/
def lowNorm (l : Level) (v : List (Poly q)) : Nat :=
  v.foldl (fun n f => f.foldl (fun n x => max n (lowMagnitude l x)) n) 0

end LatticeSuite.MlDsa
