import LatticeSuite.Random.Seed
import LatticeSuite.Random.Words

/-!
# KISS with 64-bit words

The sum of three generators: multiply-with-carry, xorshift and a linear
congruence. The xorshift state must not be zero, since zero is a cycle of its
own; a seeding that would make it zero takes the standard value instead.
-/

namespace LatticeSuite

/-- The state of the three generators. -/
structure Kiss64 where
  /-- Multiply-with-carry. -/
  x : UInt64
  /-- The carry of `x`. -/
  carry : UInt64
  /-- Xorshift. -/
  y : UInt64
  /-- Linear congruence. -/
  z : UInt64
  deriving DecidableEq

namespace Kiss64

/-- The standard xorshift state. -/
def standardY : UInt64 := 362436362436362436

/-- The standard states with a seed added to them. -/
def new (seed : Bytes) : Kiss64 :=
  match Seed.addTo [1234567890987654321, 123456123456123456, standardY, 1066149217761810] seed with
  | [x, carry, y, z] => { x, carry, y := if y = 0 then standardY else y, z }
  | _ => { x := 0, carry := 0, y := standardY, z := 0 }

/-- A step of multiply-with-carry: the low and the high word of
`(2 ^ 58 + 1) * x + carry`. A carry out of `t` is not counted. -/
def multiply (x carry : UInt64) : UInt64 × UInt64 :=
  let t := (x <<< 58) + carry
  let sum := x + t
  (sum, (x >>> 6) + (if sum < t then 1 else 0))

/-- A step of xorshift. -/
def shift (y : UInt64) : UInt64 :=
  let y := y ^^^ (y <<< 13)
  let y := y ^^^ (y >>> 17)
  y ^^^ (y <<< 43)

/-- A step of the linear congruence. -/
def congruence (z : UInt64) : UInt64 :=
  z * 6906969069 + 1234567

/-- A step of all three. -/
def step (k : Kiss64) : Kiss64 :=
  let (x, carry) := multiply k.x k.carry
  { x, carry, y := shift k.y, z := congruence k.z }

/-- The next word. -/
def next (k : Kiss64) : UInt64 × Kiss64 :=
  let k := k.step
  (k.x + k.y + k.z, k)

def generate (k : Kiss64) (n : Nat) : Bytes × Kiss64 :=
  Words.fill next n k

/-- A fresh state with the old first and last components added. -/
def reseed (k : Kiss64) (entropy : Bytes) : Kiss64 :=
  let fresh := new entropy
  { fresh with x := fresh.x ^^^ k.x, z := fresh.z ^^^ k.z }

end Kiss64

end LatticeSuite
