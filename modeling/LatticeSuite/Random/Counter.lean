import LatticeSuite.Bytes

/-!
# Counters of many bytes

The DRBGs count in byte strings far longer than a machine word, most
significant byte first and modulo the number of values that fit. A carry runs
from the end of the string towards its front.
-/

namespace LatticeSuite.Bytes

/-- Add one, and say whether a carry leaves at the front. -/
def incrementCarry : Bytes → Bytes × Bool
  | [] => ([], true)
  | b :: bs =>
    let (bs, carry) := incrementCarry bs
    if carry then ((b + 1) :: bs, b + 1 == 0) else (b :: bs, false)

/-- Add one to a counter, back to zero after its greatest value. -/
def increment (counter : Bytes) : Bytes :=
  counter.incrementCarry.1

/-- Add two numbers and a carry, least significant byte first, keeping the
length of the first. -/
def addFrom : (a b : Bytes) → (carry : Nat) → Bytes
  | [], _, _ => []
  | x :: xs, ys, carry =>
    let sum := x.toNat + (ys.headD 0).toNat + carry
    UInt8.ofNat sum :: addFrom xs ys.tail (sum / 256)

/-- Add a number to a counter, both with their last bytes in line. -/
def addInto (counter addend : Bytes) : Bytes :=
  (addFrom counter.reverse addend.reverse 0).reverse

@[simp] theorem length_increment (counter : Bytes) :
    counter.increment.length = counter.length := by
  unfold increment
  induction counter with
  | nil => rfl
  | cons b bs ih =>
    simp only [incrementCarry]
    split <;> simp [ih]

@[simp] theorem length_addFrom (a b : Bytes) (carry : Nat) :
    (addFrom a b carry).length = a.length := by
  induction a generalizing b carry with
  | nil => rfl
  | cons x xs ih => simp [addFrom, ih]

@[simp] theorem length_addInto (counter addend : Bytes) :
    (addInto counter addend).length = counter.length := by
  simp [addInto]

end LatticeSuite.Bytes
