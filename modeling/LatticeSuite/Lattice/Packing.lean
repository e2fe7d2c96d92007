import LatticeSuite.Bytes

/-!
# Packing numbers of a few bits

A list of numbers below `2 ^ width` is written as one number in base
`2 ^ width`, lowest first, and that number as bytes, lowest first. So packing
and unpacking are two readings of the digits of one number.
-/

namespace LatticeSuite.Lattice

/-- The number whose digits in base `2 ^ width` are given, lowest first. -/
def ofDigits (width : Nat) (digits : List Nat) : Nat :=
  digits.foldr (fun d n => n * 2 ^ width + d) 0

/-- The first `count` digits of a number in base `2 ^ width`, lowest first. -/
def toDigits (width : Nat) : (count : Nat) → (n : Nat) → List Nat
  | 0, _ => []
  | k + 1, n => n % 2 ^ width :: toDigits width k (n / 2 ^ width)

/-- Numbers of `width` bits as bytes. -/
def pack (width : Nat) (numbers : List Nat) : Bytes :=
  Bytes.toLE ((width * numbers.length + 7) / 8) (ofDigits width numbers)

/-- The first `count` numbers of `width` bits in a byte string. -/
def unpack (width count : Nat) (bs : Bytes) : List Nat :=
  toDigits width count (Bytes.ofLE bs)

@[simp] theorem length_toDigits (width count n : Nat) :
    (toDigits width count n).length = count := by
  induction count generalizing n with
  | zero => rfl
  | succ k ih => simp [toDigits, ih]

@[simp] theorem length_unpack (width count : Nat) (bs : Bytes) :
    (unpack width count bs).length = count := by
  simp [unpack]

@[simp] theorem length_pack (width : Nat) (numbers : List Nat) :
    (pack width numbers).length = (width * numbers.length + 7) / 8 := by
  simp [pack]

end LatticeSuite.Lattice
