/-!
# Decimals with a fixed number of places

A double is a whole number times a power of two, so its decimals with `n`
places are found by one division of whole numbers, rounded to the nearest
number and, half way between two, to the even one.
`roundDiv_le` and `le_roundDiv` say that the result is at most half a unit
away.
-/

namespace LatticeSuite.Decimal

-- A power of natural numbers is the core library's, whatever else is imported.
attribute [default_instance 20000] instPowNat
attribute [scoped instance (high)] instPowNat

/-- A quotient rounded to the nearest whole number, ties to even. -/
def roundDiv (num den : Nat) : Nat :=
  let quotient := num / den
  let rest := 2 * (num % den)
  if den < rest ∨ (rest = den ∧ quotient % 2 = 1) then quotient + 1 else quotient

theorem roundDiv_le (num den : Nat) : 2 * (den * roundDiv num den) ≤ 2 * num + den := by
  have h := Nat.div_add_mod num den
  have hmul : den * (num / den + 1) = den * (num / den) + den := by
    rw [Nat.mul_add, Nat.mul_one]
  simp only [roundDiv]
  split
  · rw [hmul]
    omega
  · omega

theorem le_roundDiv (num : Nat) {den : Nat} (h : 0 < den) :
    2 * num ≤ 2 * (den * roundDiv num den) + den := by
  have hsum := Nat.div_add_mod num den
  have hmod := Nat.mod_lt num h
  have hmul : den * (num / den + 1) = den * (num / den) + den := by
    rw [Nat.mul_add, Nat.mul_one]
  simp only [roundDiv]
  split
  · rw [hmul]
    omega
  · omega

/-- The digits of a number, with zeros in front up to a width. -/
def padded (width n : Nat) : String :=
  let digits := toString n
  "".pushn '0' (width - digits.length) ++ digits

/-- A number of units of `10 ^ -places`. -/
def ofUnits (places units : Nat) : String :=
  if places = 0 then toString units
  else toString (units / 10 ^ places) ++ "." ++ padded places (units % 10 ^ places)

/-- The whole number and the power of two that a non-negative finite double is
the product of. -/
def parts (x : Float) : Nat × Int :=
  let bits := x.toBits.toNat
  let fraction := bits % 2 ^ 52
  let exponent : Nat := bits / 2 ^ 52 % 2 ^ 11
  if exponent = 0 then (fraction, -1074) else (fraction + 2 ^ 52, Int.ofNat exponent - 1075)

/-- A non-negative finite double with a fixed number of places. -/
def ofFloat (places : Nat) (x : Float) : String :=
  let (m, e) := parts x
  let scaled := m * 10 ^ places
  ofUnits places
    (if 0 ≤ e then scaled * 2 ^ e.toNat else roundDiv scaled (2 ^ e.natAbs))

end LatticeSuite.Decimal
