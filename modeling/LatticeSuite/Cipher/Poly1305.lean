import LatticeSuite.Bytes

/-!
# Poly1305

A message is read as the coefficients of a polynomial modulo the prime
`2 ^ 130 - 5`, and the tag is its value at a secret point plus a secret
number. Written over `Nat` the whole of it is one fold.
-/

namespace LatticeSuite.Poly1305

/-- The prime `2 ^ 130 - 5`. -/
def modulus : Nat := 2 ^ 130 - 5

/-- The bits of the point that the key may set. -/
def clamp (n : Nat) : Nat :=
  n &&& 0x0ffffffc0ffffffc0ffffffc0fffffff

/-- The tag of a message under a one-time key of 32 bytes. Every piece of up
to sixteen bytes is a coefficient with a one behind its last byte. -/
def tag (key message : Bytes) : Bytes :=
  let r := clamp (Bytes.ofLE (key.take 16))
  let s := Bytes.ofLE ((key.drop 16).take 16)
  let value := (Bytes.chunks 16 message).foldl
    (fun acc piece => (acc + Bytes.ofLE (piece ++ [1])) * r % modulus) 0
  Bytes.toLE 16 (value + s)

@[simp] theorem length_tag (key message : Bytes) : (tag key message).length = 16 := by
  simp [tag]

end LatticeSuite.Poly1305
