import LatticeSuite.Bytes

/-!
# Bytes as bits

A byte is eight bits, most significant first. Code words are packed into
bytes in that order and the last byte is filled up with zeros, so unpacking
gives the packed bits back with up to seven zeros behind them.
-/

namespace LatticeSuite

/-- The `count` low bits of a number, most significant first. -/
def bitsBE : (count : Nat) → (n : Nat) → List Bool
  | 0, _ => []
  | k + 1, n => n.testBit k :: bitsBE k n

/-- The number with the given bits, most significant first. -/
def ofBitsBE (bits : List Bool) : Nat :=
  bits.foldl (fun n b => 2 * n + b.toNat) 0

@[simp] theorem length_bitsBE (k n : Nat) : (bitsBE k n).length = k := by
  induction k with
  | zero => rfl
  | succ k ih => simp [bitsBE, ih]

namespace Bytes

/-- The bits of a byte string, most significant first within each byte. -/
def toBits (bs : Bytes) : List Bool :=
  bs.flatMap fun b => bitsBE 8 b.toNat

/-- Bits packed into bytes, the last byte filled up with zeros. -/
def ofBits : List Bool → Bytes
  | b₇ :: b₆ :: b₅ :: b₄ :: b₃ :: b₂ :: b₁ :: b₀ :: rest =>
    UInt8.ofNat (ofBitsBE [b₇, b₆, b₅, b₄, b₃, b₂, b₁, b₀]) :: ofBits rest
  | [] => []
  | bits => [UInt8.ofNat (ofBitsBE bits * 2 ^ (8 - bits.length))]

end Bytes

end LatticeSuite
