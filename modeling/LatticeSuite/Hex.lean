import LatticeSuite.Bytes

/-!
# Byte strings in hexadecimal

Two digits a byte, the high half first. Lower case is written, either case is
read. `decode?_encode` says that what was written is read back.
-/

namespace LatticeSuite.Hex

/-- The digit of a number below sixteen. -/
def digit (n : Nat) : Char :=
  if n < 10 then Char.ofNat (48 + n) else Char.ofNat (87 + n)

/-- The number of a digit. -/
def value? (c : Char) : Option Nat :=
  if '0' ≤ c ∧ c ≤ '9' then some (c.toNat - 48)
  else if 'a' ≤ c ∧ c ≤ 'f' then some (c.toNat - 87)
  else if 'A' ≤ c ∧ c ≤ 'F' then some (c.toNat - 55)
  else none

def digits (bs : Bytes) : List Char :=
  bs.flatMap fun b => [digit (b.toNat / 16), digit (b.toNat % 16)]

def encode (bs : Bytes) : String :=
  String.ofList (digits bs)

/-- Read digits, in front of the reversed `acc`. -/
def read? : List Char → (acc : Bytes) → Option Bytes
  | [], acc => some acc.reverse
  | [_], _ => none
  | a :: b :: cs, acc =>
    match value? a, value? b with
    | some x, some y => read? cs (UInt8.ofNat (16 * x + y) :: acc)
    | _, _ => none

def decode? (s : String) : Option Bytes :=
  read? s.toList []

theorem value?_digit (n : Nat) (h : n < 16) : value? (digit n) = some n := by
  revert n
  decide

theorem read?_digits (bs acc : Bytes) : read? (digits bs) acc = some (acc.reverse ++ bs) := by
  induction bs generalizing acc with
  | nil => simp [digits, read?]
  | cons b bs ih =>
    have hb := b.toNat_lt
    have high : b.toNat / 16 < 16 := by omega
    have low : b.toNat % 16 < 16 := by omega
    have whole : 16 * (b.toNat / 16) + b.toNat % 16 = b.toNat := by omega
    simp only [digits] at ih
    simp [digits, read?, value?_digit, high, low, whole, ih]

/-- What was written is read back. -/
theorem decode?_encode (bs : Bytes) : decode? (encode bs) = some bs := by
  simp [decode?, encode, read?_digits]

end LatticeSuite.Hex
