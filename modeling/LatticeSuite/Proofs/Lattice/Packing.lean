import LatticeSuite.Lattice.Packing
import Mathlib.Tactic.Ring

/-!
# Packed numbers are read back

Packing goes through one large number, whose digits are the numbers that are packed
in one base and the bytes that come out in another.

> Numbers of few enough bits are unpacked as they were packed (`unpack_pack`), and
> bytes that hold a whole number of them are packed as they were unpacked
> (`pack_unpack`).

Both are the same two facts, once for each base: the digits of a number that was
made of digits, and the number made of a number's digits.
-/

namespace LatticeSuite

namespace Bytes

theorem ofLE_cons (b : UInt8) (bs : Bytes) : ofLE (b :: bs) = ofLE bs * 256 + b.toNat :=
  rfl

theorem ofLE_lt (bs : Bytes) : ofLE bs < 256 ^ bs.length := by
  induction bs with
  | nil => decide
  | cons b bs ih =>
    have hb := b.toNat_lt
    rw [ofLE_cons, List.length_cons, Nat.pow_succ]
    omega

theorem ofLE_toLE (w n : Nat) : ofLE (toLE w n) = n % 256 ^ w := by
  induction w generalizing n with
  | zero => exact (Nat.mod_one n).symm
  | succ w ih =>
    have hsplit : n % 256 ^ (w + 1) = n % 256 + 256 * (n / 256 % 256 ^ w) := by
      rw [Nat.pow_succ', Nat.mod_mul]
    rw [toLE, ofLE_cons, ih, UInt8.toNat_ofNat', hsplit]
    show n / 256 % 256 ^ w * 256 + n % 256 = _
    ring

theorem toLE_ofLE (bs : Bytes) : toLE bs.length (ofLE bs) = bs := by
  induction bs with
  | nil => rfl
  | cons b bs ih =>
    have hb := b.toNat_lt
    have hrest : (ofLE bs * 256 + b.toNat) / 256 = ofLE bs := by omega
    have hfirst : UInt8.ofNat (ofLE bs * 256 + b.toNat) = b := by
      rw [← UInt8.toNat_inj, UInt8.toNat_ofNat']
      omega
    rw [List.length_cons, ofLE_cons, toLE, hrest, hfirst, ih]

end Bytes

namespace Lattice

theorem ofDigits_cons (width d : Nat) (digits : List Nat) :
    ofDigits width (d :: digits) = ofDigits width digits * 2 ^ width + d :=
  rfl

theorem ofDigits_lt {width : Nat} {digits : List Nat} (h : ∀ d ∈ digits, d < 2 ^ width) :
    ofDigits width digits < 2 ^ (width * digits.length) := by
  induction digits with
  | nil => exact Nat.two_pow_pos _
  | cons d digits ih =>
    obtain ⟨hd, hdigits⟩ := List.forall_mem_cons.mp h
    have hnext := Nat.mul_le_mul_right (2 ^ width) (Nat.succ_le_of_lt (ih hdigits))
    rw [Nat.succ_mul] at hnext
    rw [ofDigits_cons, List.length_cons, Nat.mul_succ, Nat.pow_add]
    omega

theorem toDigits_ofDigits {width : Nat} {digits : List Nat} (h : ∀ d ∈ digits, d < 2 ^ width) :
    toDigits width digits.length (ofDigits width digits) = digits := by
  induction digits with
  | nil => rfl
  | cons d digits ih =>
    obtain ⟨hd, hdigits⟩ := List.forall_mem_cons.mp h
    have hrest : (ofDigits width digits * 2 ^ width + d) / 2 ^ width = ofDigits width digits := by
      rw [Nat.mul_comm, Nat.mul_add_div (Nat.two_pow_pos width), Nat.div_eq_of_lt hd, Nat.add_zero]
    have hfirst : (ofDigits width digits * 2 ^ width + d) % 2 ^ width = d := by
      rw [Nat.mul_comm, Nat.mul_add_mod, Nat.mod_eq_of_lt hd]
    rw [List.length_cons, ofDigits_cons, toDigits, hrest, hfirst, ih hdigits]

theorem ofDigits_toDigits (width count n : Nat) :
    ofDigits width (toDigits width count n) = n % 2 ^ (width * count) := by
  induction count generalizing n with
  | zero => exact (Nat.mod_one n).symm
  | succ count ih =>
    rw [toDigits, ofDigits_cons, ih, Nat.mul_succ, Nat.add_comm (width * count), Nat.pow_add,
      Nat.mod_mul]
    ring

theorem lt_of_mem_toDigits {width count n d : Nat} (h : d ∈ toDigits width count n) :
    d < 2 ^ width := by
  induction count generalizing n with
  | zero => exact absurd h (by simp [toDigits])
  | succ count ih =>
    rcases List.mem_cons.mp h with rfl | hrest
    · exact Nat.mod_lt _ (Nat.two_pow_pos width)
    · exact ih hrest

/-- **Packed numbers are read back.** -/
theorem unpack_pack {width : Nat} {numbers : List Nat} (h : ∀ d ∈ numbers, d < 2 ^ width) :
    unpack width numbers.length (pack width numbers) = numbers := by
  have hfit : ofDigits width numbers < 256 ^ ((width * numbers.length + 7) / 8) := by
    refine (ofDigits_lt h).trans_le ?_
    rw [show 256 = 2 ^ 8 from rfl, ← Nat.pow_mul]
    exact Nat.pow_le_pow_right (by decide) (by omega)
  rw [unpack, pack, Bytes.ofLE_toLE, Nat.mod_eq_of_lt hfit, toDigits_ofDigits h]

/-- **Unpacked bytes are written back**, if the numbers take up all of their bits. -/
theorem pack_unpack {width count : Nat} {bs : Bytes} (h : 8 * bs.length = width * count) :
    pack width (unpack width count bs) = bs := by
  have hfit : Bytes.ofLE bs < 2 ^ (width * count) := by
    have hlt := Bytes.ofLE_lt bs
    rwa [show 256 = 2 ^ 8 from rfl, ← Nat.pow_mul, h] at hlt
  have hlength : (width * count + 7) / 8 = bs.length := by omega
  rw [pack, unpack, length_toDigits, ofDigits_toDigits, Nat.mod_eq_of_lt hfit, hlength,
    Bytes.toLE_ofLE]

end Lattice

end LatticeSuite
