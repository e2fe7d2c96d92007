import LatticeSuite.Proofs.Bytes
import LatticeSuite.Proofs.Lattice.Packing
import LatticeSuite.Random.Counter

/-!
# Counters count

`increment` and `addInto` go from byte to byte and pass a carry on. On the numbers
that the strings stand for they are addition, modulo the number of values that fit:

> `ofBE_increment`: incrementing adds one.

> `ofBE_addInto`: adding adds, however many bytes the addend has.

The carry that is left at the front is what the modulus takes away. So each law is first
one about the string and its carry, or the digits from the last to the first, where
nothing is lost yet.
-/

namespace LatticeSuite.Bytes

/-- A field of `w` bytes does not see what a modulus takes away. -/
theorem toBE_mod (w n : Nat) : toBE w (n % 256 ^ w) = toBE w n := by
  refine ofBE_inj ?_ ?_
  · rw [length_toBE, length_toBE]
  · rw [ofBE_toBE, ofBE_toBE, Nat.mod_mod]

/-! ## One more -/

theorem toNat_add_one (b : UInt8) :
    (b + 1).toNat + (if b + 1 == 0 then 256 else 0) = b.toNat + 1 := by
  have hlt := b.toNat_lt
  have hsum : (b + 1).toNat = (b.toNat + 1) % 256 := rfl
  have hzero : (b + 1 == 0) = decide ((b + 1).toNat = 0) := by
    rw [Bool.eq_iff_iff, beq_iff_eq, decide_eq_true_iff, ← UInt8.toNat_inj]
    rfl
  rw [hzero, hsum]
  simp only [decide_eq_true_iff]
  split <;> omega

/-- With the carry in front of it nothing is lost. -/
theorem ofBE_incrementCarry (v : Bytes) :
    ofBE v.incrementCarry.1 + (if v.incrementCarry.2 then 256 ^ v.length else 0) = ofBE v + 1 := by
  induction v with
  | nil => rfl
  | cons b bs ih =>
    have hlength : (incrementCarry bs).1.length = bs.length := length_increment bs
    rw [incrementCarry, ofBE_cons, List.length_cons, Nat.pow_succ']
    rcases hrest : incrementCarry bs with ⟨rest, carry⟩
    rw [hrest] at hlength ih
    dsimp only at hlength ih ⊢
    cases carry with
    | false =>
      show ofBE (b :: rest) + 0 = _
      rw [if_neg (by decide)] at ih
      rw [ofBE_cons, hlength]
      omega
    | true =>
      show ofBE ((b + 1) :: rest) + (if b + 1 == 0 then 256 * 256 ^ bs.length else 0) = _
      rw [if_pos rfl] at ih
      have hdigit := congrArg (· * 256 ^ bs.length) (toNat_add_one b)
      simp only [Nat.add_mul, ite_mul, Nat.zero_mul, Nat.one_mul] at hdigit
      rw [ofBE_cons, hlength]
      omega

/-- **Incrementing adds one.** -/
theorem ofBE_increment (v : Bytes) : ofBE v.increment = (ofBE v + 1) % 256 ^ v.length := by
  have hsum := ofBE_incrementCarry v
  have hlt := ofBE_lt v.increment
  rw [length_increment] at hlt
  unfold increment at hlt ⊢
  rw [← hsum]
  split
  · rw [Nat.add_mod_right, Nat.mod_eq_of_lt hlt]
  · rw [Nat.add_zero, Nat.mod_eq_of_lt hlt]

/-- Counting on from the next value is counting from one further on. -/
theorem toBE_increment_add (v : Bytes) (i : Nat) :
    toBE v.length (ofBE v.increment + i) = toBE v.length (ofBE v + (i + 1)) := by
  rw [ofBE_increment, ← toBE_mod, Nat.mod_add_mod, toBE_mod, Nat.add_assoc, Nat.add_comm 1]

theorem increment_eq (v : Bytes) : v.increment = toBE v.length (ofBE v + 1) := by
  have h := toBE_ofBE v.increment
  rwa [length_increment, ← Nat.add_zero (ofBE v.increment), toBE_increment_add, eq_comm] at h

/-! ## Sums -/

theorem ofLE_reverse (bs : Bytes) : ofLE bs.reverse = ofBE bs := by
  rw [ofLE, List.foldr_reverse, ofBE]

theorem ofLE_tail (bs : Bytes) : ofLE bs.tail * 256 + (bs.headD 0).toNat = ofLE bs := by
  cases bs <;> rfl

theorem ofLE_addFrom (a b : Bytes) (carry : Nat) :
    ofLE (addFrom a b carry) = (ofLE a + ofLE b + carry) % 256 ^ a.length := by
  induction a generalizing b carry with
  | nil => exact (Nat.mod_one _).symm
  | cons x xs ih =>
    have hb := ofLE_tail b
    generalize hsum : x.toNat + (b.headD 0).toNat + carry = sum
    -- the sum of the digits is the last digit of the whole, its quotient is carried on
    have hwhole : ofLE (x :: xs) + ofLE b + carry = 256 * (ofLE xs + ofLE b.tail) + sum := by
      rw [ofLE_cons, ← hb, ← hsum]
      ring
    have hsplit : (256 * (ofLE xs + ofLE b.tail) + sum) % 256 ^ (xs.length + 1) =
        sum % 256 + 256 * ((ofLE xs + ofLE b.tail + sum / 256) % 256 ^ xs.length) := by
      rw [Nat.pow_succ', Nat.mod_mul, Nat.mul_add_mod, Nat.mul_add_div (by decide)]
    rw [addFrom, hsum, ofLE_cons, ih, UInt8.toNat_ofNat', hwhole, List.length_cons, hsplit,
      Nat.add_comm, Nat.mul_comm]

/-- **Adding into a counter adds.** -/
theorem ofBE_addInto (a b : Bytes) : ofBE (a.addInto b) = (ofBE a + ofBE b) % 256 ^ a.length := by
  rw [addInto, ← ofLE_reverse, List.reverse_reverse, ofLE_addFrom, ofLE_reverse, ofLE_reverse,
    Nat.add_zero, List.length_reverse]

end LatticeSuite.Bytes
