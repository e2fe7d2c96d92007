import LatticeSuite.Proofs.Random.History
import LatticeSuite.Proofs.Random.Units

/-!
# The two halves of KISS that can go wrong

Xorshift has a cycle that a generator must stay out of, that of zero. A step of it is
three exclusive ors of a word with a shift of itself, and each of them can be undone, bit
after bit from the end where the shift brings in zeros (`injective_xorShiftLeft`,
`injective_xorShiftRight`). So only zero leads to zero, a seeding never starts there, and

> `xorshift_never_reaches_zero`: no history of requests and seedings gets there, nor does
> any of the states that a request goes through.

Multiply-with-carry is a multiplication of the word by `2 ^ 58 + 1`, with what does not
fit carried over to the next step. The product is put together in two additions, and only
the second is asked whether it ran over. What this comes to is `multiply_eq`: the step is
exact, less the carry of the first addition if it has one (`lost`). With a carry that
a step left behind there is exactly one way to have it,

> `all_but_one_carry_is_kept`: the greatest carry of all, above a word that ends in six
> ones.

A seed can lead there (`not_forall_carry_is_kept`).
-/

namespace LatticeSuite.Kiss64

open Generator (Request)

/-! ## Xorshift -/

theorem testBit_xorShiftLeft (y k : UInt64) {i : Nat} (hi : i < 64) :
    (y ^^^ (y <<< k)).toNat.testBit i =
      (y.toNat.testBit i ^^
        (decide (k.toNat % 64 ≤ i) && y.toNat.testBit (i - k.toNat % 64))) := by
  rw [UInt64.toNat_xor, UInt64.toNat_shiftLeft, Nat.testBit_xor, Nat.testBit_mod_two_pow,
    Nat.testBit_shiftLeft, decide_eq_true hi, Bool.true_and]

theorem testBit_xorShiftRight (y k : UInt64) (i : Nat) :
    (y ^^^ (y >>> k)).toNat.testBit i =
      (y.toNat.testBit i ^^ y.toNat.testBit (k.toNat % 64 + i)) := by
  rw [UInt64.toNat_xor, UInt64.toNat_shiftRight, Nat.testBit_xor, Nat.testBit_shiftRight]

theorem testBit_of_le (y : UInt64) {i : Nat} (h : 64 ≤ i) : y.toNat.testBit i = false :=
  Nat.testBit_lt_two_pow (Nat.lt_of_lt_of_le y.toNat_lt (Nat.pow_le_pow_right (by decide) h))

theorem eq_of_testBit {x y : UInt64} (h : ∀ i < 64, x.toNat.testBit i = y.toNat.testBit i) :
    x = y := by
  refine UInt64.toNat.inj (Nat.eq_of_testBit_eq fun i => ?_)
  by_cases hi : i < 64
  · exact h i hi
  · rw [testBit_of_le x (Nat.le_of_not_lt hi), testBit_of_le y (Nat.le_of_not_lt hi)]

/-- The lowest bits are not touched, and each of them tells the one that is `k` above. -/
theorem injective_xorShiftLeft {k : UInt64} (hk : 0 < k.toNat % 64) :
    Function.Injective fun y : UInt64 => y ^^^ (y <<< k) := by
  intro x y hxy
  refine eq_of_testBit fun i => ?_
  induction i using Nat.strongRecOn with
  | ind i ih =>
    intro hi
    have hbit := congrArg (fun w : UInt64 => w.toNat.testBit i) hxy
    dsimp only at hbit
    rw [testBit_xorShiftLeft x k hi, testBit_xorShiftLeft y k hi] at hbit
    by_cases hle : k.toNat % 64 ≤ i
    · rw [ih (i - k.toNat % 64) (by omega) (by omega)] at hbit
      exact Bool.xor_left_inj.mp hbit
    · rwa [decide_eq_false hle, Bool.false_and, Bool.false_and, Bool.xor_false,
        Bool.xor_false] at hbit

/-- The same from the other end. -/
theorem injective_xorShiftRight {k : UInt64} (hk : 0 < k.toNat % 64) :
    Function.Injective fun y : UInt64 => y ^^^ (y >>> k) := by
  intro x y hxy
  -- the bits from `64 - n` up, for every `n`
  have htop : ∀ n i, 64 ≤ n + i → x.toNat.testBit i = y.toNat.testBit i := by
    intro n
    induction n with
    | zero =>
      intro i hi
      rw [Nat.zero_add] at hi
      rw [testBit_of_le x hi, testBit_of_le y hi]
    | succ n ih =>
      intro i hi
      have hbit := congrArg (fun w : UInt64 => w.toNat.testBit i) hxy
      dsimp only at hbit
      rw [testBit_xorShiftRight, testBit_xorShiftRight, ih (k.toNat % 64 + i) (by omega)] at hbit
      exact Bool.xor_left_inj.mp hbit
  exact eq_of_testBit fun i _ => htop 64 i (Nat.le_add_right 64 i)

/-- **No two states become one.** -/
theorem injective_shift : Function.Injective shift := by
  have h₁ : Function.Injective fun y : UInt64 => y ^^^ (y <<< 13) :=
    injective_xorShiftLeft (by decide)
  have h₂ : Function.Injective fun y : UInt64 => y ^^^ (y >>> 17) :=
    injective_xorShiftRight (by decide)
  have h₃ : Function.Injective fun y : UInt64 => y ^^^ (y <<< 43) :=
    injective_xorShiftLeft (by decide)
  exact h₃.comp (h₂.comp h₁)

theorem shift_zero : shift 0 = 0 := by decide

theorem shift_ne_zero {y : UInt64} (h : y ≠ 0) : shift y ≠ 0 := fun hzero =>
  h (injective_shift (hzero.trans shift_zero.symm))

/-! ## Histories -/

theorem snd_generate (k : Kiss64) (n : Nat) : (k.generate n).2 = step^[(n + 7) / 8] k :=
  Words.snd_fill next n k

theorem y_new_ne_zero (seed : Bytes) : (new seed).y ≠ 0 := by
  unfold new
  split
  · dsimp only
    split
    · decide
    · assumption
  · decide

theorem y_iterate_ne_zero {k : Kiss64} (h : k.y ≠ 0) (i : Nat) : (step^[i] k).y ≠ 0 := by
  induction i with
  | zero => exact h
  | succ i ih =>
    rw [Function.iterate_succ_apply']
    exact shift_ne_zero ih

theorem exists_y_ne_zero {k : Kiss64} (h : k.y ≠ 0) (history : List Request) :
    ∃ t : Kiss64, ((Generator.kiss k).serveAll history).2 = .kiss t ∧ t.y ≠ 0 := by
  refine Generator.serveAll_invariant (I := fun g => ∃ t : Kiss64, g = .kiss t ∧ t.y ≠ 0) ?_ ?_
    ⟨k, rfl, h⟩ history
  · rintro g n ⟨t, rfl, ht⟩
    refine ⟨(t.generate n).2, rfl, ?_⟩
    rw [snd_generate]
    exact y_iterate_ne_zero ht _
  · rintro g entropy ⟨t, rfl, -⟩
    exact ⟨t.reseed entropy, rfl, y_new_ne_zero entropy⟩

/-- **The xorshift state is never zero**, whatever the seed and whatever was asked for
since. Zero would stay zero, and nothing else leads to it. -/
theorem xorshift_never_reaches_zero (seed : Bytes) (history : List Request) :
    ∃ k : Kiss64, ((Generator.kiss (new seed)).serveAll history).2 = .kiss k ∧ k.y ≠ 0 ∧
      (∀ n, (k.generate n).2 = step^[(n + 7) / 8] k) ∧ (∀ i, (step^[i] k).y ≠ 0) ∧
      Function.Injective shift ∧ shift 0 = 0 := by
  obtain ⟨k, hk, hy⟩ := exists_y_ne_zero (y_new_ne_zero seed) history
  exact ⟨k, hk, hy, snd_generate k, y_iterate_ne_zero hy, injective_shift, shift_zero⟩

/-! ## Multiply with carry -/

/-- The carry of the first addition, which is not looked at. -/
def lost (x carry : UInt64) : Nat :=
  (x.toNat % 64 * 2 ^ 58 + carry.toNat) / 2 ^ 64

theorem toNat_shiftLeft_fiftyEight (x : UInt64) : (x <<< 58).toNat = x.toNat % 64 * 2 ^ 58 := by
  rw [UInt64.toNat_shiftLeft, Nat.shiftLeft_eq]
  show x.toNat * 2 ^ 58 % (64 * 2 ^ 58) = _
  rw [Nat.mul_mod_mul_right]

/-- The carry of an addition is told by its result. -/
theorem toNat_add_carry (x t : UInt64) :
    (x + t).toNat + 2 ^ 64 * (if x + t < t then 1 else 0) = x.toNat + t.toNat := by
  have hx := x.toNat_lt
  have ht := t.toNat_lt
  have hsum := UInt64.toNat_add x t
  split
  next h =>
    rw [UInt64.lt_iff_toNat_lt] at h
    omega
  next h =>
    rw [UInt64.lt_iff_toNat_lt] at h
    omega

/-- The second addition, with the high word of the shift. -/
theorem toNat_multiply_snd (x carry : UInt64) :
    (multiply x carry).2.toNat =
      x.toNat / 64 + if x + ((x <<< 58) + carry) < (x <<< 58) + carry then 1 else 0 := by
  have hx := x.toNat_lt
  have hhigh : (x >>> 6).toNat = x.toNat / 64 := by
    rw [UInt64.toNat_shiftRight]
    exact Nat.shiftRight_eq_div_pow _ _
  rw [multiply]
  dsimp only
  split <;> rw [UInt64.toNat_add, hhigh]
  · show (x.toNat / 64 + 1) % 2 ^ 64 = _
    omega
  · show (x.toNat / 64 + 0) % 2 ^ 64 = _
    omega

/-- **Every step leaves a carry of at most `2 ^ 58`**, whatever the one before. -/
theorem carry_multiply_le (x carry : UInt64) : (multiply x carry).2.toNat ≤ 2 ^ 58 := by
  have hx := x.toNat_lt
  rw [toNat_multiply_snd]
  split <;> omega

/-- **A step is exact**, less what the first addition carried. -/
theorem multiply_eq (x carry : UInt64) :
    (multiply x carry).1.toNat + 2 ^ 64 * ((multiply x carry).2.toNat + lost x carry) =
      (2 ^ 58 + 1) * x.toNat + carry.toNat := by
  have hsecond := toNat_add_carry x ((x <<< 58) + carry)
  have hfirst : ((x <<< 58) + carry).toNat =
      (x.toNat % 64 * 2 ^ 58 + carry.toNat) % 2 ^ 64 := by
    rw [UInt64.toNat_add, toNat_shiftLeft_fiftyEight]
  have hlow : (multiply x carry).1 = x + ((x <<< 58) + carry) := rfl
  rw [hlow, toNat_multiply_snd, lost]
  omega

/-- The one way to lose a carry that a step can have left. -/
def LosesCarry (k : Kiss64) : Prop :=
  k.carry.toNat = 2 ^ 58 ∧ k.x.toNat % 64 = 63

instance (k : Kiss64) : Decidable k.LosesCarry :=
  inferInstanceAs (Decidable (k.carry.toNat = 2 ^ 58 ∧ k.x.toNat % 64 = 63))

theorem lost_of_losesCarry {k : Kiss64} (h : k.LosesCarry) : lost k.x k.carry = 1 := by
  obtain ⟨hcarry, hx⟩ := h
  rw [lost, hcarry, hx]

theorem lost_of_not_losesCarry {k : Kiss64} (hle : k.carry.toNat ≤ 2 ^ 58) (h : ¬k.LosesCarry) :
    lost k.x k.carry = 0 := by
  unfold LosesCarry at h
  rw [lost]
  omega

/-- **All carries but one are kept.** A step takes the word and its carry to the product, the
carry stays in range, and it is short of one exactly where a word that ends in six ones
meets the greatest carry. -/
theorem all_but_one_carry_is_kept (k : Kiss64) :
    k.next.2.carry.toNat ≤ 2 ^ 58 ∧
      (k.carry.toNat ≤ 2 ^ 58 →
        (k.next.2.x.toNat + 2 ^ 64 * k.next.2.carry.toNat =
            (2 ^ 58 + 1) * k.x.toNat + k.carry.toNat ↔ ¬k.LosesCarry) ∧
          (k.LosesCarry → k.next.2.x.toNat + 2 ^ 64 * (k.next.2.carry.toNat + 1) =
            (2 ^ 58 + 1) * k.x.toNat + k.carry.toNat)) := by
  have hstep : k.next.2.x.toNat + 2 ^ 64 * (k.next.2.carry.toNat + lost k.x k.carry) =
      (2 ^ 58 + 1) * k.x.toNat + k.carry.toNat := multiply_eq k.x k.carry
  refine ⟨carry_multiply_le k.x k.carry, fun hle => ?_⟩
  by_cases h : k.LosesCarry
  · rw [lost_of_losesCarry h] at hstep
    refine ⟨⟨fun hexact => ?_, fun hnot => absurd h hnot⟩, fun _ => hstep⟩
    omega
  · rw [lost_of_not_losesCarry hle h] at hstep
    exact ⟨⟨fun _ => h, fun _ => hstep⟩, fun hloses => absurd hloses h⟩

/-- A seed that starts from the greatest word without a carry. -/
def greatestSeed : Bytes :=
  [0x4e, 0xe3, 0x93, 0x4e, 0x0b, 0xef, 0xdd, 0xee, 0x40, 0xf2, 0xf2, 0xaf, 0xb0, 0x9a, 0xb6, 0x01]

/-- Its first step is exact, the second one loses the carry. -/
theorem all_but_one_carry_is_kept_of_the_greatest_word :
    let k := new greatestSeed
    (k.carry.toNat ≤ 2 ^ 58 ∧ ¬k.LosesCarry ∧ k.next.2.x.toNat + 2 ^ 64 * k.next.2.carry.toNat =
        (2 ^ 58 + 1) * k.x.toNat + k.carry.toNat) ∧
      k.next.2.carry.toNat ≤ 2 ^ 58 ∧ k.next.2.LosesCarry ∧
        k.next.2.next.2.x.toNat + 2 ^ 64 * (k.next.2.next.2.carry.toNat + 1) =
          (2 ^ 58 + 1) * k.next.2.x.toNat + k.next.2.carry.toNat := by
  intro k
  obtain ⟨hcarry, hfirst⟩ := all_but_one_carry_is_kept k
  obtain ⟨-, hsecond⟩ := all_but_one_carry_is_kept k.next.2
  have hle : k.carry.toNat ≤ 2 ^ 58 := by decide
  have hkept : ¬k.LosesCarry := by decide
  have hloses : k.next.2.LosesCarry := by decide
  exact ⟨⟨hle, hkept, (hfirst hle).1.mpr hkept⟩, hcarry, hloses, (hsecond hcarry).2 hloses⟩

/-- Not every step is exact, and a seed leads to one that is not. -/
theorem not_forall_carry_is_kept :
    ¬∀ k : Kiss64, k.carry.toNat ≤ 2 ^ 58 →
      k.next.2.carry.toNat ≤ 2 ^ 58 ∧
        k.next.2.x.toNat + 2 ^ 64 * k.next.2.carry.toNat =
          (2 ^ 58 + 1) * k.x.toNat + k.carry.toNat := by
  intro h
  obtain ⟨-, hexact⟩ := h (new greatestSeed).next.2 (by decide)
  exact absurd hexact (by decide)

end LatticeSuite.Kiss64
