import LatticeSuite.Flags.Resolve
import Mathlib.Data.List.Find

/-!
# Flag words, bit by bit

The layout is written in masks and shifts, and what a word says is read off it
by `has` and `Field.read`. Here both are put in terms of the bits of a word:

> `has_eq_testBit`: a mask of one bit asks for that bit, and
> `Field.read_eq_code`: a field is a run of bits, read as a number.

`fieldBits` lists the positions that belong to a field, word by word, and
`checkReserved_eq_ok_iff` says that the check for reserved bits is a check
against this list. Two words that agree on the positions of a mask look the same
through it (`AgreeOn.and_eq`), so whatever is read through it is the same for
both.
-/

namespace LatticeSuite.Flags

/-- The positions of `width` bits from the bit `low` up. -/
def span (low width : Nat) : List Nat :=
  List.range' low width

/-- The number that a word holds in `width` bits from the bit `low` up. -/
def code (word : UInt32) (low width : Nat) : Nat :=
  word.toNat / 2 ^ low % 2 ^ width

/-- The positions that ask for a generator. -/
def generatorPositions : List Nat :=
  [0, 1, 2, 3, 4, 5, 8, 10, 12, 14, 16, 18, 20]

/-- The positions that belong to a field, by word. -/
def fieldBits : (index : Nat) → List Nat
  | 0 => span 0 4 ++ span 4 3 ++ [8] ++ span 9 6 ++ span 16 2 ++ span 18 3 ++ span 21 3 ++
      span 26 5 ++ [31]
  | 1 => generatorPositions ++ span 24 4 ++ [31]
  | 2 => span 0 2 ++ [2, 3, 4, 5]
  | _ => []

/-! ## Words and their bits -/

theorem testBit_eq_false_of_le (word : UInt32) {k : Nat} (h : 32 ≤ k) :
    word.toNat.testBit k = false :=
  Nat.testBit_lt_two_pow
    (Nat.lt_of_lt_of_le (UInt32.toNat_lt word) (Nat.pow_le_pow_right (by decide) h))

theorem lt_of_testBit {word : UInt32} {k : Nat} (h : word.toNat.testBit k = true) : k < 32 := by
  refine Nat.lt_of_not_le fun hle => ?_
  rw [testBit_eq_false_of_le word hle] at h
  exact Bool.false_ne_true h

theorem eq_of_testBit_eq {v w : UInt32} (h : ∀ k, v.toNat.testBit k = w.toNat.testBit k) :
    v = w :=
  UInt32.toNat.inj (Nat.eq_of_testBit_eq h)

theorem testBit_and (v w : UInt32) (k : Nat) :
    (v &&& w).toNat.testBit k = (v.toNat.testBit k && w.toNat.testBit k) := by
  rw [UInt32.toNat_and, Nat.testBit_and]

theorem testBit_not (word : UInt32) {k : Nat} (h : k < 32) :
    (~~~word).toNat.testBit k = !word.toNat.testBit k := by
  have hsub : (~~~word).toNat = 2 ^ 32 - (word.toNat + 1) := by
    rw [UInt32.toNat_not]
    show 2 ^ 32 - 1 - word.toNat = _
    omega
  rw [hsub, Nat.testBit_two_pow_sub_succ (UInt32.toNat_lt word), decide_eq_true h, Bool.true_and]

/-- A word has none of the bits of a mask. -/
theorem and_eq_zero_iff (word mask : UInt32) :
    word &&& mask = 0 ↔
      ∀ k, mask.toNat.testBit k = true → word.toNat.testBit k = false := by
  constructor
  · intro h k hk
    have hbit := testBit_and word mask k
    rw [h, hk, Bool.and_true] at hbit
    exact hbit.symm.trans (Nat.zero_testBit k)
  · intro h
    apply eq_of_testBit_eq
    intro k
    refine Eq.trans ?_ (Nat.zero_testBit k).symm
    rw [testBit_and]
    cases hk : mask.toNat.testBit k with
    | false => rw [Bool.and_false]
    | true => rw [h k hk, Bool.false_and]

/-! ## Reserved bits -/

/-- The masks of the fields and the positions of their bits are one layout. -/
theorem testBit_definedBits {index : Nat} (hi : index < wordCount) {k : Nat} (hk : k < 32) :
    (definedBits index).toNat.testBit k = decide (k ∈ fieldBits index) := by
  have h : ∀ index < wordCount, ∀ k < 32,
      (definedBits index).toNat.testBit k = decide (k ∈ fieldBits index) := by
    decide
  exact h index hi k hk

theorem checkReserved_eq_ok_iff (word : UInt32) {index : Nat} (hi : index < wordCount) :
    checkReserved index word = .ok () ↔
      ∀ k, word.toNat.testBit k = true → k ∈ fieldBits index := by
  have hcheck : checkReserved index word = .ok () ↔ word &&& ~~~definedBits index = 0 := by
    rw [checkReserved]
    split <;> simp_all
  rw [hcheck, and_eq_zero_iff]
  constructor
  · intro h k hk
    have hlt := lt_of_testBit hk
    refine Decidable.byContradiction fun hout => ?_
    have hreserved : (~~~definedBits index).toNat.testBit k = true := by
      rw [testBit_not _ hlt, testBit_definedBits hi hlt, decide_eq_false hout, Bool.not_false]
    rw [h k hreserved] at hk
    exact Bool.false_ne_true hk
  · intro h k hreserved
    have hlt := lt_of_testBit hreserved
    rw [testBit_not _ hlt, testBit_definedBits hi hlt] at hreserved
    have hout : k ∉ fieldBits index := by simpa using hreserved
    exact Bool.eq_false_iff.mpr fun hk => hout (h k hk)

/-! ## What is read off a word -/

theorem has_eq_false_iff (word mask : UInt32) :
    has word mask = false ↔
      ∀ k, mask.toNat.testBit k = true → word.toNat.testBit k = false := by
  rw [has, bne_eq_false_iff_eq]
  exact and_eq_zero_iff word mask

theorem has_eq_testBit (word : UInt32) {mask : UInt32} {k : Nat} (h : mask.toNat = 2 ^ k) :
    has word mask = word.toNat.testBit k := by
  have hfalse : has word mask = false ↔ word.toNat.testBit k = false := by
    rw [has_eq_false_iff, h]
    constructor
    · intro hall
      exact hall k (Nat.testBit_two_pow_self)
    · intro hk j hj
      rw [Nat.testBit_two_pow, decide_eq_true_iff] at hj
      exact hj ▸ hk
  rw [Bool.eq_iff_iff, ← Bool.not_eq_false, hfalse, Bool.not_eq_false]

theorem has_moreBit (word : UInt32) : has word moreBit = word.toNat.testBit 31 :=
  has_eq_testBit word (by decide)

/-- A field whose mask is a run of bits is the number that the run spells. -/
theorem Field.read_eq_code (f : Field) (word : UInt32) {low width : Nat}
    (hshift : f.shift.toNat % 32 = low) (hmask : f.mask.toNat >>> low = 2 ^ width - 1) :
    f.read word = code word low width := by
  rw [read, UInt32.toNat_shiftRight, UInt32.toNat_and, hshift, Nat.shiftRight_and_distrib, hmask,
    Nat.and_two_pow_sub_one_eq_mod, Nat.shiftRight_eq_div_pow, code]

theorem precision_read (word : UInt32) : precisionField.read word = code word 4 3 :=
  Field.read_eq_code _ word (by decide) (by decide)

theorem hashLength_read (word : UInt32) : hashLengthField.read word = code word 16 2 :=
  Field.read_eq_code _ word (by decide) (by decide)

theorem hashFunction_read (word : UInt32) : hashFunctionField.read word = code word 18 3 :=
  Field.read_eq_code _ word (by decide) (by decide)

theorem reduction_read (word : UInt32) : reductionField.read word = code word 21 3 :=
  Field.read_eq_code _ word (by decide) (by decide)

/-! ## Words that agree -/

/-- Two words have the same bits at some positions. -/
def AgreeOn (positions : List Nat) (v w : UInt32) : Prop :=
  ∀ k ∈ positions, v.toNat.testBit k = w.toNat.testBit k

instance (positions : List Nat) (v w : UInt32) : Decidable (AgreeOn positions v w) :=
  inferInstanceAs (Decidable (∀ k ∈ positions, v.toNat.testBit k = w.toNat.testBit k))

/-- All bits of a mask are at some positions. -/
def Within (mask : UInt32) (positions : List Nat) : Prop :=
  ∀ k < 32, mask.toNat.testBit k = true → k ∈ positions

instance (mask : UInt32) (positions : List Nat) : Decidable (Within mask positions) :=
  inferInstanceAs (Decidable (∀ k < 32, mask.toNat.testBit k = true → k ∈ positions))

section

variable {positions : List Nat} {v w : UInt32}

/-- **Through a mask** only its own bits are seen. -/
theorem AgreeOn.and_eq (h : AgreeOn positions v w) {mask : UInt32} (hm : Within mask positions) :
    v &&& mask = w &&& mask := by
  apply eq_of_testBit_eq
  intro k
  rw [testBit_and, testBit_and]
  cases hk : mask.toNat.testBit k with
  | false => rw [Bool.and_false, Bool.and_false]
  | true => rw [h k (hm k (lt_of_testBit hk) hk)]

theorem AgreeOn.has_eq (h : AgreeOn positions v w) {mask : UInt32} (hm : Within mask positions) :
    has v mask = has w mask := by
  rw [has, has, h.and_eq hm]

theorem AgreeOn.read_eq (h : AgreeOn positions v w) {f : Field} (hf : Within f.mask positions) :
    f.read v = f.read w := by
  rw [Field.read, Field.read, h.and_eq hf]

theorem AgreeOn.firstSet_eq (h : AgreeOn positions v w) {α : Type} {bits : List (UInt32 × α)}
    (hb : ∀ p ∈ bits, Within p.1 positions) : firstSet bits v = firstSet bits w := by
  have hfind : bits.find? (fun p => has v p.1) = bits.find? (fun p => has w p.1) :=
    List.find?_congr fun p hp => h.has_eq (hb p hp)
  rw [firstSet, firstSet, hfind]

end

end LatticeSuite.Flags
