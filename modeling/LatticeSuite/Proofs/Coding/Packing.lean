import LatticeSuite.Coding.Bits
import LatticeSuite.Proofs.Bytes

/-!
# Packing bits into bytes and back

`Bytes.ofBits` fills the last byte up with zeros, so unpacking gives the
packed bits with a few zeros behind them: `toBits_ofBits` says how many, and
that they are fewer than a byte. A buffer cut by at least a byte has therefore
lost bits that were packed (`ProperPrefix.toBits`), which is what the
decoders on bit streams need to notice a cut.
-/

namespace LatticeSuite

/-! ## Bits of a number -/

/-- The bits of a number say nothing about the digits above them. -/
theorem bitsBE_mod (k n : Nat) : bitsBE k (n % 2 ^ k) = bitsBE k n := by
  suffices h : ∀ j, j ≤ k → bitsBE j (n % 2 ^ k) = bitsBE j n from h k (Nat.le_refl k)
  intro j
  induction j with
  | zero =>
    intro _
    rfl
  | succ j ih =>
    intro hj
    have hbit : (n % 2 ^ k).testBit j = n.testBit j := by
      rw [Nat.testBit_mod_two_pow, decide_eq_true (show j < k from hj), Bool.true_and]
    rw [bitsBE, bitsBE, hbit, ih (Nat.le_of_succ_le hj)]

/-- Reading bits from an accumulator shifts it by the bits read. -/
private theorem foldl_ofBitsBE (bits : List Bool) (n : Nat) :
    bits.foldl (fun n b => 2 * n + b.toNat) n = n * 2 ^ bits.length + ofBitsBE bits := by
  induction bits generalizing n with
  | nil => simp [ofBitsBE]
  | cons b bits ih =>
    rw [ofBitsBE, List.foldl_cons, List.foldl_cons, ih, ih (2 * 0 + b.toNat)]
    rw [List.length_cons, Nat.pow_succ]
    ring

theorem ofBitsBE_cons (b : Bool) (bits : List Bool) :
    ofBitsBE (b :: bits) = b.toNat * 2 ^ bits.length + ofBitsBE bits := by
  rw [ofBitsBE, List.foldl_cons, foldl_ofBitsBE]
  simp

theorem ofBitsBE_append_zeros (bits : List Bool) (k : Nat) :
    ofBitsBE (bits ++ List.replicate k false) = ofBitsBE bits * 2 ^ k := by
  have hzero : ofBitsBE (List.replicate k false) = 0 := by
    induction k with
    | zero => rfl
    | succ k ih =>
      rw [List.replicate_succ, ofBitsBE_cons, ih]
      simp
  rw [ofBitsBE, List.foldl_append, foldl_ofBitsBE, List.length_replicate, hzero]
  rfl

theorem ofBitsBE_lt (bits : List Bool) : ofBitsBE bits < 2 ^ bits.length := by
  induction bits with
  | nil => decide
  | cons b bits ih =>
    have hb : b.toNat ≤ 1 := Bool.toNat_le b
    have := Nat.mul_le_mul_right (2 ^ bits.length) hb
    rw [ofBitsBE_cons, List.length_cons, Nat.pow_succ']
    omega

/-- The bits of the number that bits spell are these bits. -/
theorem bitsBE_ofBitsBE (bits : List Bool) : bitsBE bits.length (ofBitsBE bits) = bits := by
  induction bits with
  | nil => rfl
  | cons b bits ih =>
    have hlt := ofBitsBE_lt bits
    have hhead : (ofBitsBE (b :: bits)).testBit bits.length = b := by
      rw [ofBitsBE_cons, Nat.mul_comm, Nat.testBit_two_pow_mul_add _ hlt, if_neg (Nat.lt_irrefl _),
        Nat.sub_self]
      cases b <;> rfl
    have hmod : ofBitsBE (b :: bits) % 2 ^ bits.length = ofBitsBE bits := by
      rw [ofBitsBE_cons, Nat.mul_comm, Nat.mul_add_mod, Nat.mod_eq_of_lt hlt]
    rw [List.length_cons, bitsBE, hhead, ← bitsBE_mod, hmod, ih]

namespace Bytes

/-! ## Packing -/

@[simp] theorem length_toBits (bs : Bytes) : bs.toBits.length = 8 * bs.length := by
  induction bs with
  | nil => rfl
  | cons b bs ih =>
    rw [toBits, List.flatMap_cons, List.length_append, length_bitsBE, List.length_cons]
    rw [toBits] at ih
    omega

theorem toBits_append (as bs : Bytes) : (as ++ bs).toBits = as.toBits ++ bs.toBits :=
  List.flatMap_append

/-- A byte of eight bits holds these bits. -/
theorem toBits_singleton (bits : List Bool) (h : bits.length = 8) :
    toBits [UInt8.ofNat (ofBitsBE bits)] = bits := by
  have hlt : ofBitsBE bits < 2 ^ 8 := h ▸ ofBitsBE_lt bits
  have hbyte : (UInt8.ofNat (ofBitsBE bits)).toNat = ofBitsBE bits :=
    UInt8.toNat_ofNat_of_lt' hlt
  rw [toBits, List.flatMap_cons, List.flatMap_nil, List.append_nil, hbyte, ← h, bitsBE_ofBitsBE]

/-- Fewer than eight bits, filled up with zeros. -/
theorem toBits_filled (bits : List Bool) (h : bits.length ≤ 8) :
    toBits [UInt8.ofNat (ofBitsBE bits * 2 ^ (8 - bits.length))] =
      bits ++ List.replicate (8 - bits.length) false := by
  rw [← ofBitsBE_append_zeros, toBits_singleton]
  rw [List.length_append, List.length_replicate]
  omega

/-- Bits that do not begin with a whole byte. -/
theorem length_lt_eight {bits : List Bool}
    (h : ∀ b₇ b₆ b₅ b₄ b₃ b₂ b₁ b₀ rest,
      bits ≠ b₇ :: b₆ :: b₅ :: b₄ :: b₃ :: b₂ :: b₁ :: b₀ :: rest) : bits.length < 8 := by
  by_contra hge
  obtain ⟨lead, rest, hlead, rfl⟩ : ∃ lead rest, lead.length = 8 ∧ bits = lead ++ rest :=
    ⟨bits.take 8, bits.drop 8, List.length_take_of_le (Nat.le_of_not_lt hge),
      (List.take_append_drop 8 bits).symm⟩
  match lead, hlead with
  | [b₇, b₆, b₅, b₄, b₃, b₂, b₁, b₀], _ => exact h b₇ b₆ b₅ b₄ b₃ b₂ b₁ b₀ rest rfl

/-- **Unpacking gives the packed bits and less than a byte of zeros.** -/
theorem toBits_ofBits (bits : List Bool) :
    ∃ k, k < 8 ∧ (ofBits bits).toBits = bits ++ List.replicate k false := by
  fun_induction ofBits bits with
  | case1 b₇ b₆ b₅ b₄ b₃ b₂ b₁ b₀ rest ih =>
    obtain ⟨k, hk, hrest⟩ := ih
    refine ⟨k, hk, ?_⟩
    rw [← List.singleton_append, toBits_append, hrest, toBits_singleton _ rfl]
    rfl
  | case2 => exact ⟨0, by decide, rfl⟩
  | case3 bits hlong hne =>
    have hlt : bits.length < 8 := length_lt_eight hlong
    have hpos : 0 < bits.length := List.length_pos_iff.mpr hne
    exact ⟨8 - bits.length, by omega, toBits_filled bits (by omega)⟩

/-- A cut of packed bits has lost some of them. -/
theorem toBits_of_cut {cut : Bytes} {bits : List Bool} (h : ProperPrefix cut (ofBits bits)) :
    ProperPrefix cut.toBits bits := by
  obtain ⟨t, ht, hwhole⟩ := h
  obtain ⟨k, hk, hbits⟩ := toBits_ofBits bits
  have hpos := List.length_pos_iff.mpr ht
  rw [hwhole, toBits_append] at hbits
  have hlen := congrArg List.length hbits
  rw [List.length_append, List.length_append, List.length_replicate, length_toBits,
    length_toBits] at hlen
  -- what is missing is longer than the zeros, so the cut is shorter than the bits
  have hle : cut.toBits.length ≤ bits.length := by
    rw [length_toBits]
    omega
  have hin : cut.toBits <+: bits ++ List.replicate k false := ⟨toBits t, hbits⟩
  have hpre := List.prefix_of_prefix_length_le hin (List.prefix_append _ _) hle
  refine ProperPrefix.of_isPrefix hpre ?_
  intro heq
  have hsame := congrArg List.length heq
  rw [length_toBits] at hsame
  omega

end Bytes

end LatticeSuite
