import LatticeSuite.Bytes
import Mathlib.Data.List.Infix
import Mathlib.Tactic.Ring

/-!
# Byte strings as big-endian numbers

A byte string read most significant byte first is the number whose digits to the
base 256 are its bytes. Every argument about a coder that computes on numbers and
writes bytes goes through two facts: `ofBE_append` splits the number where the
string is split, and `ofBE_toBE` says what a field of a fixed width keeps.

The last section is about proper prefixes, the strings that a cut leaves.
-/

namespace LatticeSuite

namespace Bytes

@[simp] theorem ofBE_nil : ofBE [] = 0 := rfl

/-- Reading from an accumulator shifts it by the bytes read. -/
private theorem foldl_ofBE (bs : Bytes) (n : Nat) :
    bs.foldl (fun n b => n * 256 + b.toNat) n = n * 256 ^ bs.length + ofBE bs := by
  induction bs generalizing n with
  | nil => simp
  | cons b bs ih =>
    -- both sides read the first byte, from different accumulators
    rw [ofBE, List.foldl_cons, List.foldl_cons, ih, ih (0 * 256 + b.toNat)]
    rw [List.length_cons, Nat.pow_succ]
    ring

/-- A number splits where its digits are split. -/
theorem ofBE_append (as bs : Bytes) : ofBE (as ++ bs) = ofBE as * 256 ^ bs.length + ofBE bs := by
  rw [ofBE, List.foldl_append, foldl_ofBE]
  rfl

theorem ofBE_cons (b : UInt8) (bs : Bytes) :
    ofBE (b :: bs) = b.toNat * 256 ^ bs.length + ofBE bs := by
  have h := ofBE_append [b] bs
  rw [List.singleton_append] at h
  rw [h]
  simp [ofBE]

theorem ofBE_concat (bs : Bytes) (b : UInt8) : ofBE (bs ++ [b]) = ofBE bs * 256 + b.toNat := by
  rw [ofBE_append]
  simp [ofBE]

/-- A field of `w` bytes keeps a number modulo `256 ^ w`. -/
theorem ofBE_toBE (w n : Nat) : ofBE (toBE w n) = n % 256 ^ w := by
  induction w generalizing n with
  | zero => simp [toBE, Nat.mod_one]
  | succ w ih =>
    rw [toBE, ofBE_cons, ih, length_toBE, UInt8.toNat_ofNat']
    show n / 256 ^ w % 256 * 256 ^ w + n % 256 ^ w = n % (256 ^ w * 256)
    rw [Nat.mod_mul, Nat.mul_comm, Nat.add_comm]

theorem ofBE_toBE_of_lt {w n : Nat} (h : n < 256 ^ w) : ofBE (toBE w n) = n := by
  rw [ofBE_toBE, Nat.mod_eq_of_lt h]

theorem ofBE_lt (bs : Bytes) : ofBE bs < 256 ^ bs.length := by
  induction bs with
  | nil => decide
  | cons b bs ih =>
    have hdigit := Nat.mul_le_mul_right (256 ^ bs.length) (Nat.succ_le_of_lt b.toNat_lt)
    rw [Nat.succ_mul] at hdigit
    rw [ofBE_cons, List.length_cons, Nat.pow_succ']
    omega

/-- The number of a field tells its digits. -/
theorem ofBE_inj {as bs : Bytes} (hlength : as.length = bs.length) (h : ofBE as = ofBE bs) :
    as = bs := by
  induction as generalizing bs with
  | nil => exact (List.length_eq_zero_iff.mp hlength.symm).symm
  | cons a as ih =>
    match bs, hlength with
    | b :: bs, hlength =>
      have htail : as.length = bs.length := Nat.succ.inj hlength
      have ha := ofBE_lt as
      have hb := ofBE_lt bs
      rw [ofBE_cons, ofBE_cons, htail] at h
      rw [htail] at ha
      have hquotient : ∀ x y, y < 256 ^ bs.length →
          (x * 256 ^ bs.length + y) / 256 ^ bs.length = x := by
        intro x y hy
        rw [Nat.mul_comm, Nat.mul_add_div (Nat.zero_lt_of_lt hy), Nat.div_eq_of_lt hy, Nat.add_zero]
      have hhead : a.toNat = b.toNat := by
        rw [← hquotient a.toNat _ ha, h, hquotient _ _ hb]
      rw [hhead] at h
      rw [UInt8.toNat_inj.mp hhead, ih htail (Nat.add_left_cancel h)]

/-- A field keeps a number that spells its digits. -/
theorem toBE_ofBE (bs : Bytes) : toBE bs.length (ofBE bs) = bs :=
  ofBE_inj (length_toBE _ _) (ofBE_toBE_of_lt (ofBE_lt bs))

theorem toNat_max : (0xff : UInt8).toNat = 255 := rfl

/-- A digit followed by nines: one less than the next multiple. -/
theorem ofBE_cons_replicate_max (b : UInt8) (n : Nat) :
    ofBE (b :: List.replicate n 0xff) + 1 = (b.toNat + 1) * 256 ^ n := by
  induction n with
  | zero => simp [ofBE]
  | succ n ih =>
    rw [List.replicate_succ', ← List.cons_append, ofBE_concat, toNat_max, Nat.pow_succ,
      ← Nat.mul_assoc, ← ih]
    ring

/-- A digit followed by zeros. -/
theorem ofBE_cons_replicate_zero (b : UInt8) (n : Nat) :
    ofBE (b :: List.replicate n 0) = b.toNat * 256 ^ n := by
  induction n with
  | zero => simp [ofBE]
  | succ n ih =>
    rw [List.replicate_succ', ← List.cons_append, ofBE_concat, ih, Nat.pow_succ,
      UInt8.toNat_zero]
    ring

/-! ## Pairs -/

theorem chunks_nil (n : Nat) : chunks n [] = [] := by
  rw [chunks, dif_pos (Or.inr (show ([] : Bytes).length ≤ n from Nat.zero_le n))]
  rfl

theorem chunks_pair (a b : UInt8) (rest : Bytes) :
    chunks 2 (a :: b :: rest) = [a, b] :: chunks 2 rest := by
  rw [chunks]
  cases rest with
  | nil =>
    rw [dif_pos (Or.inr (show [a, b].length ≤ 2 from Nat.le_refl 2)), chunks_nil]
    rfl
  | cons c rest =>
    rw [dif_neg (by simp)]
    rfl

end Bytes

/-! ## Proper prefixes -/

/-- `xs` is what a cut of `ys` leaves: a prefix with something missing. -/
def ProperPrefix {α : Type} (xs ys : List α) : Prop :=
  ∃ t, t ≠ [] ∧ ys = xs ++ t

namespace ProperPrefix

variable {α : Type} {xs ys : List α}

theorem length_lt (h : ProperPrefix xs ys) : xs.length < ys.length := by
  obtain ⟨t, ht, rfl⟩ := h
  have := List.length_pos_iff.mpr ht
  rw [List.length_append]
  omega

/-- A prefix that is not the whole is proper. -/
theorem of_isPrefix (h : xs <+: ys) (hne : xs ≠ ys) : ProperPrefix xs ys := by
  obtain ⟨t, rfl⟩ := h
  refine ⟨t, ?_, rfl⟩
  rintro rfl
  exact hne (List.append_nil xs).symm

/-- A cut of `us ++ vs` either falls into `us` or leaves it whole. -/
theorem append_cases {us vs : List α} (h : ProperPrefix xs (us ++ vs)) :
    ProperPrefix xs us ∨ ∃ zs, xs = us ++ zs ∧ ProperPrefix zs vs := by
  obtain ⟨t, ht, hcut⟩ := h
  rcases List.append_eq_append_iff.mp hcut with ⟨zs, hxs, hvs⟩ | ⟨zs, hus, ht'⟩
  · exact Or.inr ⟨zs, hxs, t, ht, hvs⟩
  · cases zs with
    | nil =>
      -- the cut is exactly between the two
      rw [List.append_nil] at hus
      exact Or.inr ⟨[], by rw [hus, List.append_nil], t, ht, by simpa using ht'.symm⟩
    | cons z zs => exact Or.inl ⟨z :: zs, List.cons_ne_nil _ _, hus⟩

end ProperPrefix

end LatticeSuite
