import LatticeSuite.Proofs.Huffman.Table
import Mathlib.Algebra.Order.Field.Basic
import Mathlib.Algebra.Order.Ring.Rat
import Mathlib.Tactic.FieldSimp
import Mathlib.Tactic.NormNum
import Mathlib.Tactic.Positivity

/-!
# The Kraft sum of a code

A word of `n` bits takes up the part `2⁻ⁿ` of all bit strings, namely those that
extend it. `kraftSum` adds these parts up, for a list of lengths and for a table,
where a symbol of length zero has no word and takes up nothing.

The reader of a table does not compute a sum of fractions. It goes from length to
length and counts the bit strings that are left (`fits`). That comes to the same:

> `check_eq_ok_iff`: a table is accepted if and only if no word is longer than 56
> bits and the Kraft sum is at most 1.

The bridge is `kraftSum_eq`. Counted in words of a length that none of them
exceeds, the sum is a whole number, and everything the readers and writers of
tables do is arithmetic on such numbers.
-/

namespace LatticeSuite.Huffman

/-! ## Lists of lengths -/

/-- The part of all bit strings that words of the given lengths take up. -/
def kraftSum (lengths : List Nat) : ℚ :=
  (lengths.map fun n => (1 / 2 : ℚ) ^ n).sum

@[simp] theorem kraftSum_nil : kraftSum [] = 0 := rfl

@[simp] theorem kraftSum_cons (n : Nat) (lengths : List Nat) :
    kraftSum (n :: lengths) = (1 / 2) ^ n + kraftSum lengths := by
  rw [kraftSum, List.map_cons, List.sum_cons]
  rfl

theorem kraftSum_perm {lengths lengths' : List Nat} (h : lengths.Perm lengths') :
    kraftSum lengths = kraftSum lengths' :=
  (h.map _).sum_eq

theorem kraftSum_nonneg (lengths : List Nat) : 0 ≤ kraftSum lengths := by
  induction lengths with
  | nil => exact le_refl 0
  | cons n lengths ih =>
    rw [kraftSum_cons]
    positivity

/-- Counted in words of a length that none exceeds, the sum is a whole number. -/
theorem kraftSum_eq {lengths : List Nat} {m : Nat} (h : ∀ n ∈ lengths, n ≤ m) :
    kraftSum lengths = ((lengths.map fun n => 2 ^ (m - n)).sum : Nat) * (1 / 2) ^ m := by
  induction lengths with
  | nil => simp
  | cons n lengths ih =>
    have hn : n ≤ m := h n List.mem_cons_self
    have hword : (1 / 2 : ℚ) ^ n = (2 : ℚ) ^ (m - n) * (1 / 2) ^ m := by
      obtain ⟨k, rfl⟩ := Nat.exists_eq_add_of_le hn
      rw [Nat.add_sub_cancel_left, pow_add, mul_comm ((1 / 2 : ℚ) ^ n), ← mul_assoc, ← mul_pow]
      norm_num
    rw [kraftSum_cons, ih fun k hk => h k (List.mem_cons_of_mem _ hk), List.map_cons, List.sum_cons,
      hword]
    push_cast
    ring

theorem kraftSum_le_one_iff {lengths : List Nat} {m : Nat} (h : ∀ n ∈ lengths, n ≤ m) :
    kraftSum lengths ≤ 1 ↔ (lengths.map fun n => 2 ^ (m - n)).sum ≤ 2 ^ m := by
  rw [kraftSum_eq h, one_div, inv_pow, ← div_eq_mul_inv, div_le_one (by positivity)]
  exact_mod_cast Iff.rfl

theorem kraftSum_eq_one_iff {lengths : List Nat} {m : Nat} (h : ∀ n ∈ lengths, n ≤ m) :
    kraftSum lengths = 1 ↔ (lengths.map fun n => 2 ^ (m - n)).sum = 2 ^ m := by
  rw [kraftSum_eq h, one_div, inv_pow, ← div_eq_mul_inv, div_eq_one_iff_eq (by positivity)]
  exact_mod_cast Iff.rfl

/-! ## Tables -/

namespace CodeLengths

/-- The lengths of the words of a table, in symbol order. -/
def wordLengths (l : CodeLengths) : List Nat :=
  l.entries.map fun p => p.2.toNat

/-- The part of all bit strings that the words of a table take up. -/
def kraftSum (l : CodeLengths) : ℚ :=
  Huffman.kraftSum l.wordLengths

theorem wordLengths_eq (l : CodeLengths) :
    l.wordLengths = (l.entries.map Prod.fst).map fun s => (l.of s).toNat := by
  rw [wordLengths, List.map_map]
  refine List.map_congr_left ?_
  intro p hp
  rw [Function.comp_apply, (mem_entries.mp hp).1]

/-- The lengths of a table by the symbols that have a word. -/
theorem wordLengths_perm {l : CodeLengths} {ss : List UInt8} (hnodup : ss.Nodup)
    (h : ∀ s, l.of s ≠ 0 ↔ s ∈ ss) : l.wordLengths.Perm (ss.map fun s => (l.of s).toNat) := by
  have hsymbols : (l.entries.map Prod.fst).Perm ss := by
    refine (List.perm_ext_iff_of_nodup l.nodup_entries hnodup).mpr ?_
    intro s
    rw [← h]
    constructor
    · intro hs
      obtain ⟨p, hp, rfl⟩ := List.mem_map.mp hs
      obtain ⟨hlen, hne⟩ := mem_entries.mp hp
      exact hlen ▸ hne
    · intro hs
      exact List.mem_map.mpr ⟨(s, l.of s), mem_entries.mpr ⟨rfl, hs⟩, rfl⟩
  rw [l.wordLengths_eq]
  exact hsymbols.map _

theorem le_of_mem_wordLengths {l : CodeLengths} (h : ∀ s, (l.of s).toNat ≤ maxLength) {n : Nat}
    (hn : n ∈ l.wordLengths) : n ≤ maxLength := by
  rw [l.wordLengths_eq] at hn
  obtain ⟨s, -, rfl⟩ := List.mem_map.mp hn
  exact h s

/-- The shares of the symbols are the shares of their words. -/
theorem sum_share_eq {l : CodeLengths} (h : ∀ s, (l.of s).toNat ≤ maxLength) :
    (symbols.map l.share).sum = (l.wordLengths.map fun n => 2 ^ (maxLength - n)).sum := by
  rw [sum_share l.nodup_entries, wordLengths, List.map_map, List.map_map]
  · refine congrArg List.sum (List.map_congr_left ?_)
    intro p hp
    obtain ⟨hlen, hne⟩ := mem_entries.mp hp
    have hpos : 1 ≤ p.2.toNat :=
      Nat.one_le_iff_ne_zero.mpr fun hzero => hne (UInt8.toNat_inj.mp hzero)
    have hmax : p.2.toNat ≤ maxLength := hlen ▸ h p.1
    exact share_of_length (congrArg UInt8.toNat hlen.symm) hpos hmax
  · intro s hs
    by_contra hne
    exact hs (List.mem_map.mpr ⟨(s, l.of s), mem_entries.mpr ⟨rfl, hne⟩, rfl⟩)

/-- The words of a table fit if and only if their parts add up to no more than
everything. -/
theorem fits_iff_kraftSum_le {l : CodeLengths} (h : ∀ s, (l.of s).toNat ≤ maxLength) :
    fits l.groups 1 = true ↔ l.kraftSum ≤ 1 := by
  rw [l.fits_iff, sum_share_eq h]
  exact (kraftSum_le_one_iff fun n hn => le_of_mem_wordLengths h hn).symm

/-- **When a table is accepted.** -/
theorem check_eq_ok_iff {l : CodeLengths} {groups : List (List UInt8)} :
    l.check = .ok groups ↔
      ((∀ s, (l.of s).toNat ≤ maxLength) ∧ l.kraftSum ≤ 1) ∧ groups = l.groups := by
  rw [check]
  by_cases hlong : ∀ s, (l.of s).toNat ≤ maxLength
  · rw [l.any_long_eq_false_iff.mpr hlong, ← fits_iff_kraftSum_le hlong]
    by_cases hfits : fits l.groups 1 = true
    · rw [if_neg Bool.false_ne_true, if_pos hfits]
      exact ⟨fun h => ⟨⟨hlong, hfits⟩, (Except.ok.inj h).symm⟩, fun h => congrArg _ h.2.symm⟩
    · rw [if_neg Bool.false_ne_true, if_neg hfits]
      exact ⟨fun h => absurd h (by simp), fun h => absurd h.1.2 hfits⟩
  · rw [if_pos (by simpa using fun h => hlong (l.any_long_eq_false_iff.mp h))]
    exact ⟨fun h => absurd h (by simp), fun h => absurd h.1.1 hlong⟩

/-- The words of an accepted table leave nothing over if their sum is 1. -/
theorem kraft_groups_eq {l : CodeLengths} (h : ∀ s, (l.of s).toNat ≤ maxLength)
    (hkraft : l.kraftSum = 1) : kraft l.groups = 2 ^ maxLength := by
  have hsum := (kraftSum_eq_one_iff fun n hn => le_of_mem_wordLengths h hn).mp hkraft
  rw [l.kraft_groups_eq_sum_share, sum_share_eq h, hsum]

end CodeLengths

/-! ## The tree of a byte string -/

/-- The words that a tree gives two symbols or more take up everything. -/
theorem Tree.kraftSum_depths (t : Tree) : Huffman.kraftSum ((t.depths 0).map Prod.snd) = 1 := by
  have hle : ∀ n ∈ (t.depths 0).map Prod.snd, n ≤ t.height := by
    intro n hn
    obtain ⟨p, hp, rfl⟩ := List.mem_map.mp hn
    have := (mem_depths hp).2
    omega
  rw [kraftSum_eq_one_iff hle, List.map_map]
  exact t.kraft_depths 0 t.height (by omega)

/-- A byte has a word if and only if it occurs. -/
theorem of_codeLengths_ne_zero_iff {raw : Bytes} {s : UInt8} :
    (codeLengths raw).of s ≠ 0 ↔ s ∈ raw := by
  constructor
  · intro h
    by_contra hs
    exact h (of_codeLengths_of_not_mem hs)
  · intro hs hzero
    obtain ⟨t, ht, hperm, -⟩ := exists_tree (List.ne_nil_of_mem hs)
    obtain ⟨d, hd⟩ := exists_wordLength hperm hs
    have hlen := length_of_codeLengths ht hperm hd
    have hpos := (Tree.mem_wordLengths hd).1
    rw [hzero] at hlen
    exact absurd (hlen ▸ hpos) (by decide)

/-- The lengths in the table of a byte string are those in its tree. -/
theorem wordLengths_codeLengths {raw : Bytes} {t : Tree} (ht : joinAll (leaves raw) = some t)
    (hperm : t.alphabet.Perm raw.dedup) :
    (codeLengths raw).wordLengths.Perm (t.wordLengths.map Prod.snd) := by
  have hlengths : t.wordLengths.map Prod.snd =
      t.alphabet.map fun s => ((codeLengths raw).of s).toNat := by
    rw [← t.map_fst_wordLengths, List.map_map]
    refine List.map_congr_left ?_
    intro p hp
    exact (length_of_codeLengths ht hperm hp).symm
  refine CodeLengths.wordLengths_perm raw.nodup_dedup (fun s => ?_) |>.trans ?_
  · rw [of_codeLengths_ne_zero_iff, List.mem_dedup]
  · rw [hlengths]
    exact (hperm.map _).symm

/-- A tree with two leaves or more is not a leaf. -/
theorem Tree.wordLengths_eq_depths {t : Tree} (h : 2 ≤ t.alphabet.length) :
    t.wordLengths = t.depths 0 := by
  cases t with
  | leaf s => exact absurd h (by simp [alphabet])
  | node l r => rfl

/-- **Nothing is left over** by the words of a byte string with two bytes or more
to tell apart. -/
theorem kraftSum_codeLengths {raw : Bytes} (h : 2 ≤ raw.dedup.length) :
    (codeLengths raw).kraftSum = 1 := by
  have hne : raw ≠ [] := by
    rintro rfl
    exact absurd h (by simp)
  obtain ⟨t, ht, hperm, -⟩ := exists_tree hne
  rw [CodeLengths.kraftSum, kraftSum_perm (wordLengths_codeLengths ht hperm),
    Tree.wordLengths_eq_depths (hperm.length_eq ▸ h)]
  exact t.kraftSum_depths

/-- The words of a byte string fit, however long it is. -/
theorem kraftSum_codeLengths_le (raw : Bytes) : (codeLengths raw).kraftSum ≤ 1 := by
  by_cases hne : raw = []
  · have hnone : (codeLengths []).wordLengths.Perm [] :=
      CodeLengths.wordLengths_perm List.nodup_nil fun _ => of_codeLengths_ne_zero_iff
    rw [hne, CodeLengths.kraftSum, kraftSum_perm hnone, kraftSum_nil]
    exact zero_le_one
  · obtain ⟨t, ht, hperm, -⟩ := exists_tree hne
    rw [CodeLengths.kraftSum, kraftSum_perm (wordLengths_codeLengths ht hperm)]
    cases t with
    | leaf s =>
      show Huffman.kraftSum [1] ≤ 1
      norm_num
    | node l r => exact le_of_eq (Tree.node l r).kraftSum_depths

end LatticeSuite.Huffman
