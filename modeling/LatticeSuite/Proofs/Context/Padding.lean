import LatticeSuite.Context.Padding
import Mathlib.Data.List.TakeWhile
import Mathlib.Data.Nat.ModEq
import Mathlib.Order.Bounds.Defs

/-!
# Padding comes off again

> A padded plaintext is a whole number of blocks and gives the plaintext back, for
> every block length and every plaintext (`Padding.unpad?_pad`).

Also for a plaintext that ends in zeros or in a marker of its own: what is removed is
found from the end, and the first byte from there that is not zero is the marker that
was put there last.

The way back is as exact (`Padding.eq_pad_of_unpad?`). A buffer that is accepted is a
plaintext, a marker and zeros, and the marker stands in the last block. Fewer zeros
than a block fill it in one way only (`Padding.eq_zeros`), so these are the zeros that
were put there, and nobody can make a buffer with another reading, or with more zeros.
-/

namespace LatticeSuite.Padding

theorem zeros_lt {block : Nat} (h : 0 < block) (n : Nat) : zeros block n < block :=
  Nat.mod_lt _ h

/-- The zeros fill the last block. -/
theorem add_zeros_mod {block : Nat} (h : 0 < block) (n : Nat) :
    (n + 1 + zeros block n) % block = 0 := by
  have hr := Nat.mod_lt (n + 1) h
  have hsplit := Nat.div_add_mod (n + 1) block
  unfold zeros
  by_cases hfull : (n + 1) % block = 0
  · rw [hfull, Nat.sub_zero, Nat.mod_self, Nat.add_zero, hfull]
  · have hzeros : (block - (n + 1) % block) % block = block - (n + 1) % block :=
      Nat.mod_eq_of_lt (by omega)
    have hnext : n + 1 + (block - (n + 1) % block) = block * ((n + 1) / block + 1) := by
      rw [Nat.mul_add, Nat.mul_one]
      omega
    rw [hzeros, hnext, Nat.mul_mod_right]

theorem length_pad_iso7816 {block : Nat} (h : 0 < block) (bs : Bytes) :
    ((iso7816 block h).pad bs).length = bs.length + 1 + zeros block bs.length := by
  rw [pad, List.length_append, List.length_cons, List.length_replicate]
  omega

/-- The zeros at the end are skipped, and the marker is not. -/
theorem dropWhile_reverse_pad (bs : Bytes) (k : Nat) :
    (bs ++ marker :: List.replicate k 0).reverse.dropWhile (· == 0) = marker :: bs.reverse := by
  rw [List.reverse_append, List.reverse_cons, List.reverse_replicate, List.append_assoc]
  induction k with
  | zero => rfl
  | succ k ih => exact ih

/-- **Padding comes off again.** -/
theorem unpad?_pad (padding : Padding) (bs : Bytes) : padding.unpad? (padding.pad bs) = some bs := by
  cases padding with
  | none => rfl
  | iso7816 block h =>
    have hlength := length_pad_iso7816 h bs
    have hlast : ((iso7816 block h).pad bs).length - bs.reverse.length ≤ block := by
      have hlt := zeros_lt h bs.length
      rw [hlength, List.length_reverse]
      omega
    have hwhole : ((iso7816 block h).pad bs).length % block = 0 := by
      rw [hlength, add_zeros_mod h]
    have hmarker : ((iso7816 block h).pad bs).reverse.dropWhile (· == 0) = marker :: bs.reverse :=
      dropWhile_reverse_pad bs _
    unfold unpad?
    dsimp only
    rw [if_neg (fun hne => hne hwhole), hmarker]
    dsimp only
    rw [if_pos ⟨rfl, hlast⟩, List.reverse_reverse]

/-! ## The way back -/

/-- Fewer zeros than a block fill it in one way. -/
theorem eq_zeros {block n k : Nat} (hk : k < block) (hwhole : (n + 1 + k) % block = 0) :
    k = zeros block n := by
  have hpos : 0 < block := Nat.zero_lt_of_lt hk
  have hsame : n + 1 + k ≡ n + 1 + zeros block n [MOD block] :=
    hwhole.trans (add_zeros_mod hpos n).symm
  exact (Nat.ModEq.add_left_cancel' (n + 1) hsame).eq_of_lt_of_lt hk (zeros_lt hpos n)

/-- What stands behind the last byte that is not zero. -/
theorem eq_append_zeros {bs rest : Bytes} {b : UInt8}
    (h : bs.reverse.dropWhile (· == 0) = b :: rest) :
    ∃ k, bs = rest.reverse ++ b :: List.replicate k 0 := by
  have hsplit := List.takeWhile_append_dropWhile (p := (· == 0)) (l := bs.reverse)
  have hzeros : bs.reverse.takeWhile (· == 0) =
      List.replicate (bs.reverse.takeWhile (· == 0)).length 0 :=
    List.eq_replicate_of_mem fun z hz => by simpa using List.mem_takeWhile_imp hz
  generalize (bs.reverse.takeWhile (· == 0)).length = k at hzeros
  rw [hzeros, h] at hsplit
  refine ⟨k, ?_⟩
  rw [← bs.reverse_reverse, ← hsplit, List.reverse_append, List.reverse_cons,
    List.reverse_replicate, List.append_assoc]
  rfl

/-- **Only padding is taken off.** -/
theorem eq_pad_of_unpad? {block : Nat} {h : 0 < block} {x y : Bytes}
    (hy : (iso7816 block h).unpad? y = some x) : y = (iso7816 block h).pad x := by
  unfold unpad? at hy
  dsimp only at hy
  split at hy
  next => exact nomatch hy
  next hwhole =>
    split at hy
    next => exact nomatch hy
    next b rest hlast =>
      split at hy
      next hmarker =>
        obtain ⟨rfl, hblock⟩ := hmarker
        obtain rfl := Option.some.inj hy
        obtain ⟨k, rfl⟩ := eq_append_zeros hlast
        rw [List.length_append, List.length_cons, List.length_replicate, List.length_reverse]
          at hblock hwhole
        have hk : k < block := by omega
        have hfill : (rest.length + 1 + k) % block = 0 := by
          rw [Nat.add_assoc, Nat.add_comm 1 k]
          exact not_not.mp hwhole
        rw [pad, List.length_reverse, ← eq_zeros hk hfill]
      next => exact nomatch hy

/-- A padded plaintext is no longer than it has to be. -/
theorem length_pad_isLeast {block : Nat} (h : 0 < block) (bs : Bytes) :
    IsLeast {n | block ∣ n ∧ bs.length + 1 ≤ n} ((iso7816 block h).pad bs).length := by
  have hlength := length_pad_iso7816 h bs
  have hzeros := zeros_lt h bs.length
  have hwhole : block ∣ ((iso7816 block h).pad bs).length :=
    Nat.dvd_of_mod_eq_zero (by rw [hlength, add_zeros_mod h])
  refine ⟨⟨hwhole, by omega⟩, ?_⟩
  rintro n ⟨hn, hle⟩
  -- a shorter one would be shorter by a block
  by_contra hlt
  have hgap := Nat.le_of_dvd (by omega) (Nat.dvd_sub hwhole hn)
  omega

/-- **Padding is a bijection onto what is accepted**: whatever the block length, a
buffer reads as a plaintext just if it is that plaintext padded, which is as long as
the next whole number of blocks that has room for a marker. -/
theorem padding_is_exact {block : Nat} (h : 0 < block) :
    (∀ x y : Bytes,
      (iso7816 block h).unpad? y = some x ↔ y = (iso7816 block h).pad x) ∧
    (∀ x : Bytes,
      IsLeast {n | block ∣ n ∧ x.length + 1 ≤ n} ((iso7816 block h).pad x).length) ∧
    Function.Injective (iso7816 block h).pad := by
  refine ⟨fun x y => ⟨eq_pad_of_unpad?, ?_⟩, length_pad_isLeast h, ?_⟩
  · rintro rfl
    exact unpad?_pad _ x
  · intro x x' hsame
    have hx := unpad?_pad (iso7816 block h) x
    rw [hsame, unpad?_pad] at hx
    exact (Option.some.inj hx).symm

/-- A plaintext that ends in a marker and a zero, once padded and once with a block of zeros
too many. -/
theorem padding_is_exact_of_zeros :
    0 < 4 ∧
      (iso7816 4 (by decide)).unpad? [1, 0x80, 0, 0x80] = some [1, 0x80, 0] ∧
      (iso7816 4 (by decide)).unpad? [1, 0x80, 0, 0x80, 0, 0, 0, 0] ≠ some [1, 0x80, 0] ∧
      IsLeast {n | 4 ∣ n ∧ 5 ≤ n} ((iso7816 4 (by decide)).pad [1, 2, 3, 0]).length := by
  obtain ⟨hexact, hleast, -⟩ := padding_is_exact (show 0 < 4 by decide)
  refine ⟨by decide, (hexact _ _).mpr rfl, ?_, hleast [1, 2, 3, 0]⟩
  exact fun hread => absurd ((hexact _ _).mp hread) (by decide)

end LatticeSuite.Padding
