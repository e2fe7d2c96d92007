import LatticeSuite.Cipher.Keystream
import LatticeSuite.Proofs.Digest.Length

/-!
# A keystream in pieces

`Keystream.slice` lays out only the blocks that a piece touches. It is a piece of
the whole stream all the same:

> However many blocks are laid out from the first one on, if the piece ends within
> them it is found there at its position (`slice_eq`).

So two pieces side by side are one piece (`slice_add`), wherever the blocks end.
-/

namespace LatticeSuite.Keystream

variable {width : Nat} {block : Nat → Bytes}

/-- The first `count` blocks. -/
def blocks (block : Nat → Bytes) (count : Nat) : Bytes :=
  (List.range count).flatMap block

theorem length_blocks (h : ∀ i, (block i).length = width) (count : Nat) :
    (blocks block count).length = count * width := by
  rw [blocks, Bytes.length_flatMap h, List.length_range, Nat.mul_comm]

theorem blocks_add (j k : Nat) :
    blocks block (j + k) = blocks block j ++ (List.range' j k).flatMap block := by
  rw [blocks, blocks, List.range_eq_range', List.range_eq_range', ← List.range'_append_1,
    Nat.zero_add, List.flatMap_append]

/-- A piece that ends within the blocks laid out is the same when there are more. -/
theorem take_drop_blocks (h : ∀ i, (block i).length = width) {position n j k : Nat}
    (hj : position + n ≤ j * width) (hk : position + n ≤ k * width) :
    ((blocks block j).drop position).take n = ((blocks block k).drop position).take n := by
  have hlonger : ∀ {i : Nat}, position + n ≤ i * width → ∀ more,
      ((blocks block (i + more)).drop position).take n =
        ((blocks block i).drop position).take n := by
    intro i hi more
    have hlength := length_blocks h i
    rw [blocks_add, List.drop_append_of_le_length (by omega),
      List.take_append_of_le_length (by rw [List.length_drop]; omega)]
  rw [← hlonger hj k, Nat.add_comm, hlonger hk]

theorem take_blocks (h : ∀ i, (block i).length = width) {n j k : Nat} (hj : n ≤ j * width)
    (hk : n ≤ k * width) : (blocks block j).take n = (blocks block k).take n :=
  take_drop_blocks h (by omega : 0 + n ≤ j * width) (by omega : 0 + n ≤ k * width)

/-- **A slice is a piece of the stream.** -/
theorem slice_eq (hw : 0 < width) (h : ∀ i, (block i).length = width) {position n count : Nat}
    (hcount : position + n ≤ count * width) :
    slice width block position n = ((blocks block count).drop position).take n := by
  have hposition := Nat.div_add_mod' position width
  have htouched := le_ceilDiv_mul (position % width + n) hw
  have hlength := length_blocks h (position / width)
  unfold slice
  dsimp only
  generalize (position % width + n + width - 1) / width = touched at htouched ⊢
  generalize position / width = first at hposition hlength ⊢
  have hall : position + n ≤ (first + touched) * width := by
    rw [Nat.add_mul]
    omega
  -- the blocks that the piece touches stand behind `first` others
  have hbehind : (blocks block (first + touched)).drop position =
      ((List.range' first touched).flatMap block).drop (position % width) := by
    rw [blocks_add, List.drop_append, List.drop_eq_nil_of_le (by omega), List.nil_append]
    congr 1
    omega
  rw [take_drop_blocks h hcount hall, hbehind]

/-- **Two pieces side by side are one.** -/
theorem slice_add (hw : 0 < width) (h : ∀ i, (block i).length = width) (position m n : Nat) :
    slice width block position (m + n) =
      slice width block position m ++ slice width block (position + m) n := by
  have hcount := le_ceilDiv_mul (position + (m + n)) hw
  generalize (position + (m + n) + width - 1) / width = count at hcount
  have hfirst : position + m ≤ count * width := by omega
  have hsecond : position + m + n ≤ count * width := by omega
  rw [slice_eq hw h hcount, slice_eq hw h hfirst, slice_eq hw h hsecond, List.take_add,
    List.drop_drop]

/-- So a piece is as many pieces of one size as go into it. -/
theorem slice_mul (hw : 0 < width) (h : ∀ i, (block i).length = width) (position n k : Nat) :
    slice width block position (n * k) =
      (List.range k).flatMap fun i => slice width block (position + n * i) n := by
  induction k with
  | zero =>
    have hcount : position + 0 ≤ position * width := Nat.le_mul_of_pos_right _ hw
    rw [Nat.mul_zero, slice_eq hw h hcount, List.take_zero]
    rfl
  | succ k ih =>
    rw [Nat.mul_succ, slice_add hw h, ih, List.range_succ, List.flatMap_append,
      List.flatMap_singleton]

end LatticeSuite.Keystream
