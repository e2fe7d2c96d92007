import LatticeSuite.Proofs.Huffman.Canonical

/-!
# No byte string has words that a table may not declare

A coder does not limit the lengths of its words. It puts them into a table whose
readers stop at 56 bits, and numbers the words with a counter for each length up
to 56. That this goes well is a fact about Huffman trees: a path of length `d` to
a leaf needs a tree of weight `fib (d + 2)` (`fib_height_le`), and a tree weighs as
much as there are bytes in the string.

So a word of 57 bits takes `fib 59` bytes, more than 200 times as many as the
length field of an envelope can count. Below that, the numbers are found without a
fault (`canonicalCodes_eq`) and every reader accepts the table.
-/

namespace LatticeSuite.Huffman

/-- A word of a byte string with two bytes or more to tell apart has a path for it
in the tree. -/
theorem length_le_height {raw : Bytes} {t : Tree} (ht : joinAll (leaves raw) = some t)
    (hperm : t.alphabet.Perm raw.dedup) (htwo : 2 ≤ raw.dedup.length) (s : UInt8) :
    ((codeLengths raw).of s).toNat ≤ t.height := by
  by_cases hs : s ∈ raw
  · obtain ⟨d, hd⟩ := exists_wordLength hperm hs
    rw [length_of_codeLengths ht hperm hd]
    rw [Tree.wordLengths_eq_depths (hperm.length_eq ▸ htwo)] at hd
    have := (Tree.mem_depths hd).2
    omega
  · rw [of_codeLengths_of_not_mem hs]
    exact Nat.zero_le _

/-- **How many bytes a long word takes.** -/
theorem fib_length_le {raw : Bytes} (htwo : 2 ≤ raw.dedup.length) (s : UInt8) :
    Nat.fib (((codeLengths raw).of s).toNat + 2) ≤ raw.length := by
  have hne : raw ≠ [] := by
    rintro rfl
    exact absurd htwo (by simp)
  obtain ⟨t, ht, hperm, hfair⟩ := exists_tree hne
  have hheight := length_le_height ht hperm htwo s
  exact Nat.le_trans (Nat.fib_mono (by omega)) (fib_height_le hperm hfair)

theorem length_le_maxLength {raw : Bytes} (hlen : raw.length < Nat.fib (maxLength + 3))
    (s : UInt8) : ((codeLengths raw).of s).toNat ≤ maxLength := by
  by_cases hs : s ∈ raw
  · exact (of_codeLengths hlen hs).2
  · rw [of_codeLengths_of_not_mem hs]
    exact Nat.zero_le _

/-- **The table of a byte string is one that can be numbered and read**, unless the
string is longer than anything an envelope holds. -/
theorem depth_is_bounded (raw : Bytes) :
    (2 ≤ raw.dedup.length →
      ∀ s, Nat.fib (((codeLengths raw).of s).toNat + 2) ≤ raw.length) ∧
    (raw.length < Nat.fib 59 →
      (∀ s, ((codeLengths raw).of s).toNat ≤ 56) ∧
      (∃ codes, canonicalCodes (codeLengths raw) = .ok codes) ∧
      ∀ f : TableFormat, ∃ stream groups,
        f.read (encode f raw) = .ok (codeLengths raw, stream) ∧
          (codeLengths raw).check = .ok groups) ∧
    Nat.fib 59 = 956722026041 ∧ 2 ^ 32 ≤ Nat.fib 59 := by
  refine ⟨fib_length_le, fun hlen => ⟨length_le_maxLength hlen, ?_, fun f => ?_⟩, ?_, ?_⟩
  · obtain ⟨codes, hcodes, -⟩ :=
      CodeLengths.canonicalCodes_eq (length_le_maxLength hlen) (fits_codeLengths hlen)
    exact ⟨_, hcodes⟩
  · exact ⟨_, _, f.read_write (codeLengths raw) _, check_codeLengths hlen⟩
  · decide +kernel
  · decide +kernel

theorem depth_is_bounded_of_three_bytes :
    2 ≤ ([0x61, 0x62, 0x61] : Bytes).dedup.length ∧
      Nat.fib (((codeLengths [0x61, 0x62, 0x61]).of 0x62).toNat + 2) ≤ 3 ∧
      [0x61, 0x62, 0x61].length < Nat.fib 59 ∧
      ((codeLengths [0x61, 0x62, 0x61]).of 0x62).toNat ≤ 56 := by
  have htwo : 2 ≤ ([0x61, 0x62, 0x61] : Bytes).dedup.length := by decide
  have hlen : [0x61, 0x62, 0x61].length < Nat.fib 59 := by decide +kernel
  obtain ⟨hdepth, hshort, -⟩ := depth_is_bounded [0x61, 0x62, 0x61]
  exact ⟨htwo, hdepth htwo 0x62, hlen, (hshort hlen).1 0x62⟩

end LatticeSuite.Huffman
