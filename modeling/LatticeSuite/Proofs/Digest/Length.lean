import LatticeSuite.Digest.Hasher

/-!
# A digest has its length

The thirteen digests are cut from a state that is longer than what is cut, and
each of them has its own reason why:

- SHA-2 keeps eight words in a structure, so the state cannot lose any;
- the sponge gives whole blocks of its rate until there is enough
  (`Keccak.length_squeeze`);
- BLAKE2b and Whirlpool work on arrays, and every compression leaves eight
  words, also of a state that had fewer (`Blake2b.size_compress`) or at least
  of one that had eight (`Whirlpool.size_compress`).

> A digest of an algorithm has the algorithm's length, whatever the message
> (`HashAlgorithm.length_digest`).

A generator that hashes a counter depends on it for every byte it promises.
-/

namespace LatticeSuite

/-- So many blocks of a width that all fit. -/
theorem le_ceilDiv_mul (n : Nat) {width : Nat} (h : 0 < width) :
    n ≤ (n + width - 1) / width * width := by
  have hdiv := Nat.div_add_mod (n + width - 1) width
  have hmod := Nat.mod_lt (n + width - 1) h
  rw [Nat.mul_comm] at hdiv
  omega

namespace Sha2

theorem length_digest64 {size : Nat} (h : size ≤ 64) (initial : List UInt64) (message : Bytes) :
    (digest64 initial size message).length = size := by
  unfold digest64
  rw [List.length_take, Bytes.length_flatMap Bytes.length_ofWord64BE]
  exact Nat.min_eq_left h

theorem length_digest32 {size : Nat} (h : size ≤ 32) (initial : List UInt32) (message : Bytes) :
    (digest32 initial size message).length = size := by
  unfold digest32
  rw [List.length_take]
  exact Nat.min_eq_left h

end Sha2

namespace Keccak

theorem Sponge.length_next {s : Sponge} (h : s.rate ≤ 200) : s.next.1.length = s.rate := by
  unfold next
  rw [List.length_take, Bytes.length_flatMap Bytes.length_ofWord64LE]
  exact Nat.min_eq_left h

theorem Sponge.length_blocks (count : Nat) {s : Sponge} (h : s.rate ≤ 200) :
    (s.blocks count).length = count * s.rate := by
  induction count generalizing s with
  | zero => exact (Nat.zero_mul _).symm
  | succ count ih =>
    -- the sponge behind a block has the same rate
    have hrest : (s.next.2.blocks count).length = count * s.rate := ih h
    show (s.next.1 ++ s.next.2.blocks count).length = _
    rw [List.length_append, length_next h, hrest, Nat.succ_mul]
    exact Nat.add_comm _ _

theorem Sponge.length_squeeze {s : Sponge} (hpos : 0 < s.rate) (h : s.rate ≤ 200) (n : Nat) :
    (s.squeeze n).length = n := by
  unfold squeeze
  rw [List.length_take, length_blocks _ h]
  exact Nat.min_eq_left (le_ceilDiv_mul n hpos)

theorem length_sha3 {size : Nat} (h : size < 100) (message : Bytes) :
    (sha3 size message).length = size := by
  have hpos : 0 < 200 - 2 * size := by omega
  exact Sponge.length_squeeze hpos (Nat.sub_le _ _) size

end Keccak

namespace Blake2b

theorem size_compress (input : ByteArray) (h : Array UInt64) (offset counter : Nat)
    (last : Bool) : (compress input h offset counter last).size = 8 := by
  unfold compress
  rw [Array.size_map, Array.size_range]

theorem length_digest {size : Nat} (h : size ≤ 64) (message : Bytes) :
    (digest size message).length = size := by
  -- there is a last block, and it leaves eight words
  obtain ⟨count, hcount⟩ : ∃ count, max 1 ((message.length + 127) / 128) = count + 1 :=
    ⟨_, (Nat.sub_add_cancel (Nat.le_max_left _ _)).symm⟩
  unfold digest
  dsimp only
  rw [hcount, List.range_succ, List.foldl_append, List.foldl_cons, List.foldl_nil,
    List.length_take, Bytes.length_flatMap Bytes.length_ofWord64LE, Array.length_toList,
    size_compress]
  exact Nat.min_eq_left h

end Blake2b

namespace Whirlpool

theorem size_layer (rows : Array UInt64) : (layer rows).size = 8 := by
  unfold layer
  rw [Array.size_map, Array.size_range]

theorem size_round (keyState : Array UInt64 × Array UInt64) (rc : UInt64) :
    (round keyState rc).2.size = 8 := by
  unfold round xorRows
  rw [Array.size_zipWith, size_layer, Array.size_setIfInBounds, size_layer]
  rfl

theorem size_foldl_round (rcs : List UInt64) {keyState : Array UInt64 × Array UInt64}
    (h : keyState.2.size = 8) : (rcs.foldl round keyState).2.size = 8 := by
  induction rcs generalizing keyState with
  | nil => exact h
  | cons rc rcs ih => exact ih (size_round keyState rc)

theorem size_compress (input : ByteArray) {h : Array UInt64} (hsize : h.size = 8) (offset : Nat) :
    (compress input h offset).size = 8 := by
  have hblock : ((Array.range 8).map fun i => word64BEAt input (offset + 8 * i)).size = 8 := by
    rw [Array.size_map, Array.size_range]
  unfold compress
  dsimp only [xorRows]
  rw [Array.size_zipWith, Array.size_zipWith, hblock, hsize, size_foldl_round]
  · rfl
  · rw [Array.size_zipWith, hblock, hsize]
    rfl

theorem size_foldl_compress (input : ByteArray) (ks : List Nat) {h : Array UInt64}
    (hsize : h.size = 8) : (ks.foldl (fun h k => compress input h (64 * k)) h).size = 8 := by
  induction ks generalizing h with
  | nil => exact hsize
  | cons k ks ih => exact ih (size_compress input hsize (64 * k))

theorem length_digest (message : Bytes) : (digest message).length = 64 := by
  unfold digest
  rw [Bytes.length_flatMap Bytes.length_ofWord64BE, Array.length_toList,
    size_foldl_compress _ _ Array.size_replicate]

end Whirlpool

/-- **A digest has the length of its algorithm.** -/
theorem HashAlgorithm.length_digest (a : HashAlgorithm) (message : Bytes) :
    (a.digest message).length = a.outputSize := by
  cases a with
  | sha2_224 => exact Sha2.length_digest32 (by decide) _ message
  | sha2_256 => exact Sha2.length_digest32 (by decide) _ message
  | sha2_384 => exact Sha2.length_digest64 (by decide) _ message
  | sha2_512 => exact Sha2.length_digest64 (by decide) _ message
  | sha3_224 => exact Keccak.length_sha3 (by decide) message
  | sha3_256 => exact Keccak.length_sha3 (by decide) message
  | sha3_384 => exact Keccak.length_sha3 (by decide) message
  | sha3_512 => exact Keccak.length_sha3 (by decide) message
  | blake2b224 => exact Blake2b.length_digest (by decide) message
  | blake2b256 => exact Blake2b.length_digest (by decide) message
  | blake2b384 => exact Blake2b.length_digest (by decide) message
  | blake2b512 => exact Blake2b.length_digest (by decide) message
  | whirlpool => exact Whirlpool.length_digest message

end LatticeSuite
