import LatticeSuite.Coding.RunCoder
import LatticeSuite.Proofs.Coding.Lockstep

/-!
# Run lengths, alone and behind the range coder

`encodeFrom` carries an open run; `decodeFrom` carries the bytes unfolded so
far. The two meet in `decodeFrom_encodeFrom`: unfolding the pairs of an open
run and what follows it appends exactly these bytes, if the declared length
is theirs. A pair stands for at least one byte, so the pairs of `n` bytes are
at most `2 * n` bytes (`length_encode_le`) and pass the check that the coder
behind the range coder makes before it decodes.

`RunCoder.decode_encode` and `RunCoder.decode_truncated` then follow from the
facts about the range coder, for strings whose pairs can be counted in four
bytes.
-/

namespace LatticeSuite

namespace RunLength

/-- The pairs of an open run and the bytes behind it. -/
theorem encodeFrom_cases (current b : UInt8) (count : Nat) (rest : Bytes) :
    (b = current ∧ count < longestRun ∧
      encodeFrom current count (b :: rest) = encodeFrom current (count + 1) rest) ∨
    encodeFrom current count (b :: rest) =
      UInt8.ofNat count :: current :: encodeFrom b 1 rest := by
  by_cases h : b = current ∧ count < longestRun
  · exact Or.inl ⟨h.1, h.2, if_pos h⟩
  · exact Or.inr (if_neg h)

theorem length_encodeFrom_mod (current : UInt8) (count : Nat) (rest : Bytes) :
    (encodeFrom current count rest).length % 2 = 0 := by
  induction rest generalizing current count with
  | nil => rw [encodeFrom, List.length_cons, List.length_singleton]
  | cons b rest ih =>
    rcases encodeFrom_cases current b count rest with ⟨-, -, h⟩ | h
    · rw [h]
      exact ih current (count + 1)
    · have := ih b 1
      rw [h, List.length_cons, List.length_cons]
      omega

theorem length_encodeFrom_le (current : UInt8) (count : Nat) (rest : Bytes) :
    (encodeFrom current count rest).length ≤ 2 * (rest.length + 1) := by
  induction rest generalizing current count with
  | nil => exact Nat.le_refl _
  | cons b rest ih =>
    rcases encodeFrom_cases current b count rest with ⟨-, -, h⟩ | h
    · have := ih current (count + 1)
      rw [h, List.length_cons]
      omega
    · have := ih b 1
      rw [h, List.length_cons, List.length_cons, List.length_cons]
      omega

theorem length_encode_mod (raw : Bytes) : (encode raw).length % 2 = 0 := by
  cases raw with
  | nil => rfl
  | cons b rest => exact length_encodeFrom_mod b 1 rest

/-- A pair stands for at least one byte. -/
theorem length_encode_le (raw : Bytes) : (encode raw).length ≤ 2 * raw.length := by
  cases raw with
  | nil => exact Nat.le_refl _
  | cons b rest => exact length_encodeFrom_le b 1 rest

/-- One pair, unfolded. -/
theorem decodeFrom_pair {rawLength count length : Nat} {b : UInt8} {rest : Bytes}
    {acc : List UInt8} (hpos : 1 ≤ count) (hmax : count ≤ longestRun)
    (hfit : length + count ≤ rawLength) :
    decodeFrom rawLength (UInt8.ofNat count :: b :: rest) length acc =
      decodeFrom rawLength rest (length + count) (List.replicate count b ++ acc) := by
  have hcount : (UInt8.ofNat count).toNat = count :=
    UInt8.toNat_ofNat_of_lt' (Nat.lt_of_le_of_lt hmax (by decide))
  have hne : UInt8.ofNat count ≠ 0 := by
    intro h
    rw [h, UInt8.toNat_zero] at hcount
    omega
  rw [decodeFrom, if_neg hne, hcount, if_neg (by omega)]

/-- Unfolding an open run and what follows it appends exactly these bytes. -/
theorem decodeFrom_encodeFrom {rawLength : Nat} (current : UInt8) (count : Nat) (rest : Bytes)
    (length : Nat) (acc : List UInt8) (hpos : 1 ≤ count) (hmax : count ≤ longestRun)
    (hlen : length + count + rest.length = rawLength) :
    decodeFrom rawLength (encodeFrom current count rest) length acc =
      .ok (acc.reverse ++ List.replicate count current ++ rest) := by
  induction rest generalizing current count length acc with
  | nil =>
    rw [List.length_nil] at hlen
    rw [encodeFrom, decodeFrom_pair hpos hmax (by omega), decodeFrom, if_pos (by omega)]
    · simp
    · simp
  | cons b rest ih =>
    rw [List.length_cons] at hlen
    rcases encodeFrom_cases current b count rest with ⟨rfl, hlt, h⟩ | h
    · -- the run goes on: its new byte counts with it instead of with the rest
      rw [h, ih b (count + 1) length acc (by omega) hlt (by omega), List.replicate_succ']
      simp
    · -- the run is closed, and the pair for it is unfolded
      rw [h, decodeFrom_pair hpos hmax (by omega),
        ih b 1 (length + count) _ (Nat.le_refl 1) (by decide) (by omega)]
      simp

theorem decode_encode (raw : Bytes) : decode (encode raw) raw.length = .ok raw := by
  rw [decode, if_neg (by simp [length_encode_mod])]
  cases raw with
  | nil => rfl
  | cons b rest =>
    rw [encode, decodeFrom_encodeFrom b 1 rest 0 [] (Nat.le_refl 1) (by decide)]
    · rfl
    · rw [List.length_cons]
      omega

end RunLength

namespace RunCoder

open Bytes (toBE length_toBE ofBE_toBE_of_lt)

/-- The pairs can be counted in the field in front of them. -/
theorem length_runs_lt {raw : Bytes} (h : raw.length < 2 ^ 31) :
    (RunLength.encode raw).length < 256 ^ 4 := by
  have := RunLength.length_encode_le raw
  omega

/-- What is read of a buffer whose count is intact. -/
theorem decode_append {raw coded : Bytes} (h : raw.length < 2 ^ 31) :
    decode (toBE 4 (RunLength.encode raw).length ++ coded) raw.length =
      match RangeCoder.decode coded (RunLength.encode raw).length with
      | .error e => .error e
      | .ok runs => RunLength.decode runs raw.length := by
  have hle := RunLength.length_encode_le raw
  have hlen : (toBE 4 (RunLength.encode raw).length).length = 4 := length_toBE 4 _
  rw [decode, if_neg (by rw [List.length_append, hlen]; omega), List.take_left' hlen,
    List.drop_left' hlen, ofBE_toBE_of_lt (length_runs_lt h)]
  exact if_neg (Nat.not_lt.mpr hle)

theorem decode_encode {raw : Bytes} (h : raw.length < 2 ^ 31) :
    decode (encode raw) raw.length = .ok raw := by
  rw [encode, decode_append h, RangeCoder.decode_encode]
  exact RunLength.decode_encode raw

theorem decode_truncated {raw cut : Bytes} (h : raw.length < 2 ^ 31)
    (hcut : ProperPrefix cut (encode raw)) : decode cut raw.length = .error .truncated := by
  rcases hcut.append_cases with hcount | ⟨coded, rfl, hcoded⟩
  · -- not even the number of pairs is there
    have hlt := hcount.length_lt
    rw [length_toBE] at hlt
    rw [decode, if_pos hlt]
  · rw [decode_append h, RangeCoder.decode_truncated hcoded]

end RunCoder

end LatticeSuite
