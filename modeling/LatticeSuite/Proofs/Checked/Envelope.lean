import LatticeSuite.Coding.Envelope
import LatticeSuite.Proofs.Checked.Huffman
import LatticeSuite.Proofs.Checked.Runs
import LatticeSuite.Proofs.Coding.Envelope

/-!
# Decoders are safe on any bytes

An envelope may come from anywhere, and so may what is in it. Its header is read
at fixed indices behind one comparison of lengths, and the length it declares is
at most `2 ^ 24`. For such a length no coding makes the decoder of its payload go
wrong, whatever the payload is: a checked computation does the same as the decoder
(`KeyCoding.decodeChecked_eq`), and a decoder has no faults. The space that is set
aside for an output beforehand is left out. Its size is no more than the length
asked for and changes nothing in the output.

A decoder that yields a byte string yields one of the declared length. So the
comparison of lengths at the end of a key envelope never fails, and a key
envelope that is refused for its length is refused by the decoder of its payload.
-/

namespace LatticeSuite

open Checked

namespace KeyCoding

/-- The `rawLength` bytes that a buffer codes. -/
def decodeChecked : KeyCoding → Bytes → (rawLength : Nat) → Checked Bytes
  | .raw => fun coded rawLength => ofDecoded (decodeRaw coded rawLength)
  | .bac => RangeCoder.decodeChecked
  | .bacRle => RunCoder.decodeChecked
  | .huffmanStatic => Huffman.decodeChecked .dense
  | .strongSwan => Huffman.decodeChecked .sparse

theorem decodeChecked_eq (coding : KeyCoding) (coded : Bytes) {rawLength : Nat}
    (h : rawLength ≤ Envelope.maxRawLength) :
    coding.decodeChecked coded rawLength = ofDecoded (coding.decode coded rawLength) := by
  have hmax : Envelope.maxRawLength = 2 ^ 24 := rfl
  cases coding with
  | raw => rfl
  | bac => exact RangeCoder.decodeChecked_eq coded (by omega)
  | bacRle => exact RunCoder.decodeChecked_eq coded (by omega)
  | huffmanStatic => exact Huffman.decodeChecked_eq .dense coded (by omega)
  | strongSwan => exact Huffman.decodeChecked_eq .sparse coded (by omega)

theorem length_of_decodeRaw {coded raw : Bytes} {rawLength : Nat}
    (h : decodeRaw coded rawLength = .ok raw) : raw.length = rawLength := by
  rw [decodeRaw] at h
  split at h
  next => exact absurd h (by simp)
  next hge =>
    split at h
    next => exact absurd h (by simp)
    next hle =>
      rw [← Except.ok.inj h]
      omega

/-- **What is decoded has the length asked for.** -/
theorem length_of_decode {coding : KeyCoding} {coded raw : Bytes} {rawLength : Nat}
    (h : coding.decode coded rawLength = .ok raw) : raw.length = rawLength := by
  cases coding with
  | raw => exact length_of_decodeRaw h
  | bac => exact RangeCoder.length_of_decode h
  | bacRle => exact RunCoder.length_of_decode h
  | huffmanStatic => exact Huffman.length_of_decode h
  | strongSwan => exact Huffman.length_of_decode h

end KeyCoding

namespace Envelope

/-- The key in an envelope made for the given coding, slot, scheme and
parameter set. -/
def decodeKeyChecked (bytes : Bytes) (coding : KeyCoding) (keyClass : KeyClass) (scheme : SchemeId)
    (paramSet : UInt32) : Checked KeyMaterial :=
  if bytes.length < 12 then refuse .truncated
  else do
    let v ← read bytes 0
    if v ≠ version then refuse (.unsupportedVersion v) else do
    let c ← read bytes 1
    if c ≠ coding.tag then refuse (.codingMismatch coding c) else do
    let k ← read bytes 2
    if k ≠ keyClass.tag then refuse (.keyClassMismatch keyClass) else do
    let s ← read bytes 3
    let p ← slice bytes 4 8
    if s ≠ scheme.number ∨ Bytes.ofBE p ≠ paramSet.toNat then refuse .schemeMismatch else do
    let field ← slice bytes 8 12
    let rawLength ← ofDecoded (readRawLength field)
    let payload ← slice bytes 12 bytes.length
    let raw ← coding.decodeChecked payload rawLength
    if raw.length ≠ rawLength then refuse .lengthMismatch
    else .ok { keyClass, scheme, paramSet, bytes := raw }

/-- The signature in an envelope made for the given coding. -/
def decodeSignatureChecked (bytes : Bytes) (coding : KeyCoding) : Checked Bytes :=
  if coding = .raw then .ok bytes
  else if bytes.length < 5 then refuse .truncated
  else do
    let c ← read bytes 0
    if c ≠ coding.tag then refuse (.codingMismatch coding c) else do
    let field ← slice bytes 1 5
    let rawLength ← ofDecoded (readRawLength field)
    let payload ← slice bytes 5 bytes.length
    coding.decodeChecked payload rawLength

theorem readRawLength_le {field : Bytes} {n : Nat} (h : readRawLength field = .ok n) :
    n ≤ maxRawLength := by
  unfold readRawLength at h
  dsimp only at h
  split at h
  next => exact nomatch h
  next hle => exact Except.ok.inj h ▸ Nat.le_of_not_lt hle

/-- A key envelope that is long enough has all fields of its header. -/
theorem exists_key_fields {bytes : Bytes} (h : 12 ≤ bytes.length) :
    ∃ v c k s p₀ p₁ p₂ p₃ n₀ n₁ n₂ n₃, bytes =
      v :: c :: k :: s :: p₀ :: p₁ :: p₂ :: p₃ :: n₀ :: n₁ :: n₂ :: n₃ :: bytes.drop 12 := by
  match hheader : bytes.take 12, List.length_take_of_le h with
  | [v, c, k, s, p₀, p₁, p₂, p₃, n₀, n₁, n₂, n₃], _ =>
    have hsplit := (List.take_append_drop 12 bytes).symm
    rw [hheader] at hsplit
    exact ⟨v, c, k, s, p₀, p₁, p₂, p₃, n₀, n₁, n₂, n₃, hsplit⟩

theorem exists_signature_fields {bytes : Bytes} (h : 5 ≤ bytes.length) :
    ∃ c n₀ n₁ n₂ n₃, bytes = c :: n₀ :: n₁ :: n₂ :: n₃ :: bytes.drop 5 := by
  match hheader : bytes.take 5, List.length_take_of_le h with
  | [c, n₀, n₁, n₂, n₃], _ =>
    have hsplit := (List.take_append_drop 5 bytes).symm
    rw [hheader] at hsplit
    exact ⟨c, n₀, n₁, n₂, n₃, hsplit⟩

theorem decodeKeyChecked_eq (bytes : Bytes) (coding : KeyCoding) (keyClass : KeyClass)
    (scheme : SchemeId) (paramSet : UInt32) :
    decodeKeyChecked bytes coding keyClass scheme paramSet =
      ofDecoded (decodeKey bytes coding keyClass scheme paramSet) := by
  rw [decodeKeyChecked]
  by_cases hshort : bytes.length < 12
  · rw [if_pos hshort, decodeKey_short hshort]
    rfl
  · obtain ⟨v, c, k, s, p₀, p₁, p₂, p₃, n₀, n₁, n₂, n₃, hbytes⟩ :=
      exists_key_fields (Nat.le_of_not_lt hshort)
    generalize bytes.drop 12 = payload at hbytes
    subst hbytes
    rw [← refines_eq_iff, decodeKey_fields, if_neg hshort, read_of_getElem? (a := v) rfl, ok_bind]
    refine Refines.guard fun _ => ?_
    rw [read_of_getElem? (a := c) rfl, ok_bind]
    refine Refines.guard fun _ => ?_
    rw [read_of_getElem? (a := k) rfl, ok_bind]
    refine Refines.guard fun _ => ?_
    rw [read_of_getElem? (a := s) rfl, ok_bind, slice_of_le (by decide) (by simp), ok_bind]
    refine Refines.guard fun _ => ?_
    rw [slice_of_le (by decide) (by simp), ok_bind]
    refine (refines_ofDecoded (readRawLength [n₀, n₁, n₂, n₃])).bind ?_
    rintro n _ hn rfl
    rw [slice_length (by simp), ok_bind, coding.decodeChecked_eq _ (readRawLength_le hn)]
    refine (refines_ofDecoded (coding.decode payload n)).bind ?_
    rintro raw _ - rfl
    exact Refines.guard fun _ => ⟨_, rfl, rfl⟩

theorem decodeSignatureChecked_eq (bytes : Bytes) (coding : KeyCoding) :
    decodeSignatureChecked bytes coding = ofDecoded (decodeSignature bytes coding) := by
  rw [decodeSignatureChecked]
  by_cases hraw : coding = .raw
  · subst hraw
    rfl
  by_cases hshort : bytes.length < 5
  · rw [if_neg hraw, if_pos hshort, decodeSignature_short hshort hraw]
    rfl
  · obtain ⟨c, n₀, n₁, n₂, n₃, hbytes⟩ := exists_signature_fields (Nat.le_of_not_lt hshort)
    generalize bytes.drop 5 = payload at hbytes
    subst hbytes
    rw [← refines_eq_iff, decodeSignature_fields hraw, if_neg hraw, if_neg hshort,
      read_of_getElem? (a := c) rfl, ok_bind]
    refine Refines.guard fun _ => ?_
    rw [slice_of_le (by decide) (by simp), ok_bind]
    refine (refines_ofDecoded (readRawLength [n₀, n₁, n₂, n₃])).bind ?_
    rintro n _ hn rfl
    rw [slice_length (by simp), ok_bind, coding.decodeChecked_eq _ (readRawLength_le hn)]
    exact refines_ofDecoded (coding.decode payload n)

/-- Behind a header that is right: a payload that is refused for its length. -/
theorem payload_eq_lengthMismatch {field payload : Bytes} {coding : KeyCoding}
    {file : Bytes → KeyMaterial}
    (h : (readRawLength field).bind (fun n => (coding.decode payload n).bind fun raw =>
      if raw.length ≠ n then .error .lengthMismatch else .ok (file raw)) =
        .error .lengthMismatch) :
    coding.decode payload (Bytes.ofBE field) = .error .lengthMismatch := by
  cases hfield : readRawLength field with
  | error e =>
    -- a length that is too large has an error of its own
    rw [hfield] at h
    unfold readRawLength at hfield
    dsimp only at hfield
    split at hfield
    next =>
      rw [← Except.error.inj hfield] at h
      exact nomatch h
    next => exact nomatch hfield
  | ok n =>
    rw [readRawLength_eq_ok hfield]
    rw [hfield, Except.bind] at h
    cases hraw : coding.decode payload n with
    | error e =>
      rw [hraw] at h
      exact congrArg Except.error (Except.error.inj h)
    | ok raw =>
      rw [hraw, Except.bind, if_neg (not_not.mpr (KeyCoding.length_of_decode hraw))] at h
      exact nomatch h

/-- **A key that is refused for its length** is refused by the decoder of its payload. -/
theorem decodeKey_eq_lengthMismatch {bytes : Bytes} {coding : KeyCoding} {keyClass : KeyClass}
    {scheme : SchemeId} {paramSet : UInt32}
    (h : decodeKey bytes coding keyClass scheme paramSet = .error .lengthMismatch) :
    coding.decode (bytes.drop 12) (Bytes.ofBE ((bytes.take 12).drop 8)) =
      .error .lengthMismatch := by
  by_cases hshort : bytes.length < 12
  · rw [decodeKey_short hshort] at h
    exact nomatch h
  · obtain ⟨v, c, k, s, p₀, p₁, p₂, p₃, n₀, n₁, n₂, n₃, hbytes⟩ :=
      exists_key_fields (Nat.le_of_not_lt hshort)
    generalize bytes.drop 12 = payload at hbytes
    subst hbytes
    rw [decodeKey_fields] at h
    split_ifs at h
    · exact nomatch h
    · exact nomatch h
    · exact nomatch h
    · exact nomatch h
    · exact payload_eq_lengthMismatch h

end Envelope

/-- **Decoders are safe on any bytes.** In registers none has a fault, and what it
yields is what the decoder yields. -/
theorem decoders_are_safe :
    (∀ (coding : KeyCoding) (coded : Bytes) (rawLength : Nat), rawLength ≤ Envelope.maxRawLength →
      coding.decodeChecked coded rawLength = ofDecoded (coding.decode coded rawLength) ∧
        ∀ f, coding.decodeChecked coded rawLength ≠ .error (.fault f)) ∧
    (∀ (bytes : Bytes) (coding : KeyCoding) (keyClass : KeyClass) (scheme : SchemeId)
        (paramSet : UInt32),
      Envelope.decodeKeyChecked bytes coding keyClass scheme paramSet =
          ofDecoded (Envelope.decodeKey bytes coding keyClass scheme paramSet) ∧
        ∀ f, Envelope.decodeKeyChecked bytes coding keyClass scheme paramSet ≠
          .error (.fault f)) ∧
    (∀ (bytes : Bytes) (coding : KeyCoding),
      Envelope.decodeSignatureChecked bytes coding =
          ofDecoded (Envelope.decodeSignature bytes coding) ∧
        ∀ f, Envelope.decodeSignatureChecked bytes coding ≠ .error (.fault f)) ∧
    (∀ (coded : Bytes) (i j : Nat) (here : RangeCoder.Paused),
      RangeCoder.decoderAt coded i j = .ok here →
        (∀ node, 31 ≤ here.model.odds node ∧ here.model.odds node ≤ 2017) ∧
          2 ^ 24 ≤ here.decoder.range ∧ here.decoder.range < 2 ^ 32 ∧
          here.decoder.code < 2 ^ 32) ∧
    (∀ (coding : KeyCoding) (coded : Bytes) (rawLength : Nat) (raw : Bytes),
      coding.decode coded rawLength = .ok raw → raw.length = rawLength) ∧
    ∀ (bytes : Bytes) (coding : KeyCoding) (keyClass : KeyClass) (scheme : SchemeId)
        (paramSet : UInt32),
      Envelope.decodeKey bytes coding keyClass scheme paramSet = .error .lengthMismatch →
        coding.decode (bytes.drop 12) (Bytes.ofBE ((bytes.take 12).drop 8)) =
          .error .lengthMismatch := by
  refine ⟨?_, ?_, ?_, ?_, ?_, ?_⟩
  · intro coding coded rawLength h
    have heq := coding.decodeChecked_eq coded h
    exact ⟨heq, fun f => heq ▸ ofDecoded_ne_fault _ f⟩
  · intro bytes coding keyClass scheme paramSet
    have heq := Envelope.decodeKeyChecked_eq bytes coding keyClass scheme paramSet
    exact ⟨heq, fun f => heq ▸ ofDecoded_ne_fault _ f⟩
  · intro bytes coding
    have heq := Envelope.decodeSignatureChecked_eq bytes coding
    exact ⟨heq, fun f => heq ▸ ofDecoded_ne_fault _ f⟩
  · intro coded i j here h
    have hstable := RangeCoder.stable_decoderAt h
    exact ⟨hstable.sound, hstable.steady.floor_le, hstable.steady.range_lt,
      hstable.steady.code_lt⟩
  · intro coding coded rawLength raw h
    exact KeyCoding.length_of_decode h
  · intro bytes coding keyClass scheme paramSet h
    exact Envelope.decodeKey_eq_lengthMismatch h

/-- A code beyond every range, a table that leaves bit strings over, and a key with a
byte too many. -/
theorem decoders_are_safe_on_three_buffers :
    1 ≤ Envelope.maxRawLength ∧
      (∀ f, KeyCoding.bac.decodeChecked [0, 0xff, 0xff, 0xff, 0xff] 1 ≠ .error (.fault f)) ∧
      (∃ here, RangeCoder.decoderAt [0, 0xff, 0xff, 0xff, 0xff] 0 3 = .ok here ∧
        2 ^ 24 ≤ here.decoder.range) ∧
      KeyCoding.strongSwan.decode [0, 1, 7, 2, 0x00, 0xff] 4 = .ok [7, 7, 7, 7] ∧
      ([7, 7, 7, 7] : Bytes).length = 4 ∧
      Envelope.decodeKey [1, 0, 0, 13, 0, 0, 0, 2, 0, 0, 0, 1, 8, 9] .raw .publicKey .kemKyber 2 =
        .error .lengthMismatch ∧
      KeyCoding.raw.decode [8, 9] 1 = .error .lengthMismatch := by
  have hok : (RangeCoder.decoderAt [0, 0xff, 0xff, 0xff, 0xff] 0 3).isOk := by decide +kernel
  have hpaused : ∃ here, RangeCoder.decoderAt [0, 0xff, 0xff, 0xff, 0xff] 0 3 = .ok here := by
    cases h : RangeCoder.decoderAt [0, 0xff, 0xff, 0xff, 0xff] 0 3 with
    | error e => exact absurd (h ▸ hok) (by simp [Except.isOk, Except.toBool])
    | ok here => exact ⟨here, rfl⟩
  have hraw : KeyCoding.strongSwan.decode [0, 1, 7, 2, 0x00, 0xff] 4 = .ok [7, 7, 7, 7] := by
    decide +kernel
  have hkey : Envelope.decodeKey [1, 0, 0, 13, 0, 0, 0, 2, 0, 0, 0, 1, 8, 9] .raw .publicKey
      .kemKyber 2 = .error .lengthMismatch := by
    decide +kernel
  obtain ⟨hcodings, -, -, hsteady, hlength, hmismatch⟩ := decoders_are_safe
  obtain ⟨here, hhere⟩ := hpaused
  exact ⟨by decide, (hcodings .bac _ 1 (by decide)).2, ⟨here, hhere, (hsteady _ _ _ _ hhere).2.1⟩,
    hraw, hlength _ _ _ _ hraw, hkey, hmismatch _ _ _ _ _ hkey⟩

end LatticeSuite
