import LatticeSuite.Proofs.Coding.Envelope

/-!
# What a decoder leaves unread

A decoder is told how many bytes to expect, and the four entropy decoders stop
as soon as they have them. That the buffer ends there is checked by nobody:

> A coded buffer with anything behind it decodes to what it decodes to without
> it (`KeyCoding.decode_append`).

The raw coding is the exception, because there the number of bytes expected is
the number of bytes in the buffer (`decodeRaw_append`).

For each decoder it is the streaming form of its round trip that says so. The
range decoder goes the same way with more input behind its own
(`decodeBytes_extend`), the pairs of the run coder are counted in front of them,
and the bit reader gives the symbols back whatever bits follow. An envelope adds
nothing to this: its header declares the length of what is coded and not the
length of the code. So a signature in an envelope has many accepted forms,
against what strict decoding is meant to exclude.
-/

namespace LatticeSuite

namespace RangeCoder

theorem Decoder.start_append {F : Bytes} {d : Decoder} (h : start F = .ok d) (t : Bytes) :
    start (F ++ t) = .ok (d.extend t) := by
  unfold start at h
  split at h
  next lead b₃ b₂ b₁ b₀ rest =>
    split at h
    next hlead =>
      rw [← Except.ok.inj h]
      exact if_pos hlead
    next => exact absurd h (by simp)
  next => exact absurd h (by simp)

/-- The range decoder does not look behind what it needs. -/
theorem decode_append (raw t : Bytes) : decode (encode raw ++ t) raw.length = .ok raw := by
  obtain ⟨d, s, hd, hs, -⟩ := decodeBytes_encode raw
  rw [decode, Decoder.start_append hd t]
  rcases decodeBytes_extend raw.length [] Model.initial d t with hcut | ⟨bs, m, d', hd', hext⟩
  · -- with its own input alone the decoder got through
    rw [hcut] at hs
    exact absurd hs (by simp)
  · rw [hd'] at hs
    obtain rfl : bs = raw := (Prod.mk.inj (Except.ok.inj hs)).1
    simp only [hext]
    rfl

end RangeCoder

theorem RunCoder.decode_encode_append {raw : Bytes} (h : raw.length < 2 ^ 31) (t : Bytes) :
    decode (encode raw ++ t) raw.length = .ok raw := by
  rw [encode, List.append_assoc, decode_append h, RangeCoder.decode_append]
  exact RunLength.decode_encode raw

theorem Huffman.decode_append (f : TableFormat) {raw : Bytes}
    (hlen : raw.length < Nat.fib (maxLength + 3))
    (t : Bytes) : decode f (encode f raw ++ t) raw.length = .ok raw := by
  obtain ⟨k, -, hbits⟩ := Bytes.toBits_ofBits ((codeLengths raw).encodeBits raw)
  rw [encode, List.append_assoc, decode_table f hlen, Bytes.toBits_append, hbits,
    CodeLengths.encodeBits_eq, List.append_assoc,
    decodeSymbols_flatMap raw [] _ (decodeSymbol_codeLengths hlen)]
  rfl

namespace KeyCoding

/-- **No entropy decoder looks behind the bytes that it needs.** -/
theorem decode_append {coding : KeyCoding} (hcoded : coding ≠ .raw) {raw : Bytes}
    (h : raw.length ≤ Envelope.maxRawLength) (t : Bytes) :
    coding.decode (coding.encode raw ++ t) raw.length = .ok raw := by
  have hruns : raw.length < 2 ^ 31 := Nat.lt_of_le_of_lt h (by decide)
  have hwords := Huffman.lt_fib_of_le h
  cases coding with
  | raw => exact absurd rfl hcoded
  | bac => exact RangeCoder.decode_append raw t
  | bacRle => exact RunCoder.decode_encode_append hruns t
  | huffmanStatic => exact Huffman.decode_append .dense hwords t
  | strongSwan => exact Huffman.decode_append .sparse hwords t

/-- The raw decoder refuses what is too long. -/
theorem decodeRaw_append (raw : Bytes) {t : Bytes} (ht : t ≠ []) :
    decodeRaw (raw ++ t) raw.length = .error .lengthMismatch := by
  have hpos := List.length_pos_iff.mpr ht
  rw [decodeRaw, if_neg (by rw [List.length_append]; omega),
    if_pos (by rw [List.length_append]; omega)]

end KeyCoding

namespace Envelope

theorem decodeKey_append {key : KeyMaterial} (h : key.length ≤ maxRawLength) {coding : KeyCoding}
    (hcoded : coding ≠ .raw) (t : Bytes) :
    decodeKey (encodeKey key coding ++ t) coding key.keyClass key.scheme key.paramSet =
      .ok key := by
  have hlength : ¬key.bytes.length ≠ key.length := fun hne => hne rfl
  have hpayload : coding.decode (coding.encode key.bytes ++ t) key.length = .ok key.bytes :=
    KeyCoding.decode_append hcoded h t
  rw [encodeKey_eq, List.append_assoc, decodeKey_header, readRawLength_toBE h, Except.bind,
    hpayload, Except.bind, if_neg hlength]

theorem decodeKey_raw_append {key : KeyMaterial} (h : key.length ≤ maxRawLength) {t : Bytes}
    (ht : t ≠ []) :
    decodeKey (encodeKey key .raw ++ t) .raw key.keyClass key.scheme key.paramSet =
      .error .lengthMismatch := by
  have hpayload : KeyCoding.raw.decode (KeyCoding.raw.encode key.bytes ++ t) key.length =
      .error .lengthMismatch := KeyCoding.decodeRaw_append key.bytes ht
  rw [encodeKey_eq, List.append_assoc, decodeKey_header, readRawLength_toBE h, Except.bind,
    hpayload]
  rfl

theorem decodeSignature_append {signature : Bytes} (h : signature.length ≤ maxRawLength)
    {coding : KeyCoding} (hcoded : coding ≠ .raw) (t : Bytes) :
    decodeSignature (encodeSignature signature coding ++ t) coding = .ok signature := by
  rw [encodeSignature_eq signature hcoded, List.append_assoc,
    decodeSignature_header signature hcoded, readRawLength_toBE h, Except.bind,
    KeyCoding.decode_append hcoded h t]

/-- **Only raw key envelopes are strict about their end.** Bytes behind the
envelope of a key make it unreadable under the raw coding. Under each of the
four others they are passed over, and so they are behind a coded signature,
which is accepted with any of them. -/
theorem only_raw_keys_refuse_leftover_bytes (key : KeyMaterial) (signature : Bytes)
    (coding : KeyCoding) :
    (key.length ≤ maxRawLength → ∀ t ≠ [],
      decodeKey (encodeKey key coding ++ t) coding key.keyClass key.scheme key.paramSet =
        if coding = .raw then .error .lengthMismatch else .ok key) ∧
    (signature.length ≤ maxRawLength → coding ≠ .raw →
      ∀ t, decodeSignature (encodeSignature signature coding ++ t) coding = .ok signature) := by
  refine ⟨?_, fun h hcoded t => decodeSignature_append h hcoded t⟩
  intro h t ht
  split
  next hraw =>
    subst hraw
    exact decodeKey_raw_append h ht
  next hcoded => exact decodeKey_append h hcoded t

/-- The law on two envelopes of a key with a byte behind them, and on the
envelope of a signature with two. -/
theorem only_raw_keys_refuse_leftover_bytes_of_three_envelopes :
    decodeKey (encodeKey ⟨.publicKey, .kemKyber, 2, [1, 2, 3]⟩ .raw ++ [0]) .raw
        .publicKey .kemKyber 2 = .error .lengthMismatch ∧
      decodeKey (encodeKey ⟨.publicKey, .kemKyber, 2, [1, 2, 3]⟩ .huffmanStatic ++ [0])
        .huffmanStatic .publicKey .kemKyber 2 = .ok ⟨.publicKey, .kemKyber, 2, [1, 2, 3]⟩ ∧
      decodeSignature (encodeSignature [5] .bacRle ++ [7, 7]) .bacRle = .ok [5] := by
  refine ⟨?_, ?_, ?_⟩
  · exact (only_raw_keys_refuse_leftover_bytes ⟨.publicKey, .kemKyber, 2, [1, 2, 3]⟩ [] .raw).1
      (by decide) [0] (by decide)
  · exact (only_raw_keys_refuse_leftover_bytes ⟨.publicKey, .kemKyber, 2, [1, 2, 3]⟩ []
      .huffmanStatic).1 (by decide) [0] (by decide)
  · exact (only_raw_keys_refuse_leftover_bytes ⟨.publicKey, .kemKyber, 2, []⟩ [5] .bacRle).2
      (by decide) (by decide) [7, 7]

/-- Neither a coded key nor a coded signature is refused for a byte behind it. -/
theorem not_forall_refuses_leftover_bytes :
    (¬∀ (key : KeyMaterial) (t : Bytes) (coding : KeyCoding), key.length ≤ maxRawLength →
      t ≠ [] → ∃ e, decodeKey (encodeKey key coding ++ t) coding key.keyClass key.scheme
        key.paramSet = .error e) ∧
    ¬∀ (signature t : Bytes) (coding : KeyCoding), signature.length ≤ maxRawLength →
      coding ≠ .raw → t ≠ [] →
        ∃ e, decodeSignature (encodeSignature signature coding ++ t) coding = .error e := by
  refine ⟨?_, ?_⟩
  · intro hstrict
    obtain ⟨e, he⟩ := hstrict ⟨.publicKey, .sigDilithium, 0, [1, 2, 3]⟩ [0] .bac (by decide)
      (by decide)
    rw [decodeKey_append (by decide) (by decide)] at he
    exact absurd he (by simp)
  · intro hstrict
    obtain ⟨e, he⟩ := hstrict [1, 2, 3] [0] .bac (by decide) (by decide) (by decide)
    rw [decodeSignature_append (by decide) (by decide)] at he
    exact absurd he (by simp)

end Envelope

end LatticeSuite
