import LatticeSuite.Coding.Envelope
import LatticeSuite.Proofs.Coding.Runs
import LatticeSuite.Proofs.Huffman.Table

/-!
# What an envelope holds, and what a cut of it does not

An envelope is a header of fixed width and a coded payload, and the five
codings differ in the payload only. So the reader is opened once, behind a
header that was written for the same coding, slot, scheme and parameter set
(`decodeKey_header`, `decodeSignature_header`). What is left of it reads the
declared length and hands the payload to the decoder of the coding. There are
two questions to ask then, each answered by one lemma about all five codings:
what a decoder does on a whole payload (`KeyCoding.decode_encode`), and what
it does on a cut one (`KeyCoding.decode_truncated`).

> `decodeKey (encodeKey key c) c … = .ok key`, up to the longest payload that a
> header may declare and no further.

> Every proper prefix of an envelope is refused as truncated.

The second statement would fail for a coder that writes a byte too many: its
reader would be done before the end. That none of them does is a statement
about the flush of the range coder and about the fill of the last byte of a bit
stream, and it is proved where these are.
-/

namespace LatticeSuite

/-! ## The five codings -/

/-- A header declares nothing long enough for a word that a table may not. -/
theorem Huffman.lt_fib_of_le {n : Nat} (h : n ≤ Envelope.maxRawLength) :
    n < Nat.fib (maxLength + 3) :=
  Nat.lt_of_le_of_lt h (by decide +kernel)

namespace KeyCoding

/-- **Every decoder inverts its coder.** -/
theorem decode_encode (coding : KeyCoding) {raw : Bytes}
    (h : raw.length ≤ Envelope.maxRawLength) :
    coding.decode (coding.encode raw) raw.length = .ok raw := by
  -- the pairs of a string must be counted in four bytes, and its code words be short
  have hruns : raw.length < 2 ^ 31 := Nat.lt_of_le_of_lt h (by decide)
  have hwords := Huffman.lt_fib_of_le h
  cases coding with
  | raw =>
    show decodeRaw raw raw.length = _
    rw [decodeRaw, if_neg (Nat.lt_irrefl _), if_neg (Nat.lt_irrefl _)]
  | bac => exact RangeCoder.decode_encode raw
  | bacRle => exact RunCoder.decode_encode hruns
  | huffmanStatic => exact Huffman.decode_encode .dense hwords
  | strongSwan => exact Huffman.decode_encode .sparse hwords

/-- **Every decoder needs the last byte** that its coder writes. -/
theorem decode_truncated (coding : KeyCoding) {raw cut : Bytes}
    (h : raw.length ≤ Envelope.maxRawLength) (hcut : ProperPrefix cut (coding.encode raw)) :
    coding.decode cut raw.length = .error .truncated := by
  have hruns : raw.length < 2 ^ 31 := Nat.lt_of_le_of_lt h (by decide)
  have hwords := Huffman.lt_fib_of_le h
  cases coding with
  | raw =>
    have hshort : cut.length < raw.length := hcut.length_lt
    show decodeRaw cut raw.length = _
    rw [decodeRaw, if_pos hshort]
  | bac => exact RangeCoder.decode_truncated hcut
  | bacRle => exact RunCoder.decode_truncated hruns hcut
  | huffmanStatic => exact Huffman.decode_truncated .dense hwords hcut
  | strongSwan => exact Huffman.decode_truncated .sparse hwords hcut

end KeyCoding

namespace Envelope

/-! ## The declared length -/

theorem readRawLength_toBE {n : Nat} (h : n ≤ maxRawLength) :
    readRawLength (Bytes.toBE 4 n) = .ok n := by
  have hfield : n < 256 ^ 4 := Nat.lt_of_le_of_lt h (by decide)
  rw [readRawLength, Bytes.ofBE_toBE_of_lt hfield]
  exact if_neg (Nat.not_lt.mpr h)

theorem readRawLength_toBE_of_lt {n : Nat} (h : maxRawLength < n) (hfield : n < 256 ^ 4) :
    readRawLength (Bytes.toBE 4 n) = .error (.malformed "declared length too large") := by
  rw [readRawLength, Bytes.ofBE_toBE_of_lt hfield]
  exact if_pos h

theorem readRawLength_eq_ok {field : Bytes} {n : Nat} (h : readRawLength field = .ok n) :
    Bytes.ofBE field = n := by
  unfold readRawLength at h
  dsimp only at h
  split at h
  next => exact absurd h (by simp)
  next => exact Except.ok.inj h

theorem exists_four_bytes {bs : Bytes} (h : bs.length = 4) : ∃ a b c d, bs = [a, b, c, d] := by
  match bs, h with
  | [a, b, c, d], _ => exact ⟨a, b, c, d, rfl⟩

/-! ## Key envelopes -/

/-- What comes before the payload of a key. -/
def keyHeader (key : KeyMaterial) (coding : KeyCoding) : Bytes :=
  [version, coding.tag, key.keyClass.tag, key.scheme.number] ++
    Bytes.toBE 4 key.paramSet.toNat ++ Bytes.toBE 4 key.length

@[simp] theorem length_keyHeader (key : KeyMaterial) (coding : KeyCoding) :
    (keyHeader key coding).length = 12 := by
  simp [keyHeader]

/-- A header tells what it was made for. -/
theorem keyHeader_inj {key key' : KeyMaterial} {coding coding' : KeyCoding} {bs bs' : Bytes}
    (h : keyHeader key coding ++ bs = keyHeader key' coding' ++ bs') :
    coding = coding' ∧ key.keyClass = key'.keyClass ∧ key.scheme = key'.scheme ∧
      key.paramSet = key'.paramSet ∧ key.length % 2 ^ 32 = key'.length % 2 ^ 32 := by
  have hheader := List.append_inj_left h (by simp)
  unfold keyHeader at hheader
  obtain ⟨hfields, hlength⟩ := List.append_inj hheader (by simp)
  obtain ⟨htags, hparam⟩ := List.append_inj hfields rfl
  obtain ⟨-, htags⟩ := List.cons.inj htags
  obtain ⟨hcoding, htags⟩ := List.cons.inj htags
  obtain ⟨hclass, htags⟩ := List.cons.inj htags
  refine ⟨KeyCoding.tag_inj hcoding, KeyClass.tag_inj hclass,
    SchemeId.number_inj (List.cons.inj htags).1, UInt32.toNat_inj.mp ?_, ?_⟩
  · rw [← Bytes.ofBE_toBE_of_lt (w := 4) key.paramSet.toNat_lt, hparam,
      Bytes.ofBE_toBE_of_lt key'.paramSet.toNat_lt]
  · have hnumber := congrArg Bytes.ofBE hlength
    rw [Bytes.ofBE_toBE, Bytes.ofBE_toBE] at hnumber
    exact hnumber

theorem encodeKey_eq (key : KeyMaterial) (coding : KeyCoding) :
    encodeKey key coding = keyHeader key coding ++ coding.encode key.bytes :=
  rfl

/-- Behind its own header a key envelope is its declared length and its payload. -/
theorem decodeKey_header (key : KeyMaterial) (coding : KeyCoding) (payload : Bytes) :
    decodeKey (keyHeader key coding ++ payload) coding key.keyClass key.scheme key.paramSet =
      (readRawLength (Bytes.toBE 4 key.length)).bind fun n =>
        (coding.decode payload n).bind fun raw =>
          if raw.length ≠ n then .error .lengthMismatch else .ok { key with bytes := raw } := by
  have hparam : Bytes.ofBE (Bytes.toBE 4 key.paramSet.toNat) = key.paramSet.toNat :=
    Bytes.ofBE_toBE_of_lt key.paramSet.toNat_lt
  -- the reader takes the two numbers apart byte by byte
  obtain ⟨p₀, p₁, p₂, p₃, hp⟩ := exists_four_bytes (Bytes.length_toBE 4 key.paramSet.toNat)
  obtain ⟨n₀, n₁, n₂, n₃, hn⟩ := exists_four_bytes (Bytes.length_toBE 4 key.length)
  rw [hp] at hparam
  rw [keyHeader, hp, hn]
  simp only [List.cons_append, List.nil_append, decodeKey, hparam, ne_eq, not_true, or_self,
    if_false]
  rfl

/-- A buffer too short for a header is truncated whatever it is read as. -/
theorem decodeKey_short {bytes : Bytes} (h : bytes.length < 12) (coding : KeyCoding)
    (keyClass : KeyClass) (scheme : SchemeId) (paramSet : UInt32) :
    decodeKey bytes coding keyClass scheme paramSet = .error .truncated := by
  unfold decodeKey
  split
  next =>
    simp only [List.length_cons] at h
    omega
  next => rfl

theorem decodeKey_encodeKey {key : KeyMaterial} (h : key.length ≤ maxRawLength)
    (coding : KeyCoding) :
    decodeKey (encodeKey key coding) coding key.keyClass key.scheme key.paramSet = .ok key := by
  have hlength : ¬key.bytes.length ≠ key.length := fun hne => hne rfl
  have hpayload : coding.decode (coding.encode key.bytes) key.length = .ok key.bytes :=
    coding.decode_encode h
  rw [encodeKey_eq, decodeKey_header, readRawLength_toBE h, Except.bind, hpayload, Except.bind,
    if_neg hlength]

/-- The reader field by field. -/
theorem decodeKey_fields (coding : KeyCoding) (keyClass : KeyClass) (scheme : SchemeId)
    (paramSet : UInt32) (v c k s p₀ p₁ p₂ p₃ n₀ n₁ n₂ n₃ : UInt8) (payload : Bytes) :
    decodeKey (v :: c :: k :: s :: p₀ :: p₁ :: p₂ :: p₃ :: n₀ :: n₁ :: n₂ :: n₃ :: payload)
        coding keyClass scheme paramSet =
      if v ≠ version then .error (.unsupportedVersion v)
      else if c ≠ coding.tag then .error (.codingMismatch coding c)
      else if k ≠ keyClass.tag then .error (.keyClassMismatch keyClass)
      else if s ≠ scheme.number ∨ Bytes.ofBE [p₀, p₁, p₂, p₃] ≠ paramSet.toNat then
        .error .schemeMismatch
      else
        (readRawLength [n₀, n₁, n₂, n₃]).bind fun n =>
          (coding.decode payload n).bind fun raw =>
            if raw.length ≠ n then .error .lengthMismatch
            else .ok { keyClass, scheme, paramSet, bytes := raw } :=
  rfl

/-- Behind a header that is right: a payload of the declared length. -/
theorem payload_eq_ok {field payload : Bytes} {coding : KeyCoding} {key : KeyMaterial}
    {file : Bytes → KeyMaterial}
    (h : (readRawLength field).bind (fun n => (coding.decode payload n).bind fun raw =>
      if raw.length ≠ n then .error .lengthMismatch else .ok (file raw)) = .ok key) :
    ∃ raw, Bytes.ofBE field = raw.length ∧ coding.decode payload raw.length = .ok raw ∧
      key = file raw := by
  cases hfield : readRawLength field with
  | error e =>
    rw [hfield] at h
    exact absurd h (by simp [Except.bind])
  | ok n =>
    rw [hfield, Except.bind] at h
    cases hraw : coding.decode payload n with
    | error e =>
      rw [hraw] at h
      exact absurd h (by simp [Except.bind])
    | ok raw =>
      rw [hraw, Except.bind] at h
      split at h
      next => exact absurd h (by simp)
      next hlength =>
        obtain rfl := not_not.mp hlength
        exact ⟨raw, readRawLength_eq_ok hfield, hraw, (Except.ok.inj h).symm⟩

/-- What is read was written for the reader: behind the header that the key has
under the reader's coding there is nothing but the payload. -/
theorem decodeKey_eq_ok {bytes : Bytes} {coding : KeyCoding} {keyClass : KeyClass}
    {scheme : SchemeId} {paramSet : UInt32} {key : KeyMaterial}
    (h : decodeKey bytes coding keyClass scheme paramSet = .ok key) :
    key = { keyClass, scheme, paramSet, bytes := key.bytes } ∧
      ∃ payload, bytes = keyHeader key coding ++ payload ∧
        coding.decode payload key.length = .ok key.bytes := by
  match bytes, h with
  | v :: c :: k :: s :: p₀ :: p₁ :: p₂ :: p₃ :: n₀ :: n₁ :: n₂ :: n₃ :: payload, h =>
    rw [decodeKey_fields] at h
    -- each field is either wrong or the reader's own
    split at h
    next => exact absurd h (by simp)
    next hversion =>
      split at h
      next => exact absurd h (by simp)
      next hcoding =>
        split at h
        next => exact absurd h (by simp)
        next hclass =>
          split at h
          next => exact absurd h (by simp)
          next hscheme =>
            obtain ⟨hscheme, hparam⟩ := not_or.mp hscheme
            obtain ⟨raw, hfield, hraw, rfl⟩ := payload_eq_ok h
            have hp := Bytes.toBE_ofBE [p₀, p₁, p₂, p₃]
            have hn := Bytes.toBE_ofBE [n₀, n₁, n₂, n₃]
            rw [not_not.mp hparam] at hp
            rw [hfield] at hn
            refine ⟨rfl, payload, ?_, hraw⟩
            rw [keyHeader, KeyMaterial.length, ← not_not.mp hversion, ← not_not.mp hcoding,
              ← not_not.mp hclass, ← not_not.mp hscheme]
            show _ = _ ++ Bytes.toBE [p₀, p₁, p₂, p₃].length _ ++
              Bytes.toBE [n₀, n₁, n₂, n₃].length _ ++ payload
            rw [hp, hn]
            rfl

/-- The tag of another coding is noticed before anything else is. -/
theorem decodeKey_of_ne (key : KeyMaterial) {coding other : KeyCoding} (hne : other ≠ coding)
    (keyClass : KeyClass) (scheme : SchemeId) (paramSet : UInt32) :
    decodeKey (encodeKey key coding) other keyClass scheme paramSet =
      .error (.codingMismatch other coding.tag) := by
  have htag : coding.tag ≠ other.tag := fun h => hne (KeyCoding.tag_inj h).symm
  obtain ⟨p₀, p₁, p₂, p₃, hp⟩ := exists_four_bytes (Bytes.length_toBE 4 key.paramSet.toNat)
  obtain ⟨n₀, n₁, n₂, n₃, hn⟩ := exists_four_bytes (Bytes.length_toBE 4 key.length)
  have hversion : ¬version ≠ version := not_not.mpr rfl
  rw [encodeKey_eq, keyHeader, hp, hn]
  simp only [List.cons_append, List.nil_append]
  rw [decodeKey_fields, if_neg hversion, if_pos htag]

/-- The header of a key that is too long declares a length that is too large. -/
theorem decodeKey_encodeKey_of_lt {key : KeyMaterial} (h : maxRawLength < key.length)
    (hfield : key.length < 2 ^ 32) (coding : KeyCoding) :
    decodeKey (encodeKey key coding) coding key.keyClass key.scheme key.paramSet =
      .error (.malformed "declared length too large") := by
  rw [encodeKey_eq, decodeKey_header, readRawLength_toBE_of_lt h hfield]
  rfl

theorem decodeKey_cut {key : KeyMaterial} (h : key.length ≤ maxRawLength) {coding : KeyCoding}
    {cut : Bytes} (hcut : ProperPrefix cut (encodeKey key coding)) :
    decodeKey cut coding key.keyClass key.scheme key.paramSet = .error .truncated := by
  rw [encodeKey_eq] at hcut
  rcases hcut.append_cases with hheader | ⟨payload, rfl, hpayload⟩
  · have hshort := hheader.length_lt
    rw [length_keyHeader] at hshort
    exact decodeKey_short hshort coding _ _ _
  · -- the header is whole, so the decoder of the coding is asked
    have htruncated : coding.decode payload key.length = .error .truncated :=
      coding.decode_truncated h hpayload
    rw [decodeKey_header, readRawLength_toBE h, Except.bind, htruncated]
    rfl

/-! ## Signature envelopes -/

/-- What comes before the payload of a signature. -/
def signatureHeader (signature : Bytes) (coding : KeyCoding) : Bytes :=
  coding.tag :: Bytes.toBE 4 signature.length

@[simp] theorem length_signatureHeader (signature : Bytes) (coding : KeyCoding) :
    (signatureHeader signature coding).length = 5 := by
  simp [signatureHeader]

theorem encodeSignature_eq (signature : Bytes) {coding : KeyCoding} (hcoded : coding ≠ .raw) :
    encodeSignature signature coding =
      signatureHeader signature coding ++ coding.encode signature := by
  rw [encodeSignature, if_neg hcoded, signatureHeader]

/-- The reader field by field. -/
theorem decodeSignature_fields {coding : KeyCoding} (hcoded : coding ≠ .raw)
    (c n₀ n₁ n₂ n₃ : UInt8) (payload : Bytes) :
    decodeSignature (c :: n₀ :: n₁ :: n₂ :: n₃ :: payload) coding =
      if c ≠ coding.tag then .error (.codingMismatch coding c)
      else (readRawLength [n₀, n₁, n₂, n₃]).bind (coding.decode payload) := by
  rw [decodeSignature, if_neg hcoded]
  cases readRawLength [n₀, n₁, n₂, n₃] <;> rfl

/-- Behind its own header a signature envelope is its declared length and its payload. -/
theorem decodeSignature_header (signature : Bytes) {coding : KeyCoding} (hcoded : coding ≠ .raw)
    (payload : Bytes) :
    decodeSignature (signatureHeader signature coding ++ payload) coding =
      (readRawLength (Bytes.toBE 4 signature.length)).bind (coding.decode payload) := by
  obtain ⟨n₀, n₁, n₂, n₃, hn⟩ := exists_four_bytes (Bytes.length_toBE 4 signature.length)
  rw [signatureHeader, hn]
  exact (decodeSignature_fields hcoded coding.tag n₀ n₁ n₂ n₃ payload).trans
    (if_neg (not_not.mpr rfl))

theorem decodeSignature_short {bytes : Bytes} (h : bytes.length < 5) {coding : KeyCoding}
    (hcoded : coding ≠ .raw) : decodeSignature bytes coding = .error .truncated := by
  unfold decodeSignature
  rw [if_neg hcoded]
  split
  next =>
    simp only [List.length_cons] at h
    omega
  next => rfl

theorem decodeSignature_encodeSignature {signature : Bytes} {coding : KeyCoding}
    (h : coding ≠ .raw → signature.length ≤ maxRawLength) :
    decodeSignature (encodeSignature signature coding) coding = .ok signature := by
  by_cases hcoded : coding = .raw
  · subst hcoded
    rfl
  · rw [encodeSignature_eq signature hcoded, decodeSignature_header signature hcoded,
      readRawLength_toBE (h hcoded), Except.bind, coding.decode_encode (h hcoded)]

theorem decodeSignature_cut {signature : Bytes} (h : signature.length ≤ maxRawLength)
    {coding : KeyCoding} (hcoded : coding ≠ .raw) {cut : Bytes}
    (hcut : ProperPrefix cut (encodeSignature signature coding)) :
    decodeSignature cut coding = .error .truncated := by
  rw [encodeSignature_eq signature hcoded] at hcut
  rcases hcut.append_cases with hheader | ⟨payload, rfl, hpayload⟩
  · have hshort := hheader.length_lt
    rw [length_signatureHeader] at hshort
    exact decodeSignature_short hshort hcoded
  · rw [decodeSignature_header signature hcoded, readRawLength_toBE h, Except.bind,
      coding.decode_truncated h hpayload]

/-! ## The two laws -/

/-- **Envelopes give back what they were made for.** Under each of the five
codings a key of at most `maxRawLength` bytes is read back from its envelope,
and so is a signature, of any length where there is no envelope. The bound is
exact: the envelope of a longer key is refused by its own reader. -/
theorem decodes_own_envelope (key : KeyMaterial) (signature : Bytes) (coding : KeyCoding) :
    (key.length ≤ maxRawLength →
      decodeKey (encodeKey key coding) coding key.keyClass key.scheme key.paramSet = .ok key) ∧
    ((coding ≠ .raw → signature.length ≤ maxRawLength) →
      decodeSignature (encodeSignature signature coding) coding = .ok signature) ∧
    (maxRawLength < key.length → key.length < 2 ^ 32 →
      decodeKey (encodeKey key coding) coding key.keyClass key.scheme key.paramSet =
        .error (.malformed "declared length too large")) :=
  ⟨fun h => decodeKey_encodeKey h coding, decodeSignature_encodeSignature,
    fun h hfield => decodeKey_encodeKey_of_lt h hfield coding⟩

/-- The law on a key of three bytes, on a signature of two and on a key that is
one byte too long. -/
theorem decodes_own_envelope_at_both_sides_of_the_bound :
    decodeKey (encodeKey ⟨.privateKey, .kemKyber, 3, [7, 7, 9]⟩ .huffmanStatic) .huffmanStatic
        .privateKey .kemKyber 3 = .ok ⟨.privateKey, .kemKyber, 3, [7, 7, 9]⟩ ∧
      decodeSignature (encodeSignature [0, 255] .bacRle) .bacRle = .ok [0, 255] ∧
      decodeKey (encodeKey ⟨.publicKey, .sigDilithium, 2, List.replicate (2 ^ 24 + 1) 0⟩ .bac) .bac
        .publicKey .sigDilithium 2 = .error (.malformed "declared length too large") := by
  refine ⟨?_, ?_, ?_⟩
  · exact (decodes_own_envelope ⟨.privateKey, .kemKyber, 3, [7, 7, 9]⟩ [] .huffmanStatic).1
      (by decide)
  · exact (decodes_own_envelope ⟨.privateKey, .kemKyber, 3, []⟩ [0, 255] .bacRle).2.1
      fun _ => by decide
  · have hlength : (KeyMaterial.mk .publicKey .sigDilithium 2
        (List.replicate (2 ^ 24 + 1) 0)).length = 2 ^ 24 + 1 := List.length_replicate
    refine (decodes_own_envelope ⟨.publicKey, .sigDilithium, 2, List.replicate (2 ^ 24 + 1) 0⟩ []
      .bac).2.2 ?_ ?_
    · rw [hlength]
      decide
    · rw [hlength]
      decide

/-- **No cut goes unnoticed.** A reader refuses every proper prefix of an
envelope as truncated, be it of a key or of a signature and whatever the coding,
as long as there is an envelope and the whole of it could be read. -/
theorem refuses_every_cut (key : KeyMaterial) (signature : Bytes) (coding : KeyCoding) :
    (key.length ≤ maxRawLength → ∀ cut, ProperPrefix cut (encodeKey key coding) →
      decodeKey cut coding key.keyClass key.scheme key.paramSet = .error .truncated) ∧
    (signature.length ≤ maxRawLength → coding ≠ .raw →
      ∀ cut, ProperPrefix cut (encodeSignature signature coding) →
        decodeSignature cut coding = .error .truncated) :=
  ⟨fun h _ => decodeKey_cut h, fun h hcoded _ => decodeSignature_cut h hcoded⟩

/-- The law on the envelope of a key that lost its last byte and on that of a
signature that lost everything. -/
theorem refuses_every_cut_of_two_envelopes :
    decodeKey (encodeKey ⟨.publicKey, .kemKyber, 2, [1, 2, 3]⟩ .raw).dropLast .raw
        .publicKey .kemKyber 2 = .error .truncated ∧
      decodeSignature [] .strongSwan = .error .truncated := by
  refine ⟨?_, ?_⟩
  · exact (refuses_every_cut ⟨.publicKey, .kemKyber, 2, [1, 2, 3]⟩ [] .raw).1 (by decide) _
      ⟨[3], List.cons_ne_nil 3 [], rfl⟩
  · exact (refuses_every_cut ⟨.publicKey, .kemKyber, 2, []⟩ [5] .strongSwan).2 (by decide)
      (by decide) [] ⟨encodeSignature [5] .strongSwan, by simp [encodeSignature],
        (List.nil_append _).symm⟩

end Envelope

end LatticeSuite
