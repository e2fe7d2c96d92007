import LatticeSuite.Proofs.Checked.Envelope

/-!
# How much a coded buffer can stand for

Whoever sends an envelope chooses the length that its header declares, and space
is set aside for it before anything is decoded. What keeps this in proportion is
that coded bytes run out. For the raw coding, the run lengths and the Huffman codes
this is plain: a pair of bytes stands for 255 bytes at most, and a symbol takes a
bit. The range coder takes no fixed number of bits for anything, and nothing in it
says how many decisions a byte of input pays for.

What pays is the `span` of a decoder, its range in units of the last byte of the
input. Widening the range reads a byte and keeps the span. A decision narrows it,
and since no probability is beyond `2017 / 2048` it takes away a 67th at least:

> `span_decodeBits`: after `k` decisions, `67 ^ k * span' ≤ 66 ^ k * span`.

Sixty-four decisions halve the span, so the 512 decisions of 64 bytes use up a byte
of input, and one that has none left cannot go on, because a range is never below
its floor.
-/

namespace LatticeSuite

namespace RangeCoder

/-! ## The span of a decoder -/

/-- A decision leaves 66 parts of 67 at most. -/
theorem narrowed_le {range p : Nat} (hr : rangeFloor ≤ range) (hp : Odds p) (bit : Bool) :
    67 * narrowed range p bit ≤ 66 * range := by
  obtain ⟨hlo, hhi⟩ := hp
  have hfloor : 2 ^ 24 ≤ range := hr
  have h31 : range / 2048 * 31 ≤ range / 2048 * p := Nat.mul_le_mul_left _ hlo
  have h2017 : range / 2048 * p ≤ range / 2048 * 2017 := Nat.mul_le_mul_left _ hhi
  cases bit with
  | false =>
    show 67 * (range / 2048 * p) ≤ 66 * range
    omega
  | true =>
    show 67 * (range - range / 2048 * p) ≤ 66 * range
    omega

namespace Decoder

/-- The range, counted in units of the last byte of the input. -/
def span (d : Decoder) : Nat :=
  d.range * 256 ^ d.rest.length

/-- Widening the range by a byte of input keeps the span. -/
theorem span_renormalise {d d' : Decoder} (h : d.renormalise = .ok d') : d'.span = d.span := by
  unfold renormalise at h
  split at h
  next =>
    split at h
    next => exact nomatch h
    next b rest hrest =>
      rw [← Except.ok.inj h, span, span, hrest, List.length_cons]
      show d.range * 256 * 256 ^ rest.length = d.range * 256 ^ (rest.length + 1)
      rw [Nat.pow_succ', Nat.mul_assoc]
  next => rw [Except.ok.inj h]

theorem Steady.span_decodeBit {d d' : Decoder} (h : d.Steady) {p : Nat} (hp : Odds p)
    (hd : d.decodeBit p = .ok d') : 67 * d'.span ≤ 66 * d.span := by
  rw [d.decodeBit_eq] at hd
  have hnarrow := narrowed_le h.floor_le hp (d.bit p)
  rw [span_renormalise hd, span, span, ← Nat.mul_assoc, ← Nat.mul_assoc]
  exact Nat.mul_le_mul_right _ hnarrow

end Decoder

/-! ## What is left of it -/

/-- Losing a 67th again and again. -/
theorem pow_mul_le_trans {a b c j k : Nat} (h : 67 ^ j * b ≤ 66 ^ j * a)
    (h' : 67 ^ k * c ≤ 66 ^ k * b) : 67 ^ (j + k) * c ≤ 66 ^ (j + k) * a := by
  calc 67 ^ (j + k) * c = 67 ^ j * (67 ^ k * c) := by rw [Nat.pow_add, Nat.mul_assoc]
    _ ≤ 67 ^ j * (66 ^ k * b) := Nat.mul_le_mul_left _ h'
    _ = 66 ^ k * (67 ^ j * b) := Nat.mul_left_comm _ _ _
    _ ≤ 66 ^ k * (66 ^ j * a) := Nat.mul_le_mul_left _ h
    _ = 66 ^ (j + k) * a := by rw [← Nat.mul_assoc, ← Nat.pow_add, Nat.add_comm]

theorem span_decodeBits {s s' : Model × Decoder} (h : Stable s) {k node node' : Nat}
    (hs : decodeBits k node s = .ok (node', s')) : 67 ^ k * s'.2.span ≤ 66 ^ k * s.2.span := by
  induction k generalizing node s with
  | zero =>
    obtain ⟨-, rfl⟩ := Prod.mk.inj (Except.ok.inj hs)
    exact Nat.le_refl _
  | succ k ih =>
    obtain ⟨m, d⟩ := s
    rw [decodeBits_succ_eq] at hs
    obtain ⟨d', hd, hs⟩ := Decoded.exists_of_bind hs
    have hfirst : 67 ^ 1 * d'.span ≤ 66 ^ 1 * d.span := by
      rw [Nat.pow_one, Nat.pow_one]
      exact h.steady.span_decodeBit (h.sound node) hd
    have hrest := ih (h.decide node hd _) hs
    rw [Nat.add_comm]
    exact pow_mul_le_trans hfirst hrest

theorem span_decodeBytes {s s' : Model × Decoder} (h : Stable s) {k : Nat}
    {acc : List UInt8} {bs : Bytes} (hs : decodeBytes k acc s = .ok (bs, s')) :
    67 ^ (8 * k) * s'.2.span ≤ 66 ^ (8 * k) * s.2.span := by
  induction k generalizing acc s with
  | zero =>
    obtain ⟨-, rfl⟩ := Prod.mk.inj (Except.ok.inj hs)
    exact Nat.le_refl _
  | succ k ih =>
    rw [decodeBytes_succ_eq] at hs
    obtain ⟨⟨node, s₁⟩, hbits, hs⟩ := Decoded.exists_of_bind hs
    have hrest := ih (h.decodeBits hbits) hs
    rw [Nat.mul_succ, Nat.add_comm]
    exact pow_mul_le_trans (span_decodeBits h hbits) hrest

/-- A decoder begins with a span of less than the bytes behind its lead byte. -/
theorem span_start {coded : Bytes} {d : Decoder} (h : Decoder.start coded = .ok d) :
    d.span < 256 ^ (coded.length - 4) * 2 ^ 24 ∧ 5 ≤ coded.length := by
  unfold Decoder.start at h
  split at h
  next lead b₃ b₂ b₁ b₀ rest =>
    split at h
    next =>
      rw [← Except.ok.inj h, Decoder.span]
      simp only [List.length_cons]
      have hpos : 0 < 256 ^ rest.length := Nat.pow_pos (by decide)
      have hlength : rest.length + 1 + 1 + 1 + 1 + 1 - 4 = rest.length + 1 := by omega
      rw [hlength, Nat.pow_succ]
      omega
    next => exact nomatch h
  next => exact nomatch h

/-- Sixty-four decisions halve a span. -/
theorem two_mul_pow_le : 2 * 66 ^ 64 ≤ 67 ^ 64 := by
  decide

/-- So 64 bytes use up a byte of input. -/
theorem pow_span_le (j : Nat) : 256 ^ j * 66 ^ (8 * (64 * j)) ≤ 67 ^ (8 * (64 * j)) := by
  have hexp : 8 * (64 * j) = 64 * (8 * j) := by omega
  calc 256 ^ j * 66 ^ (8 * (64 * j)) = (2 * 66 ^ 64) ^ (8 * j) := by
        rw [hexp, Nat.mul_pow, ← Nat.pow_mul, Nat.pow_mul 2]
    _ ≤ (67 ^ 64) ^ (8 * j) := Nat.pow_le_pow_left two_mul_pow_le _
    _ = 67 ^ (8 * (64 * j)) := by rw [hexp, ← Nat.pow_mul]

/-- **A byte pays for 64 bytes at most.** The first four pay for nothing. -/
theorem length_lt_of_decode {coded raw : Bytes} {rawLength : Nat}
    (h : decode coded rawLength = .ok raw) : rawLength < 64 * (coded.length - 4) := by
  rw [decode_eq_bind] at h
  obtain ⟨d, hstart, h⟩ := Decoded.exists_of_bind h
  obtain ⟨⟨bytes, s⟩, hbytes, -⟩ := Decoded.exists_of_map h
  have hstable := start_stable hstart
  have hspent := span_decodeBytes hstable hbytes
  have hfirst := (span_start hstart).1
  have hfloor : 2 ^ 24 ≤ s.2.span :=
    Nat.le_trans (hstable.decodeBytes hbytes).1.steady.floor_le
      (Nat.le_mul_of_pos_right _ (Nat.pow_pos (by decide)))
  generalize coded.length - 4 = j at hfirst ⊢
  by_contra hmany
  obtain ⟨extra, rfl⟩ := Nat.exists_eq_add_of_le (Nat.le_of_not_lt hmany)
  -- the decisions of `64 * j` bytes use up the span, and the others only lose more
  have hexp : 8 * (64 * j + extra) = 8 * (64 * j) + 8 * extra := Nat.mul_add _ _ _
  have hpos : 0 < 66 ^ (8 * (64 * j + extra)) := Nat.pow_pos (by decide)
  have hall : 256 ^ j * 66 ^ (8 * (64 * j + extra)) ≤ 67 ^ (8 * (64 * j + extra)) := by
    rw [hexp, Nat.pow_add, Nat.pow_add, ← Nat.mul_assoc]
    exact Nat.mul_le_mul (pow_span_le j) (Nat.pow_le_pow_left (by decide) _)
  refine Nat.lt_irrefl (66 ^ (8 * (64 * j + extra)) * d.span) ?_
  calc 66 ^ (8 * (64 * j + extra)) * d.span
      < 66 ^ (8 * (64 * j + extra)) * (256 ^ j * 2 ^ 24) := Nat.mul_lt_mul_of_pos_left hfirst hpos
    _ = 256 ^ j * 66 ^ (8 * (64 * j + extra)) * 2 ^ 24 := by
        rw [← Nat.mul_assoc, Nat.mul_comm (66 ^ _)]
    _ ≤ 67 ^ (8 * (64 * j + extra)) * s.2.span := Nat.mul_le_mul hall hfloor
    _ ≤ 66 ^ (8 * (64 * j + extra)) * d.span := hspent

end RangeCoder

/-! ## The other coders -/

/-- A pair unfolds to 255 bytes at most. -/
theorem RunLength.length_le_of_decodeFrom {rawLength length : Nat} {runs raw : Bytes}
    {acc : List UInt8} (h : decodeFrom rawLength runs length acc = .ok raw) :
    2 * rawLength ≤ 2 * length + 255 * runs.length := by
  fun_induction decodeFrom rawLength runs length acc with
  | case1 => cases h
  | case2 => cases h
  | case3 run b rest length acc _ _ ih =>
    have hrun := run.toNat_lt
    have hrest := ih h
    rw [List.length_cons, List.length_cons]
    omega
  | case4 => omega
  | case5 => cases h

theorem RunLength.length_le_of_decode {runs raw : Bytes} {rawLength : Nat}
    (h : decode runs rawLength = .ok raw) : 2 * rawLength ≤ 255 * runs.length := by
  rw [decode] at h
  split at h
  next => cases h
  next =>
    have hle := length_le_of_decodeFrom h
    omega

/-- Runs of 255 bytes, two bytes for each, and 64 of these bytes for one. -/
theorem RunCoder.length_le_of_decode {coded raw : Bytes} {rawLength : Nat}
    (h : decode coded rawLength = .ok raw) : rawLength ≤ 8160 * coded.length := by
  rw [decode] at h
  split at h
  next => cases h
  next =>
    dsimp only at h
    split at h
    next => cases h
    next =>
      split at h
      next => cases h
      next runs hruns =>
        have hcount := RangeCoder.length_of_decode hruns
        have hlt := RangeCoder.length_lt_of_decode hruns
        have hle := RunLength.length_le_of_decode h
        rw [List.length_drop] at hlt
        omega

namespace Huffman

/-- A symbol takes a bit at least. -/
theorem length_lt_of_decodeSymbol {groups : List (List UInt8)} {distance : Nat}
    {bits rest : List Bool} {s : UInt8} (h : decodeSymbol groups distance bits = .ok (s, rest)) :
    rest.length < bits.length := by
  induction groups generalizing distance bits with
  | nil => exact nomatch h
  | cons group groups ih =>
    cases bits with
    | nil => exact nomatch h
    | cons bit bits =>
      rw [decodeSymbol] at h
      split at h
      next =>
        rw [(Prod.mk.inj (Except.ok.inj h)).2]
        exact Nat.lt_succ_self _
      next => exact Nat.lt_succ_of_lt (ih h)

theorem length_le_of_decodeSymbols {groups : List (List UInt8)} {k : Nat} {bits : List Bool}
    {acc : List UInt8} {raw : Bytes} (h : decodeSymbols groups k bits acc = .ok raw) :
    k ≤ bits.length := by
  induction k generalizing bits acc with
  | zero => exact Nat.zero_le _
  | succ k ih =>
    rw [decodeSymbols_succ_eq] at h
    obtain ⟨⟨s, rest⟩, hsymbol, h⟩ := Decoded.exists_of_bind h
    exact Nat.succ_le_of_lt (Nat.lt_of_le_of_lt (ih h) (length_lt_of_decodeSymbol hsymbol))

/-- The bits are some of the buffer. -/
theorem TableFormat.length_le_of_read {f : TableFormat} {coded stream : Bytes} {l : CodeLengths}
    (h : f.read coded = .ok (l, stream)) : stream.length ≤ coded.length := by
  cases f with
  | dense =>
    rw [read] at h
    split at h
    next =>
      rw [← (Prod.mk.inj (Except.ok.inj h)).2, List.length_drop]
      exact Nat.sub_le _ _
    next => cases h
  | sparse =>
    rw [read] at h
    split at h
    next => cases h
    next =>
      dsimp only at h
      split at h
      next => cases h
      next =>
        split at h
        next => cases h
        next =>
          obtain ⟨l', -, hstream⟩ := Decoded.exists_of_map h
          rw [← (Prod.mk.inj hstream).2, List.length_drop, List.length_drop]
          omega

theorem length_le_of_decode {f : TableFormat} {coded raw : Bytes} {rawLength : Nat}
    (h : decode f coded rawLength = .ok raw) : rawLength ≤ 8 * coded.length := by
  obtain ⟨⟨l, stream⟩, hread, h⟩ := Decoded.exists_of_bind h
  obtain ⟨groups, -, h⟩ := Decoded.exists_of_bind h
  have hstream := TableFormat.length_le_of_read hread
  split at h
  next => exact nomatch h
  next =>
    have hbits := length_le_of_decodeSymbols h
    rw [Bytes.length_toBits] at hbits
    omega

end Huffman

/-! ## All codings -/

namespace KeyCoding

/-- The most bytes that a buffer of `m` bytes can stand for. -/
def capacity : KeyCoding → (m : Nat) → Nat
  | .raw, m => m
  | .bac, m => 64 * m
  | .bacRle, m => 8160 * m
  | .huffmanStatic, m => 8 * m
  | .strongSwan, m => 8 * m

theorem length_eq_of_decodeRaw {coded raw : Bytes} {rawLength : Nat}
    (h : decodeRaw coded rawLength = .ok raw) : rawLength = coded.length := by
  rw [decodeRaw] at h
  split at h
  next => cases h
  next =>
    split at h
    next => cases h
    next => omega

/-- **No buffer stands for more than its capacity.** -/
theorem le_capacity_of_decode {coding : KeyCoding} {coded raw : Bytes} {rawLength : Nat}
    (h : coding.decode coded rawLength = .ok raw) : rawLength ≤ coding.capacity coded.length := by
  cases coding with
  | raw => exact Nat.le_of_eq (length_eq_of_decodeRaw h)
  | bac =>
    have hlt := RangeCoder.length_lt_of_decode h
    show rawLength ≤ 64 * coded.length
    omega
  | bacRle => exact RunCoder.length_le_of_decode h
  | huffmanStatic => exact Huffman.length_le_of_decode h
  | strongSwan => exact Huffman.length_le_of_decode h

end KeyCoding

namespace Envelope

/-- A key that is accepted has the length that its header declares. -/
theorem declared_of_decodeKey {bytes : Bytes} {coding : KeyCoding} {keyClass : KeyClass}
    {scheme : SchemeId} {paramSet : UInt32} {key : KeyMaterial}
    (h : decodeKey bytes coding keyClass scheme paramSet = .ok key) :
    coding.decode (bytes.drop 12) (Bytes.ofBE ((bytes.take 12).drop 8)) = .ok key.bytes := by
  by_cases hshort : bytes.length < 12
  · rw [decodeKey_short hshort] at h
    exact nomatch h
  · obtain ⟨v, c, k, s, p₀, p₁, p₂, p₃, n₀, n₁, n₂, n₃, hbytes⟩ :=
      exists_key_fields (Nat.le_of_not_lt hshort)
    generalize bytes.drop 12 = payload at hbytes ⊢
    subst hbytes
    rw [decodeKey_fields] at h
    split_ifs at h
    obtain ⟨raw, hfield, hraw, rfl⟩ := payload_eq_ok h
    show coding.decode payload (Bytes.ofBE [n₀, n₁, n₂, n₃]) = .ok raw
    rw [hfield]
    exact hraw

theorem declared_of_decodeSignature {bytes signature : Bytes} {coding : KeyCoding}
    (hcoded : coding ≠ .raw) (h : decodeSignature bytes coding = .ok signature) :
    coding.decode (bytes.drop 5) (Bytes.ofBE ((bytes.take 5).drop 1)) = .ok signature := by
  by_cases hshort : bytes.length < 5
  · rw [decodeSignature_short hshort hcoded] at h
    exact nomatch h
  · obtain ⟨c, n₀, n₁, n₂, n₃, hbytes⟩ := exists_signature_fields (Nat.le_of_not_lt hshort)
    generalize bytes.drop 5 = payload at hbytes ⊢
    subst hbytes
    rw [decodeSignature_fields hcoded] at h
    split_ifs at h
    obtain ⟨n, hfield, h⟩ := Decoded.exists_of_bind h
    show coding.decode payload (Bytes.ofBE [n₀, n₁, n₂, n₃]) = .ok signature
    rw [readRawLength_eq_ok hfield]
    exact h

end Envelope

/-- **A coded buffer stands for no more than its capacity**, and an envelope that
declares more is refused. So space that is cut down to the capacity where more is
declared is never too small for what is decoded. -/
theorem amplification_is_bounded :
    (∀ (coding : KeyCoding) (coded : Bytes) (rawLength : Nat) (raw : Bytes),
      coding.decode coded rawLength = .ok raw →
        rawLength ≤ coding.capacity coded.length ∧
          (coding = .raw → rawLength = coded.length) ∧
          raw.length = min rawLength (coding.capacity coded.length)) ∧
    (∀ (bytes : Bytes) (coding : KeyCoding) (keyClass : KeyClass) (scheme : SchemeId)
        (paramSet : UInt32),
      coding.capacity (bytes.length - 12) < Bytes.ofBE ((bytes.take 12).drop 8) →
        ∃ e, Envelope.decodeKey bytes coding keyClass scheme paramSet = .error e) ∧
    ∀ (bytes : Bytes) (coding : KeyCoding), coding ≠ .raw →
      coding.capacity (bytes.length - 5) < Bytes.ofBE ((bytes.take 5).drop 1) →
        ∃ e, Envelope.decodeSignature bytes coding = .error e := by
  refine ⟨?_, ?_, ?_⟩
  · intro coding coded rawLength raw h
    have hle := KeyCoding.le_capacity_of_decode h
    refine ⟨hle, ?_, ?_⟩
    · rintro rfl
      exact KeyCoding.length_eq_of_decodeRaw h
    · rw [KeyCoding.length_of_decode h, Nat.min_eq_left hle]
  · intro bytes coding keyClass scheme paramSet hdeclared
    cases h : Envelope.decodeKey bytes coding keyClass scheme paramSet with
    | error e => exact ⟨e, rfl⟩
    | ok key =>
      have hle := KeyCoding.le_capacity_of_decode (Envelope.declared_of_decodeKey h)
      rw [List.length_drop] at hle
      exact absurd hle (Nat.not_le_of_gt hdeclared)
  · intro bytes coding hcoded hdeclared
    cases h : Envelope.decodeSignature bytes coding with
    | error e => exact ⟨e, rfl⟩
    | ok signature =>
      have hle := KeyCoding.le_capacity_of_decode (Envelope.declared_of_decodeSignature hcoded h)
      rw [List.length_drop] at hle
      exact absurd hle (Nat.not_le_of_gt hdeclared)

/-- A run of 255 bytes in eleven, a key that declares a byte more than 40 bits are good
for, and a signature that declares one more than 64 times its six bytes. -/
theorem amplification_is_bounded_of_three_buffers :
    KeyCoding.bacRle.decode [0, 0, 0, 2, 0, 255, 6, 196, 0, 0, 0] 255 =
        .ok (List.replicate 255 7) ∧
      255 ≤ KeyCoding.bacRle.capacity 11 ∧
      KeyCoding.strongSwan.capacity 5 < Bytes.ofBE [0, 0, 0, 41] ∧
      (∃ e, Envelope.decodeKey [1, 4, 0, 13, 0, 0, 0, 2, 0, 0, 0, 41, 0, 1, 7, 1, 0] .strongSwan
        .publicKey .kemKyber 2 = .error e) ∧
      KeyCoding.bac.capacity 6 < Bytes.ofBE [0, 0, 1, 129] ∧
      ∃ e, Envelope.decodeSignature [1, 0, 0, 1, 129, 0, 0, 0, 0, 0, 0] .bac = .error e := by
  have hruns : KeyCoding.bacRle.decode [0, 0, 0, 2, 0, 255, 6, 196, 0, 0, 0] 255 =
      .ok (List.replicate 255 7) := by
    decide +kernel
  obtain ⟨hcodings, hkeys, hsignatures⟩ := amplification_is_bounded
  exact ⟨hruns, (hcodings _ _ _ _ hruns).1, by decide, hkeys _ _ _ _ _ (by decide), by decide,
    hsignatures _ _ (by decide) (by decide)⟩

end LatticeSuite
