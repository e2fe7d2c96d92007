import LatticeSuite.Proofs.Coding.Interval

/-!
# The range decoder walks in step with the encoder

`InStep e d F` ties a decoder `d` on the buffer `F` to the encoder `e` that
wrote `F`, at the same decision: equal ranges, the unread bytes are those
behind the digits of `e`, and `code` is the distance of the digits read from
the value of `e`. If `e` after a decision still covers `F`, the decoder takes
that decision and is in step again (`decodeBit_inStep`). Over the bits of a
byte and over all bytes this gives

> `decodeBytes_encode`: decoding what was encoded yields the bytes and leaves
> nothing unread.

The second half is about buffers that were cut. Reading on is all that a
decoder does with its buffer, so on a cut buffer it either ends short of
input or does exactly what it does on the whole (`decodeBytes_extend`). The
latter would leave unread what was cut off, while the whole is read to its
end: hence `decode_truncated`.
-/

namespace LatticeSuite.RangeCoder

open Bytes (ofBE ofBE_append ofBE_cons)
open Encoder (Live Covers)

/-! ## In step -/

/-- The decoder is where the encoder was. -/
structure InStep (e : Encoder) (d : Decoder) (F : Bytes) : Prop where
  rest : d.rest = F.drop (e.width + 4)
  range : d.range = e.range
  code : e.value + d.code = ofBE (F.take (e.width + 4))

/-- The decoder's side of a decision, before the range is widened. -/
def Decoder.narrow (d : Decoder) (p : Nat) (bit : Bool) : Decoder :=
  { d with code := d.code - offset d.range p bit, range := narrowed d.range p bit }

theorem Decoder.decodeBit_eq (d : Decoder) (p : Nat) :
    d.decodeBit p = (d.narrow p (d.bit p)).renormalise := by
  rw [decodeBit, narrow, offset]
  cases d.bit p <;> rfl

/-- The decoder finds its code in the part of the bit that was encoded. -/
theorem InStep.bit_eq {e : Encoder} {d : Decoder} {F : Bytes} (h : InStep e d F) {p : Nat}
    {bit : Bool} (hF : (e.narrow p bit).Covers F) : d.bit p = bit := by
  obtain ⟨-, hv, he⟩ := hF
  rw [Encoder.width_narrow, ← h.code] at hv he
  rw [Encoder.value_narrow] at hv he
  unfold Decoder.bit
  rw [h.range]
  -- a zero was put below the bound and a one above it, and the code is compared with the bound
  cases bit with
  | false =>
    have hr : (e.narrow p false).range = bound e.range p := rfl
    have ho : offset e.range p false = 0 := rfl
    rw [hr, ho] at he
    rw [decide_eq_false_iff_not]
    omega
  | true =>
    have ho : offset e.range p true = bound e.range p := rfl
    rw [ho] at hv
    rw [decide_eq_true_iff]
    omega

theorem InStep.narrow {e : Encoder} {d : Decoder} {F : Bytes} (h : InStep e d F) {p : Nat}
    {bit : Bool} (hF : (e.narrow p bit).Covers F) :
    InStep (e.narrow p bit) (d.narrow p bit) F := by
  have hv := hF.value_le
  rw [Encoder.width_narrow, ← h.code, Encoder.value_narrow] at hv
  refine ⟨h.rest, ?_, ?_⟩
  · show narrowed d.range p bit = narrowed e.range p bit
    rw [h.range]
  · rw [Encoder.width_narrow, Encoder.value_narrow, ← h.code]
    show e.value + offset e.range p bit + (d.code - offset d.range p bit) = e.value + d.code
    rw [h.range]
    omega

/-- Widening reads the next digit, if the widened encoder still covers the buffer. -/
theorem InStep.renormalise {e : Encoder} {d : Decoder} {r : Nat} {F : Bytes} (h : InStep e d F)
    (hs : e.Spans r) (hF : e.renormalise.Covers F) :
    ∃ d', d.renormalise = .ok d' ∧ InStep e.renormalise d' F := by
  by_cases hlt : e.range < rangeFloor
  · have hw := hF.width_le
    rw [Encoder.width_renormalise_of_lt hs hlt] at hw
    have hn : e.width + 4 < F.length := by omega
    have hrest : d.rest = F[e.width + 4] :: F.drop (e.width + 4 + 1) := by
      rw [h.rest]
      exact List.drop_eq_getElem_cons hn
    -- the code is inside a range below its floor, so the new code does not wrap
    have hend := (Covers.of_renormalise hs hF).lt_end
    rw [← h.code] at hend
    have hfloor : rangeFloor = 2 ^ 24 := rfl
    have hbyte := UInt8.toNat_lt F[e.width + 4]
    have hwrap : (d.code * 256 + F[e.width + 4].toNat) % 2 ^ 32 =
        d.code * 256 + F[e.width + 4].toNat := Nat.mod_eq_of_lt (by omega)
    refine ⟨{ code := d.code * 256 + F[e.width + 4].toNat, range := d.range * 256,
              rest := F.drop (e.width + 4 + 1) }, ?_, ?_⟩
    · unfold Decoder.renormalise
      rw [if_pos (h.range ▸ hlt), hrest]
      show Except.ok _ = _
      rw [hwrap]
    · refine ⟨?_, ?_, ?_⟩
      · rw [Encoder.width_renormalise_of_lt hs hlt, Nat.add_right_comm]
      · rw [Encoder.range_renormalise_of_lt hlt, ← h.range]
      · rw [Encoder.width_renormalise_of_lt hs hlt, Encoder.value_renormalise_of_lt hs hlt,
          show e.width + 1 + 4 = e.width + 4 + 1 from by omega, Encoder.ofBE_take_succ hn,
          ← h.code, Nat.add_mul]
        exact (Nat.add_assoc _ _ _).symm
  · refine ⟨d, ?_, ?_⟩
    · unfold Decoder.renormalise
      rw [if_neg (h.range ▸ hlt)]
    · rw [Encoder.renormalise_of_le (Nat.le_of_not_lt hlt)]
      exact h

/-- **One decision in step**: the bit that was encoded is taken. -/
theorem decodeBit_inStep {e : Encoder} {d : Decoder} {F : Bytes} (h : InStep e d F)
    (he : e.Live) {p : Nat} (hp : Odds p) {bit : Bool} (hF : (e.encodeBit p bit).Covers F) :
    d.bit p = bit ∧ ∃ d', d.decodeBit p = .ok d' ∧ InStep (e.encodeBit p bit) d' F := by
  rw [Encoder.encodeBit_eq] at hF ⊢
  have hs := he.spans_narrow hp bit
  have hnarrow := Covers.of_renormalise hs hF
  have hbit := h.bit_eq hnarrow
  refine ⟨hbit, ?_⟩
  rw [Decoder.decodeBit_eq, hbit]
  exact (h.narrow hnarrow).renormalise hs hF

/-! ## Bytes -/

/-- The decisions of `bits`, taken back. -/
theorem decodeBits_inStep (bits : List Bool) {m : Model} {e : Encoder} {d : Decoder}
    {F : Bytes} (node : Nat) (hm : m.Sound) (he : e.Live) (h : InStep e d F)
    (hF : (encodeBits bits node (m, e)).2.Covers F) :
    ∃ d', decodeBits bits.length node (m, d) =
        .ok (bits.foldl child node, (encodeBits bits node (m, e)).1, d') ∧
      InStep (encodeBits bits node (m, e)).2 d' F := by
  induction bits generalizing node m e d with
  | nil => exact ⟨d, rfl, h⟩
  | cons bit bits ih =>
    have hm' := hm.learn node bit
    have he' := he.encodeBit (hm node) bit
    have hF' : (encodeBits bits (child node bit)
        (m.learn node bit, e.encodeBit (m.odds node) bit)).2.Covers F := hF
    -- what is covered at the end is covered after the first decision
    have hcov := Encoder.covers_of_encodeBits bits (child node bit) hm' he' hF'
    obtain ⟨hbit, d₁, hd₁, hstep₁⟩ := decodeBit_inStep h he (hm node) hcov
    obtain ⟨d', hd', hstep'⟩ := ih (child node bit) hm' he' hstep₁ hF'
    refine ⟨d', ?_, hstep'⟩
    rw [List.length_cons, decodeBits]
    simp only [hd₁, hbit]
    exact hd'

/-- The node that the bits of a number lead to. -/
theorem foldl_child_bitsBE (k n node : Nat) :
    (bitsBE k n).foldl child node = node * 2 ^ k + n % 2 ^ k := by
  induction k generalizing node with
  | zero => simp [bitsBE, Nat.mod_one]
  | succ k ih =>
    -- the children of a node have twice its number
    have hbit : (n.testBit k).toNat = n / 2 ^ k % 2 := Nat.toNat_testBit n k
    rw [bitsBE, List.foldl_cons, ih, child, hbit, Nat.pow_succ, Nat.mod_mul]
    ring

theorem ofNat_node (b : UInt8) :
    UInt8.ofNat ((bitsBE 8 b.toNat).foldl child 1 - 256) = b := by
  have hb : b.toNat % 2 ^ 8 = b.toNat := Nat.mod_eq_of_lt (UInt8.toNat_lt b)
  rw [foldl_child_bitsBE, hb]
  show UInt8.ofNat (256 + b.toNat - 256) = b
  rw [Nat.add_sub_cancel_left, UInt8.ofNat_toNat]

/-- A model and an encoder ready for the next byte. -/
structure Ready (s : Model × Encoder) : Prop where
  sound : s.1.Sound
  live : s.2.Live

theorem ready_new : Ready (Model.initial, {}) :=
  ⟨Model.initial_sound, Encoder.live_new⟩

theorem Ready.encodeByte {s : Model × Encoder} (h : Ready s) (b : UInt8) :
    Ready (encodeByte s b) := by
  obtain ⟨hm, he⟩ := Encoder.live_encodeBits (bitsBE 8 b.toNat) 1 h.sound h.live
  exact ⟨hm, he⟩

theorem Ready.covers_of_encodeByte {s : Model × Encoder} (h : Ready s) {b : UInt8} {F : Bytes}
    (hF : (RangeCoder.encodeByte s b).2.Covers F) : s.2.Covers F :=
  Encoder.covers_of_encodeBits (bitsBE 8 b.toNat) 1 h.sound h.live hF

theorem Ready.foldl {s : Model × Encoder} (h : Ready s) (raw : Bytes) :
    Ready (raw.foldl RangeCoder.encodeByte s) := by
  induction raw generalizing s with
  | nil => exact h
  | cons b raw ih =>
    rw [List.foldl_cons]
    exact ih (h.encodeByte b)

theorem Ready.covers_of_foldl {s : Model × Encoder} (h : Ready s) {raw F : Bytes}
    (hF : (raw.foldl RangeCoder.encodeByte s).2.Covers F) : s.2.Covers F := by
  induction raw generalizing s with
  | nil => exact hF
  | cons b raw ih =>
    rw [List.foldl_cons] at hF
    exact h.covers_of_encodeByte (ih (h.encodeByte b) hF)

/-- The eight decisions of a byte, taken back. -/
theorem decodeByte_inStep {s : Model × Encoder} {d : Decoder} {F : Bytes} (b : UInt8)
    (hs : Ready s) (h : InStep s.2 d F) (hF : (encodeByte s b).2.Covers F) :
    ∃ d', decodeByte (s.1, d) = .ok (b, (encodeByte s b).1, d') ∧
      InStep (encodeByte s b).2 d' F := by
  obtain ⟨d', hd', hstep⟩ := decodeBits_inStep (bitsBE 8 b.toNat) 1 hs.sound hs.live h hF
  rw [length_bitsBE] at hd'
  refine ⟨d', ?_, hstep⟩
  rw [decodeByte, hd']
  simp only [Except.map, ofNat_node]
  rfl

/-- All bytes, taken back one after the other. -/
theorem decodeBytes_inStep (raw : Bytes) {s : Model × Encoder} {d : Decoder} {F : Bytes}
    (acc : List UInt8) (hs : Ready s) (h : InStep s.2 d F)
    (hF : (raw.foldl encodeByte s).2.Covers F) :
    ∃ d', decodeBytes raw.length acc (s.1, d) =
        .ok (acc.reverse ++ raw, (raw.foldl encodeByte s).1, d') ∧
      InStep (raw.foldl encodeByte s).2 d' F := by
  induction raw generalizing s d acc with
  | nil =>
    refine ⟨d, ?_, h⟩
    rw [List.append_nil]
    rfl
  | cons b raw ih =>
    rw [List.foldl_cons] at hF ⊢
    have hs' := hs.encodeByte b
    obtain ⟨d₁, hd₁, hstep₁⟩ := decodeByte_inStep b hs h (hs'.covers_of_foldl hF)
    obtain ⟨d', hd', hstep'⟩ := ih (b :: acc) hs' hstep₁ hF
    refine ⟨d', ?_, hstep'⟩
    rw [List.reverse_cons, List.append_assoc] at hd'
    rw [List.length_cons, decodeBytes, hd₁]
    exact hd'

theorem exists_lead {F : Bytes} (h : 5 ≤ F.length) :
    ∃ lead b₃ b₂ b₁ b₀ rest, F = lead :: b₃ :: b₂ :: b₁ :: b₀ :: rest := by
  match F, h with
  | lead :: b₃ :: b₂ :: b₁ :: b₀ :: rest, _ => exact ⟨lead, b₃, b₂, b₁, b₀, rest, rfl⟩

/-- A decoder starts in step with a new encoder that covers the buffer. -/
theorem start_inStep {F : Bytes} (hF : ({} : Encoder).Covers F) :
    ∃ d, Decoder.start F = .ok d ∧ InStep {} d F := by
  obtain ⟨hw, -, he⟩ := hF
  have hwidth : ({} : Encoder).width = 1 := rfl
  have hvalue : ({} : Encoder).value = 0 := rfl
  have hrange : ({} : Encoder).range = 2 ^ 32 - 1 := rfl
  rw [hwidth] at hw he
  rw [hvalue, hrange] at he
  obtain ⟨lead, b₃, b₂, b₁, b₀, rest, rfl⟩ := exists_lead hw
  have hsplit : ofBE ((lead :: b₃ :: b₂ :: b₁ :: b₀ :: rest).take (1 + 4)) =
      lead.toNat * 2 ^ 32 + ofBE [b₃, b₂, b₁, b₀] := by
    show ofBE (lead :: [b₃, b₂, b₁, b₀]) = _
    rw [ofBE_cons, show [b₃, b₂, b₁, b₀].length = 4 from rfl, show 256 ^ 4 = 2 ^ 32 from by decide]
  rw [hsplit] at he
  -- a first digit other than zero would put the digits beyond the range
  have hlead : lead = 0 := by
    apply UInt8.toNat.inj
    show lead.toNat = 0
    omega
  refine ⟨{ code := ofBE [b₃, b₂, b₁, b₀], rest }, ?_, rfl, rfl, ?_⟩
  · rw [Decoder.start, if_pos hlead]
  · have hzero : (0 : UInt8).toNat = 0 := rfl
    rw [hwidth, hsplit, hvalue, hlead, hzero, Nat.zero_mul]

/-- **Decoding what was encoded** yields the bytes and leaves nothing unread. -/
theorem decodeBytes_encode (raw : Bytes) :
    ∃ d s, Decoder.start (encode raw) = .ok d ∧
      decodeBytes raw.length [] (Model.initial, d) = .ok (raw, s) ∧ s.2.rest = [] := by
  have hlive := (ready_new.foldl raw).live
  have hF : (raw.foldl encodeByte (Model.initial, {})).2.Covers (encode raw) :=
    hlive.covers_finish
  obtain ⟨d, hd, hstart⟩ := start_inStep (ready_new.covers_of_foldl hF)
  obtain ⟨d', hd', hstep⟩ := decodeBytes_inStep raw [] ready_new hstart hF
  refine ⟨d, _, hd, hd', ?_⟩
  rw [hstep.rest, ← Encoder.length_finish hlive.spans]
  exact List.drop_length

theorem decode_encode (raw : Bytes) : decode (encode raw) raw.length = .ok raw := by
  obtain ⟨d, s, hd, hs, -⟩ := decodeBytes_encode raw
  rw [decode, hd]
  simp only [hs]
  rfl

/-! ## Cut buffers -/

/-- The decoder with more input behind its own. -/
def Decoder.extend (d : Decoder) (t : Bytes) : Decoder :=
  { d with rest := d.rest ++ t }

theorem Decoder.renormalise_extend (d : Decoder) (t : Bytes) :
    d.renormalise = .error .truncated ∨
      ∃ d', d.renormalise = .ok d' ∧ (d.extend t).renormalise = .ok (d'.extend t) := by
  obtain ⟨code, range, rest⟩ := d
  by_cases hlt : range < rangeFloor
  · cases rest with
    | nil => exact Or.inl (if_pos hlt)
    | cons b rest => exact Or.inr ⟨_, if_pos hlt, if_pos hlt⟩
  · exact Or.inr ⟨_, if_neg hlt, if_neg hlt⟩

theorem Decoder.decodeBit_extend (d : Decoder) (p : Nat) (t : Bytes) :
    d.decodeBit p = .error .truncated ∨
      ∃ d', d.decodeBit p = .ok d' ∧ (d.extend t).decodeBit p = .ok (d'.extend t) := by
  have hbit : (d.extend t).bit p = d.bit p := rfl
  rw [decodeBit_eq, decodeBit_eq, hbit]
  exact renormalise_extend (d.narrow p (d.bit p)) t

theorem decodeBits_extend (k node : Nat) (m : Model) (d : Decoder) (t : Bytes) :
    decodeBits k node (m, d) = .error .truncated ∨
      ∃ n m' d', decodeBits k node (m, d) = .ok (n, m', d') ∧
        decodeBits k node (m, d.extend t) = .ok (n, m', d'.extend t) := by
  induction k generalizing node m d with
  | zero => exact Or.inr ⟨node, m, d, rfl, rfl⟩
  | succ k ih =>
    have hbit : (d.extend t).bit (m.odds node) = d.bit (m.odds node) := rfl
    rw [decodeBits, decodeBits, hbit]
    rcases d.decodeBit_extend (m.odds node) t with hcut | ⟨d₁, hd₁, hext⟩
    · exact Or.inl (by rw [hcut])
    · simp only [hd₁, hext]
      exact ih _ _ d₁

theorem decodeByte_extend (m : Model) (d : Decoder) (t : Bytes) :
    decodeByte (m, d) = .error .truncated ∨
      ∃ b m' d', decodeByte (m, d) = .ok (b, m', d') ∧
        decodeByte (m, d.extend t) = .ok (b, m', d'.extend t) := by
  rw [decodeByte, decodeByte]
  rcases decodeBits_extend 8 1 m d t with hcut | ⟨n, m', d', hd', hext⟩
  · exact Or.inl (by rw [hcut]; rfl)
  · exact Or.inr ⟨_, m', d', by rw [hd']; rfl, by rw [hext]; rfl⟩

/-- A decoder with less input ends short of it or goes the same way. -/
theorem decodeBytes_extend (k : Nat) (acc : List UInt8) (m : Model) (d : Decoder) (t : Bytes) :
    decodeBytes k acc (m, d) = .error .truncated ∨
      ∃ bs m' d', decodeBytes k acc (m, d) = .ok (bs, m', d') ∧
        decodeBytes k acc (m, d.extend t) = .ok (bs, m', d'.extend t) := by
  induction k generalizing acc m d with
  | zero => exact Or.inr ⟨_, m, d, rfl, rfl⟩
  | succ k ih =>
    rw [decodeBytes, decodeBytes]
    rcases decodeByte_extend m d t with hcut | ⟨b, m', d₁, hd₁, hext⟩
    · exact Or.inl (by rw [hcut])
    · rw [hd₁, hext]
      exact ih _ _ d₁

theorem Decoder.start_extend {F t : Bytes} {d : Decoder} (h : start (F ++ t) = .ok d) :
    start F = .error .truncated ∨ ∃ d', start F = .ok d' ∧ d = d'.extend t := by
  match F, h with
  | [], _ => exact Or.inl rfl
  | [_], _ => exact Or.inl rfl
  | [_, _], _ => exact Or.inl rfl
  | [_, _, _], _ => exact Or.inl rfl
  | [_, _, _, _], _ => exact Or.inl rfl
  | lead :: b₃ :: b₂ :: b₁ :: b₀ :: rest, h =>
    by_cases hlead : lead = 0
    · refine Or.inr ⟨_, if_pos hlead, ?_⟩
      have hd : start (lead :: b₃ :: b₂ :: b₁ :: b₀ :: rest ++ t) =
          .ok { code := ofBE [b₃, b₂, b₁, b₀], rest := rest ++ t } := if_pos hlead
      rw [hd] at h
      exact (Except.ok.inj h).symm
    · have hbad : start (lead :: b₃ :: b₂ :: b₁ :: b₀ :: rest ++ t) =
          .error (.malformed "range coder lead byte") := if_neg hlead
      rw [hbad] at h
      exact absurd h (by simp)

/-- **Every byte is needed**: no proper prefix of a coded buffer decodes. -/
theorem decode_truncated {raw cut : Bytes} (h : ProperPrefix cut (encode raw)) :
    decode cut raw.length = .error .truncated := by
  obtain ⟨t, ht, hwhole⟩ := h
  obtain ⟨d, s, hd, hs, hrest⟩ := decodeBytes_encode raw
  rw [hwhole] at hd
  rw [decode]
  rcases Decoder.start_extend hd with hcut | ⟨d', hd', rfl⟩
  · rw [hcut]
  · rw [hd']
    -- the decoder of the whole is that of the cut with `t` behind it
    rcases decodeBytes_extend raw.length [] Model.initial d' t with hcut | ⟨bs, m, d₁, -, hext⟩
    · simp only [hcut]
      rfl
    · -- it would leave `t` unread, but it reads everything
      rw [hext] at hs
      have hs₂ : (m, d₁.extend t) = s := (Prod.mk.inj (Except.ok.inj hs)).2
      rw [← hs₂] at hrest
      exact absurd (List.append_eq_nil_iff.mp hrest).2 ht

end LatticeSuite.RangeCoder
