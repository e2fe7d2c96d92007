import LatticeSuite.Proofs.Coding.Carry

/-!
# The encoder's interval

Between two decisions the encoder stands for the interval of numbers from
`value` to `value + range`. A decision narrows the interval (`narrow`), and a
shift only spells it with one digit more. Both keep `Live`: the range is at
or above its floor, and `Spans` says that no carry can run out.

For that the probabilities must stay away from the ends, and they do: `Odds`
holds of even odds and adapting keeps it, so a narrowed range is at least
`2 ^ 16` and one shift brings it back above the floor.

`Covers e F` says that the leading digits of `F` lie in the interval of `e`.
The finished bytes are covered by the last encoder (`Live.covers_finish`),
and since intervals are nested, by every encoder before it
(`Live.covers_of_record`). All of this is about decisions with any
probabilities (`Decision`); the bits of a byte are some of them
(`exists_record_encodeBits`).
-/

namespace LatticeSuite.RangeCoder

open Bytes (ofBE ofBE_concat)

/-! ## Probabilities -/

/-- A probability away from both ends: both bits get their part of a range. -/
def Odds (p : Nat) : Prop :=
  31 ≤ p ∧ p ≤ 2017

instance (p : Nat) : Decidable (Odds p) :=
  inferInstanceAs (Decidable (31 ≤ p ∧ p ≤ 2017))

theorem odds_evenOdds : Odds evenOdds := by decide

theorem Odds.adapt {p : Nat} (h : Odds p) (bit : Bool) : Odds (adapt p bit) := by
  obtain ⟨hlo, hhi⟩ := h
  cases bit with
  | false =>
    show 31 ≤ p + (2048 - p) / 32 ∧ p + (2048 - p) / 32 ≤ 2017
    omega
  | true =>
    show 31 ≤ p - p / 32 ∧ p - p / 32 ≤ 2017
    omega

/-- Every probability of the model is away from both ends. -/
def Model.Sound (m : Model) : Prop :=
  ∀ node, Odds (m.odds node)

theorem Model.odds_initial (node : Nat) : Model.initial.odds node = evenOdds := by
  rw [Model.odds, Model.initial, Array.getD_eq_getD_getElem?, Array.getElem?_replicate]
  split <;> rfl

theorem Model.initial_sound : Model.initial.Sound := by
  intro node
  rw [Model.odds_initial]
  exact odds_evenOdds

theorem Model.Sound.learn {m : Model} (h : m.Sound) (node : Nat) (bit : Bool) :
    (m.learn node bit).Sound := by
  intro i
  have hi := h i
  rw [Model.odds, Array.getD_eq_getD_getElem?] at hi ⊢
  rw [Model.learn, Array.getElem?_modify]
  by_cases hn : node = i
  · rw [if_pos hn]
    cases hm : m[i]? with
    | none => exact odds_evenOdds
    | some p =>
      rw [hm] at hi
      exact hi.adapt bit
  · rw [if_neg hn]
    exact hi

/-- A decision: a bit, and the probability of a zero that it is recorded with. -/
structure Decision where
  p : Nat
  bit : Bool
  odds : Odds p

/-! ## Narrowing -/

theorem bound_lt {range p : Nat} (hr : rangeFloor ≤ range) (hp : Odds p) :
    2 ^ 16 ≤ bound range p ∧ bound range p + 2 ^ 16 ≤ range := by
  obtain ⟨hlo, hhi⟩ := hp
  have hfloor : 2 ^ 24 ≤ range := hr
  -- the range is cut into 2048 steps of at least 8192, and both bits get 31 of them
  have hq : 8192 ≤ range / 2048 := by omega
  have hle : range / 2048 * 2048 ≤ range := Nat.div_mul_le_self range 2048
  have h31 : range / 2048 * 31 ≤ range / 2048 * p := Nat.mul_le_mul_left _ hlo
  have h2017 : range / 2048 * p ≤ range / 2048 * 2017 := Nat.mul_le_mul_left _ hhi
  rw [bound]
  omega

/-- A decision leaves a range from which one shift restores the floor. -/
theorem le_narrowed {range p : Nat} (hr : rangeFloor ≤ range) (hp : Odds p) (bit : Bool) :
    2 ^ 16 ≤ narrowed range p bit := by
  have hb := bound_lt hr hp
  cases bit with
  | false => exact hb.1
  | true =>
    show 2 ^ 16 ≤ range - bound range p
    omega

/-- Where the part of a bit begins in the range. -/
def offset (range p : Nat) (bit : Bool) : Nat :=
  if bit then bound range p else 0

/-- The part of a bit ends within the range. -/
theorem offset_add_narrowed_le {range p : Nat} (hr : rangeFloor ≤ range) (hp : Odds p)
    (bit : Bool) : offset range p bit + narrowed range p bit ≤ range := by
  have hb := bound_lt hr hp
  cases bit with
  | false =>
    show 0 + bound range p ≤ range
    omega
  | true =>
    show bound range p + (range - bound range p) ≤ range
    omega

namespace Encoder

/-- The part of the interval that stands for a bit. -/
def narrow (e : Encoder) (p : Nat) (bit : Bool) : Encoder :=
  { e with low := e.low + offset e.range p bit, range := narrowed e.range p bit }

theorem encodeBit_eq (e : Encoder) (p : Nat) (bit : Bool) :
    e.encodeBit p bit = (e.narrow p bit).renormalise := by
  cases bit <;> rfl

theorem width_narrow (e : Encoder) (p : Nat) (bit : Bool) : (e.narrow p bit).width = e.width :=
  rfl

theorem value_narrow (e : Encoder) (p : Nat) (bit : Bool) :
    (e.narrow p bit).value = e.value + offset e.range p bit := by
  show ofBE e.digits * 2 ^ 32 + (e.low + offset e.range p bit) = _
  rw [value, Nat.add_assoc]

/-! ## Encoders between two decisions -/

/-- An encoder between two decisions. -/
structure Live (e : Encoder) : Prop where
  spans : e.Spans e.range
  floor : rangeFloor ≤ e.range

theorem live_new : Live {} := by
  refine ⟨⟨?_, ?_, ?_, ?_⟩, ?_⟩ <;> decide

theorem Live.spans_narrow {e : Encoder} (h : e.Live) {p : Nat} (hp : Odds p) (bit : Bool) :
    (e.narrow p bit).Spans (narrowed e.range p bit) := by
  have hpos := le_narrowed h.floor hp bit
  have hs := Spans.advance (offset e.range p bit) _ h.spans
    (offset_add_narrowed_le h.floor hp bit) (by omega)
  exact ⟨hs.pos, hs.held_pos, hs.low_add_le, hs.room⟩

/-- Widening restores the floor of a range that is not too small. -/
theorem live_renormalise {e : Encoder} (h : e.Spans e.range) (hr : 2 ^ 16 ≤ e.range) :
    e.renormalise.Live := by
  unfold renormalise
  split
  next hlt =>
    have hs := h.shiftLow hlt
    refine ⟨⟨hs.pos, hs.held_pos, hs.low_add_le, hs.room⟩, ?_⟩
    show 2 ^ 24 ≤ e.range * 256
    omega
  next hge => exact ⟨h, Nat.le_of_not_lt hge⟩

theorem Live.encodeBit {e : Encoder} (h : e.Live) {p : Nat} (hp : Odds p) (bit : Bool) :
    (e.encodeBit p bit).Live := by
  rw [encodeBit_eq]
  exact live_renormalise (h.spans_narrow hp bit) (le_narrowed h.floor hp bit)

/-- Record decisions in their order. -/
def record (e : Encoder) (ds : List Decision) : Encoder :=
  ds.foldl (fun e d => e.encodeBit d.p d.bit) e

theorem Live.record {e : Encoder} (h : e.Live) (ds : List Decision) : (e.record ds).Live := by
  induction ds generalizing e with
  | nil => exact h
  | cons d ds ih => exact ih (h.encodeBit d.odds d.bit)

/-- Bits are recorded as decisions, with the probabilities that the model has for them. -/
theorem exists_record_encodeBits (bits : List Bool) {m : Model} (e : Encoder) (node : Nat)
    (hm : m.Sound) :
    (encodeBits bits node (m, e)).1.Sound ∧
      ∃ ds : List Decision, ds.map Decision.bit = bits ∧
        (encodeBits bits node (m, e)).2 = e.record ds := by
  induction bits generalizing node m e with
  | nil => exact ⟨hm, [], rfl, rfl⟩
  | cons bit bits ih =>
    obtain ⟨hsound, ds, hbits, hrecord⟩ :=
      ih (e.encodeBit (m.odds node) bit) (child node bit) (hm.learn node bit)
    exact ⟨hsound, ⟨m.odds node, bit, hm node⟩ :: ds, congrArg (bit :: ·) hbits, hrecord⟩

theorem live_encodeBits (bits : List Bool) {m : Model} {e : Encoder} (node : Nat)
    (hm : m.Sound) (he : e.Live) :
    (encodeBits bits node (m, e)).1.Sound ∧ (encodeBits bits node (m, e)).2.Live := by
  obtain ⟨hsound, ds, -, hrecord⟩ := exists_record_encodeBits bits e node hm
  rw [hrecord]
  exact ⟨hsound, he.record ds⟩

/-! ## Covering -/

/-- The digits of `F` that have left `low`, or are about to, lie in the
interval of the encoder. -/
structure Covers (e : Encoder) (F : Bytes) : Prop where
  width_le : e.width + 4 ≤ F.length
  value_le : e.value ≤ ofBE (F.take (e.width + 4))
  lt_end : ofBE (F.take (e.width + 4)) < e.value + e.range

/-- An encoder covers what it would write now. -/
theorem Live.covers_finish {e : Encoder} (h : e.Live) : e.Covers e.finish := by
  have hlen := length_finish h.spans
  have hpos := h.spans.pos
  have htake : ofBE (e.finish.take (e.width + 4)) = e.value := by
    rw [← hlen, List.take_length, ofBE_finish h.spans]
  refine ⟨?_, ?_, ?_⟩
  · omega
  · rw [htake]
  · rw [htake]
    omega

/-- One digit more. -/
theorem ofBE_take_succ {F : Bytes} {n : Nat} (h : n < F.length) :
    ofBE (F.take (n + 1)) = ofBE (F.take n) * 256 + F[n].toNat := by
  rw [List.take_succ_eq_append_getElem h, ofBE_concat]

theorem width_renormalise_of_lt {e : Encoder} {r : Nat} (h : e.Spans r)
    (hlt : e.range < rangeFloor) : e.renormalise.width = e.width + 1 := by
  unfold renormalise
  rw [if_pos hlt]
  exact width_shiftLow h

theorem value_renormalise_of_lt {e : Encoder} {r : Nat} (h : e.Spans r)
    (hlt : e.range < rangeFloor) : e.renormalise.value = e.value * 256 := by
  unfold renormalise
  rw [if_pos hlt]
  exact value_shiftLow h

theorem range_renormalise_of_lt {e : Encoder} (hlt : e.range < rangeFloor) :
    e.renormalise.range = e.range * 256 := by
  unfold renormalise
  rw [if_pos hlt]

theorem renormalise_of_le {e : Encoder} (hge : rangeFloor ≤ e.range) : e.renormalise = e := by
  unfold renormalise
  rw [if_neg (by omega)]

/-- A widened interval is the same interval with one digit more. -/
theorem Covers.of_renormalise {e : Encoder} {r : Nat} {F : Bytes} (h : e.Spans r)
    (hF : e.renormalise.Covers F) : e.Covers F := by
  by_cases hlt : e.range < rangeFloor
  · -- the wider interval begins and ends at a multiple of 256, so its last digit is free
    obtain ⟨hw, hv, he⟩ := hF
    rw [width_renormalise_of_lt h hlt] at hw hv he
    rw [value_renormalise_of_lt h hlt] at hv he
    rw [range_renormalise_of_lt hlt] at he
    have hn : e.width + 4 < F.length := by omega
    rw [show e.width + 1 + 4 = e.width + 4 + 1 from by omega, ofBE_take_succ hn] at hv he
    have hb := UInt8.toNat_lt F[e.width + 4]
    refine ⟨by omega, by omega, by omega⟩
  · rw [renormalise_of_le (Nat.le_of_not_lt hlt)] at hF
    exact hF

theorem Covers.of_narrow {e : Encoder} {p : Nat} {bit : Bool} {F : Bytes}
    (hr : rangeFloor ≤ e.range) (hp : Odds p) (hF : (e.narrow p bit).Covers F) :
    e.Covers F := by
  obtain ⟨hw, hv, he⟩ := hF
  rw [width_narrow] at hw hv he
  rw [value_narrow] at hv he
  have hend := offset_add_narrowed_le hr hp bit
  have hrange : (e.narrow p bit).range = narrowed e.range p bit := rfl
  rw [hrange] at he
  refine ⟨hw, by omega, by omega⟩

/-- What comes after a decision is covered before it. -/
theorem Live.covers_of_encodeBit {e : Encoder} (h : e.Live) {p : Nat} (hp : Odds p) {bit : Bool}
    {F : Bytes} (hF : (e.encodeBit p bit).Covers F) : e.Covers F := by
  rw [encodeBit_eq] at hF
  exact (hF.of_renormalise (h.spans_narrow hp bit)).of_narrow h.floor hp

/-- Intervals are nested, so this goes from the last decision back to the first. -/
theorem Live.covers_of_record {e : Encoder} (h : e.Live) {ds : List Decision} {F : Bytes}
    (hF : (e.record ds).Covers F) : e.Covers F := by
  induction ds generalizing e with
  | nil => exact hF
  | cons d ds ih => exact h.covers_of_encodeBit d.odds (ih (h.encodeBit d.odds d.bit) hF)

theorem covers_of_encodeBits (bits : List Bool) {m : Model} {e : Encoder} (node : Nat)
    {F : Bytes} (hm : m.Sound) (he : e.Live) (hF : (encodeBits bits node (m, e)).2.Covers F) :
    e.Covers F := by
  obtain ⟨-, ds, -, hrecord⟩ := exists_record_encodeBits bits e node hm
  rw [hrecord] at hF
  exact he.covers_of_record hF

end Encoder

end LatticeSuite.RangeCoder
