import LatticeSuite.Coding.RangeCoder
import LatticeSuite.Proofs.Bytes
import Mathlib.Logic.Function.Iterate
import Mathlib.Tactic.Linarith

/-!
# The range encoder's output is a number

The encoder adds to `low` and hands the top byte of it out, but it never
propagates a carry into bytes already written: it holds back the last byte
that can still change and the 255s behind it. This file removes that
mechanism. `Encoder.digits` are the bytes written and held back, and
`Encoder.value` is the number they spell with `low` behind them; then

> `value_shiftLow`: a shift multiplies the value by 256, carry or not, and
> `width_shiftLow`: adds one digit.

A carry must not run out of the bytes held back. `Spans e r` says that it
cannot: all of the `r` numbers from `low` on still fit in them. A shift keeps
this (`Spans.shiftLow`) because a byte of 255 is held back exactly when a
carry into it is still possible.

`finish` then writes the value itself: `ofBE_finish` and `length_finish`.
-/

namespace LatticeSuite.RangeCoder.Encoder

open Bytes (ofBE ofBE_append ofBE_cons ofBE_concat ofBE_cons_replicate_max
  ofBE_cons_replicate_zero toNat_max)

/-! ## Digits and value -/

/-- The bytes held back: the cache and the 255s that follow it. -/
def pending (e : Encoder) : Bytes :=
  e.cache :: List.replicate (e.held - 1) 0xff

/-- The bytes written and held back, in order. -/
def digits (e : Encoder) : Bytes :=
  e.out.reverse ++ e.pending

/-- How many bytes have left `low`. -/
def width (e : Encoder) : Nat :=
  e.digits.length

/-- The number that the digits and `low` spell. -/
def value (e : Encoder) : Nat :=
  ofBE e.digits * 2 ^ 32 + e.low

/-- The `r` numbers from `low` on fit in the bytes held back, and a carry is
at most one. -/
structure Spans (e : Encoder) (r : Nat) : Prop where
  pos : 0 < r
  held_pos : 0 < e.held
  low_add_le : e.low + r ≤ 2 ^ 33
  room : ofBE e.pending * 2 ^ 32 + e.low + r ≤ 256 ^ e.held * 2 ^ 32

theorem Spans.mono {e : Encoder} {r k : Nat} (h : e.Spans r) (hr : k ≤ r) (hpos : 0 < k) :
    e.Spans k := by
  refine ⟨hpos, h.held_pos, ?_, ?_⟩
  · have := h.low_add_le
    omega
  · have := h.room
    omega

/-- Moving the lower end up by `x` leaves the upper end where it is. -/
theorem Spans.advance {e : Encoder} {r : Nat} (x r' : Nat) (h : e.Spans r) (hr : x + r' ≤ r)
    (hpos : 0 < r') : ({ e with low := e.low + x } : Encoder).Spans r' := by
  refine ⟨hpos, h.held_pos, ?_, ?_⟩
  · have := h.low_add_le
    show e.low + x + r' ≤ 2 ^ 33
    omega
  · have := h.room
    show ofBE e.pending * 2 ^ 32 + (e.low + x) + r' ≤ 256 ^ e.held * 2 ^ 32
    omega

/-- The bytes held back are one short of the next power at the cache. -/
theorem ofBE_pending {e : Encoder} (h : 0 < e.held) :
    (ofBE e.pending + 1) * 256 = (e.cache.toNat + 1) * 256 ^ e.held := by
  have hheld : e.held = e.held - 1 + 1 := by omega
  rw [pending, ofBE_cons_replicate_max, hheld, Nat.pow_succ, Nat.add_sub_cancel, Nat.mul_assoc]

/-- If `low` carries, the cache can take the carry. -/
theorem Spans.cache_lt {e : Encoder} {r : Nat} (h : e.Spans r) (hlow : 2 ^ 32 ≤ e.low) :
    e.cache.toNat < 255 := by
  have hroom := h.room
  have hpos := h.pos
  -- with `low` past 2 ^ 32 and still `r` numbers to go, the bytes held back are not all 255
  have hlt : ofBE e.pending + 1 < 256 ^ e.held := by
    by_contra hge
    have := Nat.mul_le_mul_right (2 ^ 32) (Nat.le_of_not_lt hge)
    omega
  have hp := ofBE_pending h.held_pos
  by_contra hge
  have h256 : 256 ≤ e.cache.toNat + 1 := by omega
  have := Nat.mul_le_mul_right (256 ^ e.held) h256
  omega

/-! ## One shift -/

/-- Bytes held back with a carry added to each: the number grows by the carry,
since the 255s wrap and the cache takes it. -/
theorem ofBE_carried (cache : UInt8) (n c : Nat) (hc : c = 0 ∨ c = 1 ∧ cache.toNat < 255) :
    ofBE ((cache + UInt8.ofNat c) :: List.replicate n (0xff + UInt8.ofNat c)) =
      ofBE (cache :: List.replicate n 0xff) + c := by
  rcases hc with rfl | ⟨rfl, hlt⟩
  · simp
  · have hwrap : (0xff : UInt8) + UInt8.ofNat 1 = 0 := by decide
    have hcache : (cache + UInt8.ofNat 1).toNat = cache.toNat + 1 := by
      rw [UInt8.toNat_add]
      show (cache.toNat + 1) % 256 = cache.toNat + 1
      omega
    rw [hwrap, ofBE_cons_replicate_zero, ofBE_cons_replicate_max, hcache]

@[simp] theorem low_shiftLow (e : Encoder) : e.shiftLow.low = e.low % 2 ^ 24 * 256 := by
  unfold shiftLow
  split <;> rfl

/-- A byte of 255 that may still be raised is held back. -/
theorem shiftLow_of_hold {e : Encoder} (h : ¬(e.low < 0xff000000 ∨ 0xffffffff < e.low)) :
    e.shiftLow = { e with low := e.low % 2 ^ 24 * 256, held := e.held + 1 } := by
  unfold shiftLow
  rw [if_neg h]

theorem digits_of_hold {e : Encoder} (hpos : 0 < e.held)
    (h : ¬(e.low < 0xff000000 ∨ 0xffffffff < e.low)) : e.shiftLow.digits = e.digits ++ [0xff] := by
  rw [shiftLow_of_hold h]
  show e.out.reverse ++ e.cache :: List.replicate (e.held + 1 - 1) 0xff = _
  rw [digits, pending, show e.held + 1 - 1 = e.held - 1 + 1 from by omega, List.replicate_succ']
  simp

/-- What can no longer change is written, with the carry. -/
theorem shiftLow_of_write {e : Encoder} (h : e.low < 0xff000000 ∨ 0xffffffff < e.low) :
    e.shiftLow =
      { e with
        low := e.low % 2 ^ 24 * 256
        cache := UInt8.ofNat (e.low / 2 ^ 24)
        held := 1
        out := List.replicate (e.held - 1) (0xff + UInt8.ofNat (e.low / 2 ^ 32)) ++
          (e.cache + UInt8.ofNat (e.low / 2 ^ 32)) :: e.out } := by
  unfold shiftLow
  rw [if_pos h]

theorem digits_of_write {e : Encoder} (h : e.low < 0xff000000 ∨ 0xffffffff < e.low) :
    e.shiftLow.digits =
      (e.out.reverse ++ (e.cache + UInt8.ofNat (e.low / 2 ^ 32)) ::
        List.replicate (e.held - 1) (0xff + UInt8.ofNat (e.low / 2 ^ 32))) ++
          [UInt8.ofNat (e.low / 2 ^ 24)] := by
  rw [shiftLow_of_write h]
  simp [digits, pending]

/-- A shift moves the top byte of `low`, and the carry above it, into the digits. -/
theorem ofBE_digits_shiftLow {e : Encoder} {r : Nat} (h : e.Spans r) :
    ofBE e.shiftLow.digits = ofBE e.digits * 256 + e.low / 2 ^ 24 := by
  have hle := h.low_add_le
  have hpos := h.pos
  by_cases hw : e.low < 0xff000000 ∨ 0xffffffff < e.low
  · -- the carry is at most one, and if there is one the cache takes it
    have hcarry : e.low / 2 ^ 32 = 0 ∨ e.low / 2 ^ 32 = 1 ∧ e.cache.toNat < 255 := by
      by_cases hc : e.low < 2 ^ 32
      · exact Or.inl (by omega)
      · exact Or.inr ⟨by omega, h.cache_lt (by omega)⟩
    have hbyte : (UInt8.ofNat (e.low / 2 ^ 24)).toNat = e.low / 2 ^ 24 % 256 :=
      UInt8.toNat_ofNat'
    rw [digits_of_write hw, ofBE_concat, ofBE_append, ofBE_carried _ _ _ hcarry, hbyte, digits,
      ofBE_append, pending]
    simp only [List.length_cons, List.length_replicate]
    generalize ofBE e.out.reverse * 256 ^ (e.held - 1 + 1) = a
    generalize ofBE (e.cache :: List.replicate (e.held - 1) 0xff) = b
    omega
  · -- nothing is carried, and the top byte of `low` is the 255 that is held back
    rw [digits_of_hold h.held_pos hw, ofBE_concat, toNat_max]
    omega

theorem width_shiftLow {e : Encoder} {r : Nat} (h : e.Spans r) :
    e.shiftLow.width = e.width + 1 := by
  rw [width, width]
  by_cases hw : e.low < 0xff000000 ∨ 0xffffffff < e.low
  · rw [digits_of_write hw]
    simp only [digits, pending, List.length_append, List.length_cons, List.length_replicate,
      List.length_nil]
  · rw [digits_of_hold h.held_pos hw]
    simp

/-- **A shift multiplies the value by 256.** -/
theorem value_shiftLow {e : Encoder} {r : Nat} (h : e.Spans r) :
    e.shiftLow.value = e.value * 256 := by
  rw [value, value, ofBE_digits_shiftLow h, low_shiftLow]
  omega

/-- **After a shift a carry still cannot run out of the bytes held back.** -/
theorem Spans.shiftLow {e : Encoder} {r : Nat} (h : e.Spans r) (hr : r < 2 ^ 24) :
    e.shiftLow.Spans (r * 256) := by
  have hpos := h.pos
  have hlow : e.low % 2 ^ 24 * 256 + r * 256 ≤ 2 ^ 33 := by omega
  by_cases hw : e.low < 0xff000000 ∨ 0xffffffff < e.low
  · -- the new cache is the top byte of `low`, and what follows it ends below 2 ^ 33
    have hle := h.low_add_le
    have hend : e.low % 2 ^ 32 + r ≤ 2 ^ 32 := by omega
    have hsplit : e.low / 2 ^ 24 % 256 * 2 ^ 24 + e.low % 2 ^ 24 = e.low % 2 ^ 32 := by omega
    have hbyte : ofBE [UInt8.ofNat (e.low / 2 ^ 24)] = e.low / 2 ^ 24 % 256 := by
      rw [ofBE_cons, UInt8.toNat_ofNat']
      simp
    rw [shiftLow_of_write hw]
    refine ⟨by omega, Nat.one_pos, hlow, ?_⟩
    show ofBE [UInt8.ofNat (e.low / 2 ^ 24)] * 2 ^ 32 + e.low % 2 ^ 24 * 256 + r * 256 ≤
      256 ^ 1 * 2 ^ 32
    rw [hbyte]
    linarith
  · -- one byte more is held back, and there is as much room above it as before
    have hheld := h.held_pos
    have hpend : ofBE (e.cache :: List.replicate (e.held + 1 - 1) 0xff) =
        ofBE e.pending * 256 + 255 := by
      rw [show e.held + 1 - 1 = e.held - 1 + 1 from by omega, List.replicate_succ',
        ← List.cons_append, ofBE_concat, toNat_max, pending]
    have htop : e.low % 2 ^ 24 + 0xff000000 = e.low := by omega
    have hroom := h.room
    rw [shiftLow_of_hold hw]
    refine ⟨by omega, Nat.succ_pos _, hlow, ?_⟩
    show ofBE (e.cache :: List.replicate (e.held + 1 - 1) 0xff) * 2 ^ 32 +
      e.low % 2 ^ 24 * 256 + r * 256 ≤ 256 ^ e.held * 256 * 2 ^ 32
    rw [hpend]
    linarith

/-! ## Finishing -/

theorem low_shift_four (e : Encoder) : e.shiftLow.shiftLow.shiftLow.shiftLow.low = 0 := by
  simp only [low_shiftLow]
  omega

/-- Four shifts empty `low`, so the fifth writes all digits as they are. -/
theorem finish_eq_digits (e : Encoder) :
    e.finish = e.shiftLow.shiftLow.shiftLow.shiftLow.digits := by
  have hzero := e.low_shift_four
  unfold finish
  rw [shiftLow_of_write (e := e.shiftLow.shiftLow.shiftLow.shiftLow) (by omega), hzero]
  simp [digits, pending]

/-- A single number is enough of an interval to go on shifting with. -/
theorem Spans.iterate {e : Encoder} (h : e.Spans 1) (n : Nat) :
    (Encoder.shiftLow^[n] e).Spans 1 := by
  induction n with
  | zero => exact h
  | succ n ih =>
    rw [Function.iterate_succ_apply']
    exact (ih.shiftLow (by decide)).mono (by decide) Nat.one_pos

theorem value_iterate {e : Encoder} (h : e.Spans 1) (n : Nat) :
    (Encoder.shiftLow^[n] e).value = e.value * 256 ^ n := by
  induction n with
  | zero => exact (Nat.mul_one _).symm
  | succ n ih =>
    rw [Function.iterate_succ_apply', value_shiftLow (h.iterate n), ih, Nat.pow_succ,
      Nat.mul_assoc]

theorem width_iterate {e : Encoder} (h : e.Spans 1) (n : Nat) :
    (Encoder.shiftLow^[n] e).width = e.width + n := by
  induction n with
  | zero => rfl
  | succ n ih =>
    rw [Function.iterate_succ_apply', width_shiftLow (h.iterate n), ih, Nat.add_assoc]

theorem length_finish {e : Encoder} {r : Nat} (h : e.Spans r) :
    e.finish.length = e.width + 4 := by
  rw [finish_eq_digits]
  exact width_iterate (h.mono h.pos Nat.one_pos) 4

/-- **What is written in the end is the value.** -/
theorem ofBE_finish {e : Encoder} {r : Nat} (h : e.Spans r) : ofBE e.finish = e.value := by
  have hv : e.shiftLow.shiftLow.shiftLow.shiftLow.value = e.value * 256 ^ 4 :=
    value_iterate (h.mono h.pos Nat.one_pos) 4
  rw [value, low_shift_four] at hv
  rw [finish_eq_digits]
  omega

end LatticeSuite.RangeCoder.Encoder
