import LatticeSuite.Proofs.Coding.Interval
import Mathlib.Algebra.BigOperators.Fin

/-!
# The encoder writes a sum

A decision for a one adds the part of the zero to `low`, and every shift after it moves it
one digit up. So the number that is written in the end is known without looking at a byte:
it is the sum of these parts, each with as many zeros behind it as shifts came after the
decision (`value_record`).

What is said of the bytes is that they spell this number, and how. `shifted` lists the
encoders that are shifted while decisions are recorded, `flushed` the five of the end.
Each of them `Settles`: it holds a byte back, the byte can take the carry if there is one,
however many 255s stand in between, and what was written before is what stands there in
the end. Put together,

> `delayed_carries_are_exact`: whatever the decisions, the bytes are those of the sum, one
> for each shift, and none of them is written before it is known.

The decisions that a byte string comes to are no others (`exists_record_encode`).
-/

namespace LatticeSuite.RangeCoder

open Bytes (ofBE ofBE_cons)

namespace Encoder

/-! ## Shifts -/

/-- The encoders that are shifted while decisions are recorded, in their order. -/
def shifted (e : Encoder) : List Decision → List Encoder
  | [] => []
  | d :: ds =>
    (if narrowed e.range d.p d.bit < rangeFloor then [e.narrow d.p d.bit] else []) ++
      (e.encodeBit d.p d.bit).shifted ds

/-- The encoders that are shifted in the end. -/
def flushed (e : Encoder) : List Encoder :=
  (List.range 5).map fun n => Encoder.shiftLow^[n] e

/-- How many shifts decisions take. -/
def shifts (e : Encoder) (ds : List Decision) : Nat :=
  (e.shifted ds).length

@[simp] theorem shifts_nil (e : Encoder) : e.shifts [] = 0 := rfl

theorem shifts_singleton (e : Encoder) (d : Decision) :
    e.shifts [d] = if narrowed e.range d.p d.bit < rangeFloor then 1 else 0 := by
  rw [shifts, shifted, shifted, List.append_nil]
  split <;> rfl

theorem shifts_cons (e : Encoder) (d : Decision) (ds : List Decision) :
    e.shifts (d :: ds) = e.shifts [d] + (e.encodeBit d.p d.bit).shifts ds := by
  simp only [shifts, shifted, List.length_append, List.append_nil]

theorem width_encodeBit {e : Encoder} (h : e.Live) (d : Decision) :
    (e.encodeBit d.p d.bit).width = e.width + e.shifts [d] := by
  rw [encodeBit_eq, shifts_singleton]
  split
  next hlt => exact width_renormalise_of_lt (h.spans_narrow d.odds d.bit) hlt
  next hge =>
    rw [renormalise_of_le (Nat.le_of_not_lt hge)]
    rfl

theorem value_encodeBit {e : Encoder} (h : e.Live) (d : Decision) :
    (e.encodeBit d.p d.bit).value =
      (e.value + offset e.range d.p d.bit) * 256 ^ e.shifts [d] := by
  rw [encodeBit_eq, shifts_singleton, ← value_narrow]
  split
  next hlt => exact value_renormalise_of_lt (h.spans_narrow d.odds d.bit) hlt
  next hge =>
    rw [renormalise_of_le (Nat.le_of_not_lt hge)]
    exact (Nat.mul_one _).symm

theorem width_record {e : Encoder} (h : e.Live) (ds : List Decision) :
    (e.record ds).width = e.width + e.shifts ds := by
  induction ds generalizing e with
  | nil => rfl
  | cons d ds ih =>
    show ((e.encodeBit d.p d.bit).record ds).width = _
    rw [ih (h.encodeBit d.odds d.bit), width_encodeBit h, shifts_cons e d ds, Nat.add_assoc]

/-- **The value is a sum over the decisions**, each moved up by the shifts behind it. -/
theorem value_record {e : Encoder} (h : e.Live) (ds : List Decision) :
    (e.record ds).value =
      e.value * 256 ^ e.shifts ds +
        ∑ i : Fin ds.length, offset (e.record (ds.take i)).range ds[i].p ds[i].bit *
          256 ^ (e.shifts ds - e.shifts (ds.take i)) := by
  induction ds generalizing e with
  | nil => simp [record]
  | cons d ds ih =>
    -- the shifts of the first decision are behind it, and before all others
    have hbehind : ∀ i : Fin ds.length,
        e.shifts (d :: ds) - e.shifts ((d :: ds).take i.succ) =
          (e.encodeBit d.p d.bit).shifts ds - (e.encodeBit d.p d.bit).shifts (ds.take i) := by
      intro i
      rw [Fin.val_succ, List.take_succ_cons, shifts_cons, shifts_cons e d (ds.take i),
        Nat.add_sub_add_left]
    refine Eq.trans ?_ (congrArg (_ + ·) (Fin.sum_univ_succ _).symm)
    simp only [hbehind]
    show ((e.encodeBit d.p d.bit).record ds).value =
      e.value * 256 ^ e.shifts (d :: ds) +
        (offset e.range d.p d.bit * 256 ^ (e.shifts (d :: ds) - 0) +
          ∑ i : Fin ds.length,
            offset ((e.encodeBit d.p d.bit).record (ds.take i)).range ds[i].p ds[i].bit *
              256 ^ ((e.encodeBit d.p d.bit).shifts ds -
                (e.encodeBit d.p d.bit).shifts (ds.take i)))
    rw [ih (h.encodeBit d.odds d.bit), value_encodeBit h, Nat.sub_zero, shifts_cons e d ds,
      ← Nat.add_assoc, ← Nat.add_mul, Nat.pow_add, ← Nat.mul_assoc]

/-! ## Bytes that are written -/

/-- A shift only writes behind what is written. -/
theorem out_shiftLow (e : Encoder) : e.out.reverse <+: e.shiftLow.out.reverse := by
  unfold shiftLow
  dsimp only
  split
  · dsimp only
    rw [← List.singleton_append, ← List.append_assoc, List.reverse_append]
    exact List.prefix_append _ _
  · exact List.prefix_rfl

theorem out_iterate (e : Encoder) {m n : Nat} (h : m ≤ n) :
    (Encoder.shiftLow^[m] e).out.reverse <+: (Encoder.shiftLow^[n] e).out.reverse := by
  induction n, h using Nat.le_induction with
  | base => exact List.prefix_rfl
  | succ n _ ih =>
    rw [Function.iterate_succ_apply']
    exact ih.trans (out_shiftLow _)

theorem out_finish (e : Encoder) {n : Nat} (h : n ≤ 5) :
    (Encoder.shiftLow^[n] e).out.reverse <+: e.finish := by
  have hfive : e.finish = (Encoder.shiftLow^[5] e).out.reverse := rfl
  rw [hfive]
  exact e.out_iterate h

theorem out_encodeBit (e : Encoder) (p : Nat) (bit : Bool) :
    e.out.reverse <+: (e.encodeBit p bit).out.reverse := by
  rw [encodeBit_eq]
  unfold renormalise
  split
  · exact (e.narrow p bit).out_shiftLow
  · exact List.prefix_rfl

theorem out_record (e : Encoder) (ds : List Decision) :
    e.out.reverse <+: (e.record ds).out.reverse := by
  induction ds generalizing e with
  | nil => exact List.prefix_rfl
  | cons d ds ih => exact (e.out_encodeBit d.p d.bit).trans (ih _)

/-! ## Bytes that are held back -/

/-- What holds of an encoder that is shifted on the way to the bytes `F`. -/
structure Settles (e : Encoder) (F : Bytes) : Prop where
  /-- There is a byte that can still change. -/
  held_pos : 0 < e.held
  /-- A carry is at most one. -/
  low_lt : e.low < 2 ^ 33
  /-- The carry ends there, whatever is held back behind it. -/
  cache_lt : 2 ^ 32 ≤ e.low → e.cache.toNat < 255
  /-- The shift is exact. -/
  value_eq : e.shiftLow.value = e.value * 256
  /-- What is written needs no carry. -/
  written : e.out.reverse <+: F

theorem Spans.settles {e : Encoder} {r : Nat} (h : e.Spans r) {F : Bytes}
    (hF : e.out.reverse <+: F) : e.Settles F where
  held_pos := h.held_pos
  low_lt := by
    have hpos := h.pos
    have hle := h.low_add_le
    omega
  cache_lt := h.cache_lt
  value_eq := value_shiftLow h
  written := hF

theorem Live.settles_of_mem_shifted {e : Encoder} (h : e.Live) {ds : List Decision} {F : Bytes}
    (hF : (e.record ds).out.reverse <+: F) {c : Encoder} (hc : c ∈ e.shifted ds) :
    c.Settles F := by
  induction ds generalizing e with
  | nil => exact absurd hc (by simp [shifted])
  | cons d ds ih =>
    rw [shifted, List.mem_append] at hc
    rcases hc with hc | hc
    · split at hc
      next =>
        obtain rfl := List.mem_singleton.mp hc
        exact (h.spans_narrow d.odds d.bit).settles ((e.out_record (d :: ds)).trans hF)
      next => exact absurd hc (by simp)
    · exact ih (h.encodeBit d.odds d.bit) hF hc

theorem Live.settles_of_mem_flushed {e : Encoder} (h : e.Live) {c : Encoder}
    (hc : c ∈ e.flushed) : c.Settles e.finish := by
  obtain ⟨n, hn, rfl⟩ := List.mem_map.mp hc
  have hle : n ≤ 5 := Nat.le_of_lt (List.mem_range.mp hn)
  exact ((h.spans.mono h.spans.pos Nat.one_pos).iterate n).settles (e.out_finish hle)

/-- The first byte of a number that the first interval covers. -/
theorem head?_of_covers {F : Bytes} (h : Covers {} F) : F.head? = some 0 := by
  have hlen := h.width_le
  have hlt := h.lt_end
  have hvalue : value {} = 0 := by decide
  have hwidth : width {} = 1 := rfl
  rw [hwidth] at hlen hlt
  rw [hvalue, Nat.zero_add] at hlt
  cases F with
  | nil => exact absurd hlen (by decide)
  | cons b bs =>
    have hfour : (bs.take 4).length = 4 := List.length_take_of_le (Nat.le_of_succ_le_succ hlen)
    have htop : ofBE (b :: bs.take 4) < 2 ^ 32 - 1 := hlt
    rw [ofBE_cons, hfour] at htop
    have hzero : b.toNat = 0 := by omega
    exact congrArg some (UInt8.toNat_inj.mp hzero)

/-! ## Output -/

/-- What a one adds is the part of the zero, and a zero adds nothing. -/
theorem offset_mul (range p : Nat) (bit : Bool) (w : Nat) :
    offset range p bit * w = if bit then bound range p * w else 0 := by
  cases bit with
  | false => exact Nat.zero_mul w
  | true => rfl

/-- **Delayed carries are exact.** Whatever is recorded, the bytes spell the sum of what the
ones added, each moved up by the shifts behind it. There is a byte for each shift, five
more in the end, and the first of them is zero. At every shift a byte is held back that can
take the carry, and no byte is written before it is known; one shift in a decision is
enough. -/
theorem delayed_carries_are_exact (ds : List Decision) :
    let k := shifts {} ds
    let F := (record {} ds).finish
    F.length = k + 5 ∧
      ofBE F = (∑ i : Fin ds.length,
        if ds[i].bit then
          bound (record {} (ds.take i)).range ds[i].p * 256 ^ (k - shifts {} (ds.take i))
        else 0) ∧
      F.head? = some 0 ∧
      (∀ e ∈ shifted {} ds ++ flushed (record {} ds), e.Settles F) ∧
      ∀ n, rangeFloor ≤ (record {} (ds.take n)).range ∧
        (record {} (ds.take n)).out.reverse <+: F := by
  intro k F
  have hlive : (record {} ds).Live := live_new.record ds
  have hwritten : (record {} ds).out.reverse <+: F :=
    (record {} ds).out_finish (n := 0) (Nat.zero_le 5)
  refine ⟨?_, ?_, ?_, ?_, fun n => ⟨(live_new.record _).floor, ?_⟩⟩
  · show (record {} ds).finish.length = k + 5
    rw [length_finish hlive.spans, width_record live_new]
    show 1 + k + 4 = k + 5
    omega
  · show ofBE (record {} ds).finish = _
    have hvalue : value {} = 0 := by decide
    rw [ofBE_finish hlive.spans, value_record live_new, hvalue, Nat.zero_mul, Nat.zero_add]
    exact Finset.sum_congr rfl fun i _ => offset_mul _ _ _ _
  · exact head?_of_covers (live_new.covers_of_record hlive.covers_finish)
  · intro e he
    rcases List.mem_append.mp he with he | he
    · exact live_new.settles_of_mem_shifted hwritten he
    · exact hlive.settles_of_mem_flushed he
  · -- the decisions from here on only write behind what is there
    have hrest := (record {} (ds.take n)).out_record (ds.drop n)
    rw [record, record, ← List.foldl_append, List.take_append_drop] at hrest
    exact hrest.trans hwritten

/-- Decisions of which the last carries into a byte of 127 across a 255 held back, with
another 255 about to follow. -/
def carrying : List Decision :=
  [⟨1024, true, by decide⟩, ⟨31, false, by decide⟩, ⟨1000, false, by decide⟩,
    ⟨31, false, by decide⟩, ⟨566, false, by decide⟩, ⟨31, true, by decide⟩,
    ⟨2017, true, by decide⟩, ⟨2017, true, by decide⟩]

theorem delayed_carries_are_exact_across_a_held_byte :
    ∃ e ∈ shifted {} carrying ++ flushed (record {} carrying),
      e.held = 2 ∧ e.cache = 127 ∧ e.low / 2 ^ 24 = 0x1ff ∧
        e.Settles (record {} carrying).finish ∧ (record {} carrying).finish.length = 8 := by
  obtain ⟨hlength, -, -, hsettles, -⟩ := delayed_carries_are_exact carrying
  have hmem : (shifted {} carrying).get ⟨2, by decide⟩ ∈
      shifted {} carrying ++ flushed (record {} carrying) :=
    List.mem_append_left _ (List.get_mem _ _)
  exact ⟨_, hmem, by decide, by decide, by decide, hsettles _ hmem, hlength.trans (by decide)⟩

/-! ## The decisions of a byte string -/

theorem exists_record_foldl (raw : Bytes) {s : Model × Encoder} (hs : s.1.Sound) :
    ∃ ds : List Decision, ds.map Decision.bit = raw.flatMap (fun b => bitsBE 8 b.toNat) ∧
      (raw.foldl encodeByte s).2 = s.2.record ds := by
  induction raw generalizing s with
  | nil => exact ⟨[], rfl, rfl⟩
  | cons b raw ih =>
    obtain ⟨hsound, front, hfront, hbyte⟩ := exists_record_encodeBits (bitsBE 8 b.toNat) s.2 1 hs
    rw [List.foldl_cons, encodeByte]
    generalize encodeBits (bitsBE 8 b.toNat) 1 s = t at hsound hbyte ⊢
    obtain ⟨back, hback, hrest⟩ := ih hsound
    have hsplit : s.2.record (front ++ back) = (s.2.record front).record back := List.foldl_append
    refine ⟨front ++ back, ?_, ?_⟩
    · rw [List.map_append, hfront, hback, List.flatMap_cons]
    · rw [hsplit, ← hbyte, hrest]

/-- **A byte string is encoded by decisions**, one for each of its bits. -/
theorem exists_record_encode (raw : Bytes) :
    ∃ ds : List Decision, ds.map Decision.bit = raw.flatMap (fun b => bitsBE 8 b.toNat) ∧
      encode raw = (record {} ds).finish := by
  obtain ⟨ds, hbits, hrecord⟩ := exists_record_foldl raw (s := (Model.initial, {}))
    Model.initial_sound
  exact ⟨ds, hbits, congrArg finish hrecord⟩

end Encoder

end LatticeSuite.RangeCoder
