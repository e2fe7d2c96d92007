import LatticeSuite.Proofs.Checked.Basic
import LatticeSuite.Proofs.Coding.Decisions

/-!
# The range decoder in registers

A decoder cannot count on an encoder. The code that it reads may lie beyond its
range, and then it stays there: a decision takes the same bound away from both.
What does not depend on the input is `Stable`. The probabilities stay away from
both ends and the range is at its floor or above whenever a decision is to be
made, and both follow from the arithmetic of one decision (`Stable.decide`).

`decodeChecked` is the decoder as a machine runs it, with a code and a range of 32
bits, probabilities of 16 bits in a table of 256, and a position in the input. It
loops where the decoder takes a single step or a fixed number of steps: the range
is widened until it is wide enough, and decisions are made until the node is a
leaf. On a stable decoder these loops come to the same, and no step of them has a
fault:

> `decodeChecked_eq`: in registers the decoder yields the same bytes or the same
> error, on any input.

The list of what is left of the input is a view of the position. All that is
asked for is that the decisions can be counted in a position, each of them
reading a byte at most.
-/

namespace LatticeSuite.RangeCoder

open Checked

/-! ## The loops of the decoder as sequences of steps -/

theorem decodeBits_succ_eq (k node : Nat) (m : Model) (d : Decoder) :
    decodeBits (k + 1) node (m, d) = (d.decodeBit (m.odds node)).bind fun d' =>
      decodeBits k (child node (d.bit (m.odds node)))
        (m.learn node (d.bit (m.odds node)), d') := by
  rw [decodeBits]
  cases d.decodeBit (m.odds node) <;> rfl

theorem decodeBytes_succ_eq (k : Nat) (acc : List UInt8) (s : Model × Decoder) :
    decodeBytes (k + 1) acc s = (decodeBits 8 1 s).bind fun r =>
      decodeBytes k (UInt8.ofNat (r.1 - 256) :: acc) r.2 := by
  rw [decodeBytes, decodeByte]
  cases decodeBits 8 1 s <;> rfl

theorem decode_eq_bind (coded : Bytes) (rawLength : Nat) :
    decode coded rawLength = (Decoder.start coded).bind fun d =>
      (decodeBytes rawLength [] (Model.initial, d)).map (·.1) := by
  rw [decode]
  cases Decoder.start coded <;> rfl

/-! ## What holds on any input -/

/-- What does not depend on the code. -/
structure Decoder.Steady (d : Decoder) : Prop where
  floor_le : rangeFloor ≤ d.range
  range_lt : d.range < 2 ^ 32
  code_lt : d.code < 2 ^ 32

/-- A decoder and its probabilities on any input. -/
structure Stable (s : Model × Decoder) : Prop where
  size : s.1.size = 256
  sound : s.1.Sound
  steady : s.2.Steady

theorem Decoder.Steady.decodeBit {d d' : Decoder} (h : d.Steady) {p : Nat} (hp : Odds p)
    (hd : d.decodeBit p = .ok d') : d'.Steady := by
  have hfloor : rangeFloor = 2 ^ 24 := rfl
  have hnarrow := le_narrowed h.floor_le hp (d.bit p)
  have hoffset := offset_add_narrowed_le h.floor_le hp (d.bit p)
  have hrange := h.range_lt
  have hcode := h.code_lt
  rw [d.decodeBit_eq, renormalise] at hd
  split at hd
  next hlt =>
    split at hd
    next => exact absurd hd (by simp)
    next b rest _ =>
      rw [← Except.ok.inj hd]
      have hlt' : narrowed d.range p (d.bit p) < rangeFloor := hlt
      refine ⟨?_, ?_, Nat.mod_lt _ (by decide)⟩
      · show rangeFloor ≤ narrowed d.range p (d.bit p) * 256
        omega
      · show narrowed d.range p (d.bit p) * 256 < 2 ^ 32
        omega
  next hge =>
    rw [← Except.ok.inj hd]
    refine ⟨Nat.le_of_not_lt hge, ?_, ?_⟩
    · show narrowed d.range p (d.bit p) < 2 ^ 32
      omega
    · show d.code - offset d.range p (d.bit p) < 2 ^ 32
      omega

/-- **One decision.** -/
theorem Stable.decide {m : Model} {d d' : Decoder} (h : Stable (m, d)) (node : Nat)
    (hd : d.decodeBit (m.odds node) = .ok d') (bit : Bool) : Stable (m.learn node bit, d') :=
  ⟨(Array.size_modify ..).trans h.size, h.sound.learn node bit,
    h.steady.decodeBit (h.sound node) hd⟩

theorem Stable.decodeBits {s s' : Model × Decoder} (h : Stable s) {k node node' : Nat}
    (hs : decodeBits k node s = .ok (node', s')) : Stable s' := by
  induction k generalizing node s with
  | zero =>
    obtain ⟨-, rfl⟩ := Prod.mk.inj (Except.ok.inj hs)
    exact h
  | succ k ih =>
    obtain ⟨m, d⟩ := s
    rw [decodeBits_succ_eq] at hs
    obtain ⟨d', hd, hs⟩ := Decoded.exists_of_bind hs
    exact ih (h.decide node hd _) hs

theorem Stable.decodeBytes {s s' : Model × Decoder} (h : Stable s) {k : Nat} {acc : List UInt8}
    {bs : Bytes} (hs : decodeBytes k acc s = .ok (bs, s')) :
    Stable s' ∧ bs.length = acc.length + k := by
  induction k generalizing acc s with
  | zero =>
    obtain ⟨rfl, rfl⟩ := Prod.mk.inj (Except.ok.inj hs)
    exact ⟨h, by simp⟩
  | succ k ih =>
    rw [decodeBytes_succ_eq] at hs
    obtain ⟨⟨node, s₁⟩, hbits, hs⟩ := Decoded.exists_of_bind hs
    obtain ⟨hstable, hlen⟩ := ih (h.decodeBits hbits) hs
    refine ⟨hstable, ?_⟩
    rw [hlen, List.length_cons]
    omega

theorem start_stable {coded : Bytes} {d : Decoder} (h : Decoder.start coded = .ok d) :
    Stable (Model.initial, d) := by
  refine ⟨Array.size_replicate, Model.initial_sound, ?_⟩
  unfold Decoder.start at h
  split at h
  next lead b₃ b₂ b₁ b₀ rest =>
    split at h
    next =>
      have hcode : Bytes.ofBE [b₃, b₂, b₁, b₀] < 256 ^ 4 := Bytes.ofBE_lt _
      rw [← Except.ok.inj h]
      refine ⟨?_, ?_, ?_⟩
      · show rangeFloor ≤ 2 ^ 32 - 1
        decide
      · show 2 ^ 32 - 1 < 2 ^ 32
        decide
      · show Bytes.ofBE [b₃, b₂, b₁, b₀] < 2 ^ 32
        omega
    next => exact absurd h (by simp)
  next => exact absurd h (by simp)

/-- **Every decision of every input** finds a stable decoder. -/
theorem stable_decoderAt {coded : Bytes} {i j : Nat} {here : Paused}
    (h : decoderAt coded i j = .ok here) : Stable (here.model, here.decoder) := by
  rw [decoderAt] at h
  obtain ⟨d, hstart, h⟩ := Decoded.exists_of_bind h
  obtain ⟨⟨bytes, s⟩, hbytes, h⟩ := Decoded.exists_of_bind h
  obtain ⟨⟨node, s'⟩, hbits, rfl⟩ := Decoded.exists_of_map h
  exact ((start_stable hstart).decodeBytes hbytes).1.decodeBits hbits

/-- What is decoded has the length asked for. -/
theorem length_of_decode {coded raw : Bytes} {rawLength : Nat}
    (h : decode coded rawLength = .ok raw) : raw.length = rawLength := by
  rw [decode_eq_bind] at h
  obtain ⟨d, hstart, h⟩ := Decoded.exists_of_bind h
  obtain ⟨⟨bytes, s⟩, hbytes, rfl⟩ := Decoded.exists_of_map h
  rw [((start_stable hstart).decodeBytes hbytes).2]
  exact Nat.zero_add _

/-! ## The decoder as a machine runs it -/

/-- What a decoder keeps in registers. -/
structure Registers where
  code : Nat
  range : Nat
  /-- How much of the input is read. -/
  pos : Nat

/-- A byte moved into a register of 32 bits from the right. -/
def shiftIn (code : Nat) (b : UInt8) : Nat :=
  (code <<< 8) % 2 ^ 32 ||| b.toNat

namespace Registers

def start (input : Bytes) : Checked Registers :=
  if input.length < 5 then refuse .truncated
  else do
    let lead ← read input 0
    if lead ≠ 0 then refuse (.malformed "range coder lead byte")
    else do
      let digits ← slice input 1 5
      .ok { code := digits.foldl shiftIn 0, range := 2 ^ 32 - 1, pos := 5 }

/-- The byte at a position, and the position behind it. -/
def nextByte (input : Bytes) (pos : Nat) : Checked (UInt8 × Nat) :=
  match input[pos]? with
  | none => refuse .truncated
  | some b => do
    let pos ← fit 64 (pos + 1)
    .ok (b, pos)

theorem eq_of_nextByte {input : Bytes} {pos pos' : Nat} {b : UInt8}
    (h : nextByte input pos = .ok (b, pos')) : pos < input.length ∧ pos' = pos + 1 := by
  rw [nextByte] at h
  split at h
  next => exact absurd h (by simp [refuse])
  next b' hget =>
    obtain ⟨hlt, -⟩ := List.getElem?_eq_some_iff.mp hget
    cases hfit : fit 64 (pos + 1) with
    | error e =>
      rw [hfit] at h
      exact absurd h (by simp)
    | ok next =>
      rw [hfit] at h
      obtain ⟨-, rfl⟩ := Prod.mk.inj (Except.ok.inj h)
      exact ⟨hlt, eq_of_fit hfit⟩

/-- Widen the range by bytes of input until it is at its floor. -/
def renormalise (input : Bytes) (r : Registers) : Checked Registers :=
  if r.range < rangeFloor then
    match _h : nextByte input r.pos with
    | .error e => .error e
    | .ok (b, pos) =>
      renormalise input { code := shiftIn r.code b, range := (r.range <<< 8) % 2 ^ 32, pos }
  else .ok r
termination_by input.length - r.pos
decreasing_by
  obtain ⟨hlt, rfl⟩ := eq_of_nextByte _h
  show input.length - (r.pos + 1) < input.length - r.pos
  omega

/-- Take a decision of probability `p`: the bit that it yields, the probability
that it leaves, and the registers. -/
def decodeBit (input : Bytes) (r : Registers) (p : Nat) : Checked (Bool × Nat × Registers) := do
  let bound ← fit 32 ((r.range >>> 11) * p)
  if r.code < bound then do
    let rise ← sub 2048 p
    let p ← fit 16 (p + (rise >>> 5))
    let r ← renormalise input { r with range := bound }
    .ok (false, p, r)
  else do
    let code ← sub r.code bound
    let range ← sub r.range bound
    let p ← sub p (p >>> 5)
    let r ← renormalise input { r with code, range }
    .ok (true, p, r)

end Registers

/-- Take decisions from a node down to a leaf. -/
def descend (input : Bytes) (node : Nat) (hnode : 0 < node) (probs : List Nat) (r : Registers) :
    Checked (Nat × List Nat × Registers) :=
  if _h : node < 256 then do
    let p ← read probs node
    let (bit, p, r) ← r.decodeBit input p
    let probs ← write probs node p
    descend input (node <<< 1 ||| bit.toNat)
      (Nat.lt_of_lt_of_le (by rw [Nat.shiftLeft_eq]; omega) Nat.left_le_or) probs r
  else .ok (node, probs, r)
termination_by 256 - node
decreasing_by
  have hle : node <<< 1 ≤ node <<< 1 ||| bit.toNat := Nat.left_le_or
  rw [Nat.shiftLeft_eq] at hle ⊢
  omega

/-- Take `count` bytes, appended to the reversed `acc`. -/
def decodeBytesChecked (input : Bytes) : (count : Nat) → (acc : List UInt8) → List Nat →
    Registers → Checked Bytes
  | 0, acc, _, _ => .ok acc.reverse
  | k + 1, acc, probs, r => do
    let (node, probs, r) ← descend input 1 Nat.one_pos probs r
    let b ← sub node 256
    decodeBytesChecked input k (UInt8.ofNat b :: acc) probs r

/-- The first `rawLength` bytes of what a buffer codes. -/
def decodeChecked (coded : Bytes) (rawLength : Nat) : Checked Bytes := do
  let r ← Registers.start coded
  let out ← decodeBytesChecked coded rawLength [] (List.replicate 256 evenOdds) r
  .ok out

/-! ## Registers and decoders -/

theorem shiftIn_eq (code : Nat) (b : UInt8) : shiftIn code b = (code * 256 + b.toNat) % 2 ^ 32 := by
  have hb : b.toNat < 2 ^ 8 := b.toNat_lt
  have hshift : (code <<< 8) % 2 ^ 32 = (code % 2 ^ 24) <<< 8 := by
    rw [Nat.shiftLeft_eq, Nat.shiftLeft_eq]
    omega
  rw [shiftIn, hshift, ← Nat.shiftLeft_add_eq_or_of_lt hb, Nat.shiftLeft_eq]
  omega

theorem foldl_shiftIn {digits : Bytes} (h : digits.length ≤ 4) :
    digits.foldl shiftIn 0 = Bytes.ofBE digits := by
  induction digits using List.reverseRecOn with
  | nil => rfl
  | append_singleton digits b ih =>
    rw [List.length_append, List.length_singleton] at h
    have hlt := Bytes.ofBE_lt digits
    have hpow : 256 ^ digits.length ≤ 256 ^ 3 := Nat.pow_le_pow_right (by decide) (by omega)
    have hb := b.toNat_lt
    rw [List.foldl_append, ih (by omega), Bytes.ofBE_concat]
    show shiftIn (Bytes.ofBE digits) b = _
    rw [shiftIn_eq, Nat.mod_eq_of_lt (by omega)]

theorem shiftLeft_one_or (node : Nat) (bit : Bool) : node <<< 1 ||| bit.toNat = child node bit := by
  rw [Nat.shiftLeft_eq, Nat.pow_one, Nat.mul_comm, two_mul_or, child]

/-- A model is a table of its probabilities, and learning changes one of them. -/
theorem Model.odds_learn {m : Model} {node : Nat} (h : node < m.size) (bit : Bool) :
    (m.learn node bit).odds = Function.update m.odds node (adapt (m.odds node) bit) := by
  funext i
  rw [Function.update_apply, odds, odds, odds, learn, Array.getD_eq_getD_getElem?,
    Array.getD_eq_getD_getElem?, Array.getD_eq_getD_getElem?, Array.getElem?_modify]
  by_cases hi : node = i
  · subst hi
    rw [if_pos rfl, if_pos rfl, Array.getElem?_eq_getElem h]
    rfl
  · rw [if_neg hi, if_neg fun heq => hi heq.symm]

/-- Registers of a decoder that has read at most `limit` bytes. -/
structure Registers.Holds (input : Bytes) (limit : Nat) (r : Registers) (d : Decoder) : Prop where
  code_eq : r.code = d.code
  range_eq : r.range = d.range
  rest_eq : d.rest = input.drop r.pos
  pos_le : r.pos ≤ limit

namespace Registers

variable {input : Bytes} {limit : Nat}

theorem renormalise_eq (input : Bytes) (r : Registers) :
    r.renormalise input =
      if r.range < rangeFloor then do
        let (b, pos) ← nextByte input r.pos
        renormalise input { code := shiftIn r.code b, range := (r.range <<< 8) % 2 ^ 32, pos }
      else .ok r := by
  rw [renormalise]
  split
  next =>
    split
    next e h => rw [h, error_bind]
    next b pos h => rw [h, ok_bind]
  next => rfl

/-- One byte is enough. -/
theorem Holds.renormalise {r : Registers} {d : Decoder} (h : r.Holds input limit d)
    (hlo : 2 ^ 16 ≤ d.range) (hhi : d.range < 2 ^ 32) (hlimit : limit + 1 < 2 ^ 64) :
    Refines (Holds input (limit + 1)) (r.renormalise input) d.renormalise := by
  have hfloor : rangeFloor = 2 ^ 24 := rfl
  have hpos := h.pos_le
  rw [renormalise_eq, Decoder.renormalise, h.range_eq, h.rest_eq]
  by_cases hwide : d.range < rangeFloor
  · rw [if_pos hwide, if_pos hwide, nextByte]
    cases hget : input[r.pos]? with
    | none =>
      rw [List.drop_eq_nil_iff.mpr (List.getElem?_eq_none_iff.mp hget)]
      rfl
    | some b =>
      obtain ⟨hlt, rfl⟩ := List.getElem?_eq_some_iff.mp hget
      have hrange : (d.range <<< 8) % 2 ^ 32 = d.range * 256 := by
        rw [Nat.shiftLeft_eq]
        omega
      rw [List.drop_eq_getElem_cons hlt]
      simp only [fit_of_lt (show r.pos + 1 < 2 ^ 64 by omega), ok_bind, hrange]
      -- there is no second round
      rw [renormalise_eq, if_neg (by show ¬d.range * 256 < rangeFloor; omega)]
      refine ⟨_, rfl, ?_, rfl, rfl, ?_⟩
      · rw [shiftIn_eq, h.code_eq]
      · show r.pos + 1 ≤ limit + 1
        omega
  · rw [if_neg hwide, if_neg hwide]
    exact ⟨r, rfl, h.code_eq, h.range_eq, h.rest_eq, by omega⟩

/-- **A decision in registers.** -/
theorem Holds.decodeBit {r : Registers} {d : Decoder} (h : r.Holds input limit d) (hd : d.Steady)
    {p : Nat} (hp : Odds p) (hlimit : limit + 1 < 2 ^ 64) :
    Refines (fun s d' => s.1 = d.bit p ∧ s.2.1 = adapt p (d.bit p) ∧
      s.2.2.Holds input (limit + 1) d') (r.decodeBit input p) (d.decodeBit p) := by
  have hbounds := bound_lt hd.floor_le hp
  have hnarrow := le_narrowed hd.floor_le hp (d.bit p)
  have hoffset := offset_add_narrowed_le hd.floor_le hp (d.bit p)
  have hrange := hd.range_lt
  have hbound : (d.range >>> 11) * p = bound d.range p := by
    rw [Nat.shiftRight_eq_div_pow]
    rfl
  have hholds : Holds input limit
      { code := d.code - offset d.range p (d.bit p), range := narrowed d.range p (d.bit p),
        pos := r.pos } (d.narrow p (d.bit p)) := ⟨rfl, rfl, h.rest_eq, h.pos_le⟩
  have hfits : narrowed d.range p (d.bit p) < 2 ^ 32 := by omega
  have hwiden := hholds.renormalise hnarrow hfits hlimit
  obtain ⟨hplo, hphi⟩ := hp
  rw [Registers.decodeBit, d.decodeBit_eq, h.range_eq, h.code_eq, hbound, fit_of_lt (by omega),
    ok_bind]
  by_cases hlt : d.code < bound d.range p
  · have hbit : d.bit p = false := decide_eq_false (Nat.not_le_of_lt hlt)
    have hadapt : p + ((2048 - p) >>> 5) = adapt p false := by
      rw [Nat.shiftRight_eq_div_pow]
      rfl
    rw [hbit] at hwiden ⊢
    rw [if_pos hlt, sub_of_le (by omega), ok_bind, hadapt, fit_of_lt, ok_bind]
    · exact hwiden.yield fun r' d' hr => ⟨rfl, rfl, hr⟩
    · show p + (2048 - p) / 32 < 2 ^ 16
      omega
  · have hbit : d.bit p = true := decide_eq_true (Nat.le_of_not_lt hlt)
    have hadapt : p - (p >>> 5) = adapt p true := by
      rw [Nat.shiftRight_eq_div_pow]
      rfl
    rw [hbit] at hwiden ⊢
    rw [if_neg hlt, sub_of_le (Nat.le_of_not_lt hlt), ok_bind, sub_of_le (by omega), ok_bind,
      sub_of_le (by rw [Nat.shiftRight_eq_div_pow]; omega), ok_bind, hadapt]
    exact hwiden.yield fun r' d' hr => ⟨rfl, rfl, hr⟩

/-- Odds above certainty cannot be raised. -/
example : decodeBit [] { code := 0, range := 2 ^ 24, pos := 5 } 2049 = .error (.fault .underflow) :=
  rfl

end Registers

/-- A machine that has read at most `limit` bytes. -/
structure Keeps (input : Bytes) (limit : Nat) (probs : List Nat) (r : Registers)
    (s : Model × Decoder) : Prop where
  stable : Stable s
  probs_eq : probs = tabulate 256 s.1.odds
  holds : r.Holds input limit s.2

section

variable {input : Bytes} {limit : Nat} {probs : List Nat} {r : Registers} {s : Model × Decoder}

/-- **A byte in registers.** A node that is `k` decisions above the leaves. -/
theorem Keeps.descend {k node : Nat} (hnode : 0 < node) (h : Keeps input limit probs r s)
    (hlo : 2 ^ 8 ≤ 2 ^ k * node) (hhi : 2 ^ k * (node + 1) ≤ 2 ^ 9) (hlimit : limit + k < 2 ^ 64) :
    Refines (fun x y => x.1 = y.1 ∧ 2 ^ 8 ≤ x.1 ∧ Keeps input (limit + k) x.2.1 x.2.2 y.2)
      (descend input node hnode probs r) (decodeBits k node s) := by
  induction k generalizing limit node probs r s with
  | zero =>
    rw [Nat.pow_zero, Nat.one_mul] at hlo
    rw [RangeCoder.descend, dif_neg (Nat.not_lt.mpr hlo), decodeBits]
    exact ⟨_, rfl, rfl, hlo, h⟩
  | succ k ih =>
    obtain ⟨m, d⟩ := s
    rw [show 2 ^ (k + 1) = 2 ^ k * 2 from Nat.pow_succ .., Nat.mul_assoc] at hlo hhi
    -- the node has leaves below it, and those end at 511
    have hleaf : node < 256 := by
      have := Nat.mul_le_mul_right (2 * (node + 1)) (Nat.one_le_two_pow (n := k))
      omega
    rw [RangeCoder.descend, dif_pos hleaf, h.probs_eq, read_tabulate _ hleaf, ok_bind,
      decodeBits_succ_eq]
    have hodds := h.stable.sound node
    refine (h.holds.decodeBit h.stable.steady hodds (by omega)).bind ?_
    rintro ⟨bit, p, r'⟩ d' hd ⟨hbit, hp, hr'⟩
    simp only at hbit hp hr'
    subst hbit hp
    simp only [write_tabulate _ hleaf, ok_bind, shiftLeft_one_or]
    have hstable := h.stable.decide node hd (d.bit (m.odds node))
    have hkeeps : Keeps input (limit + 1)
        (tabulate 256 (Function.update m.odds node (adapt (m.odds node) (d.bit (m.odds node)))))
        r' (m.learn node (d.bit (m.odds node)), d') :=
      ⟨hstable, by rw [Model.odds_learn (h.stable.size ▸ hleaf)], hr'⟩
    rw [show limit + (k + 1) = limit + 1 + k from by omega]
    refine ih (by rw [child]; omega) hkeeps ?_ ?_ (by omega)
    · exact Nat.le_trans hlo (Nat.mul_le_mul_left _ (Nat.le_add_right _ _))
    · refine Nat.le_trans (Nat.mul_le_mul_left _ ?_) hhi
      have hbit : (d.bit (m.odds node)).toNat < 2 := Bool.toNat_lt _
      rw [child]
      omega

/-- **A byte string in registers.** -/
theorem Keeps.decodeBytes {k : Nat} {acc : List UInt8} (h : Keeps input limit probs r s)
    (hlimit : limit + 8 * k < 2 ^ 64) :
    Refines (fun out t => out = t.1) (decodeBytesChecked input k acc probs r)
      (decodeBytes k acc s) := by
  induction k generalizing limit acc probs r s with
  | zero => exact ⟨_, rfl, rfl⟩
  | succ k ih =>
    rw [decodeBytesChecked, decodeBytes_succ_eq]
    refine (h.descend (k := 8) Nat.one_pos (by decide) (by decide) (by omega)).bind ?_
    rintro ⟨node, probs', r'⟩ ⟨node', s'⟩ - ⟨rfl, hleaf, h'⟩
    simp only [sub_of_le hleaf, ok_bind]
    exact ih h' (by omega)

end

theorem Registers.start_refines (coded : Bytes) :
    Refines (fun r d => Keeps coded 5 (List.replicate 256 evenOdds) r (Model.initial, d))
      (Registers.start coded) (Decoder.start coded) := by
  have hstable := fun d (h : Decoder.start coded = .ok d) => start_stable h
  match coded with
  | lead :: b₃ :: b₂ :: b₁ :: b₀ :: rest =>
    rw [Registers.start, if_neg (by simp), read_of_getElem? (a := lead) rfl, ok_bind]
    unfold Decoder.start at hstable ⊢
    by_cases hlead : lead = 0
    · rw [if_neg (not_not.mpr hlead), slice_of_le (by decide) (by simp), ok_bind]
      simp only [if_pos hlead] at hstable ⊢
      refine ⟨_, rfl, hstable _ rfl, ?_, ?_, rfl, rfl, Nat.le_refl 5⟩
      · rw [replicate_eq_tabulate]
        exact congrArg (tabulate 256) (funext fun i => (Model.odds_initial i).symm)
      · exact foldl_shiftIn (show [b₃, b₂, b₁, b₀].length ≤ 4 from Nat.le_refl 4)
    · rw [if_pos hlead]
      simp only [if_neg hlead]
      rfl
  | [] | [_] | [_, _] | [_, _, _] | [_, _, _, _] => rfl

/-- **Decoding in registers** is decoding. -/
theorem decodeChecked_eq (coded : Bytes) {rawLength : Nat} (h : 5 + 8 * rawLength < 2 ^ 64) :
    decodeChecked coded rawLength = ofDecoded (decode coded rawLength) := by
  rw [← refines_eq_iff, decodeChecked, decode_eq_bind]
  exact (Registers.start_refines coded).bind fun r d _ hkeeps =>
    (hkeeps.decodeBytes h).map fun out t hout => hout

end LatticeSuite.RangeCoder
