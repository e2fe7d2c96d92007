import LatticeSuite.Proofs.Coding.Lockstep

/-!
# The range coder, one decision at a time

A byte string of `n` bytes is `8 * n` decisions, and both directions stop at
each of them. `encoderAt raw i j` and `decoderAt coded i j` are the two coders
just before decision `j` of the byte at `i`. They are cut out of the loops that
run: `decoderAt_zero`, `decoderAt_succ` and `decoderAt_next` say that a decoder
gets from one decision to the next by taking it and from one byte to the next by
putting the byte away, `decode_eq_decoderAt` that `decode` is where this ends,
and the same is said of the encoder.

`Agrees` is what the two sides have in common at a decision. They have the whole
table of probabilities in common and the range, and the decoder finds its code
inside the range and in the part of the bit that was recorded. It holds at every
decision of every byte string (`exists_agrees`), since the encoder of a decision
covers whatever was written after it (`covers_encoderAt`). In the end

> `decoder_keeps_step`: the decoder of what was encoded agrees with the encoder
> at each of the `8 * n` decisions, and behind the last one its buffer has been
> read to the end and no further.
-/

namespace LatticeSuite.RangeCoder

open Encoder (Covers)

/-! ## Loops, cut in two -/

theorem encodeBits_append (front back : List Bool) (node : Nat) (s : Model × Encoder) :
    encodeBits (front ++ back) node s =
      encodeBits back (front.foldl child node) (encodeBits front node s) := by
  induction front generalizing node s with
  | nil => rfl
  | cons bit front ih => exact ih (child node bit) _

theorem decodeBits_add (j k node : Nat) (s : Model × Decoder) :
    decodeBits (j + k) node s =
      (decodeBits j node s).bind fun (node, s) => decodeBits k node s := by
  induction j generalizing node s with
  | zero => rw [Nat.zero_add]; rfl
  | succ j ih =>
    rw [Nat.succ_add, decodeBits, decodeBits]
    cases s.2.decodeBit (s.1.odds node) with
    | error e => rfl
    | ok d => exact ih _ _

/-- The last byte of a loop, taken apart from those before it. -/
theorem decodeBytes_succ (k : Nat) (acc : List UInt8) (s : Model × Decoder) :
    decodeBytes (k + 1) acc s =
      (decodeBytes k acc s).bind fun (bs, s) =>
        (decodeByte s).map fun (b, s) => (bs ++ [b], s) := by
  induction k generalizing acc s with
  | zero =>
    show decodeBytes 1 acc s = (decodeByte s).map fun (b, s) => (acc.reverse ++ [b], s)
    rw [decodeBytes]
    cases decodeByte s with
    | error e => rfl
    | ok r => exact congrArg (fun bs => Except.ok (bs, r.2)) List.reverse_cons
  | succ k ih =>
    rw [decodeBytes, decodeBytes]
    cases decodeByte s with
    | error e => rfl
    | ok r => exact ih (r.1 :: acc) r.2

/-! ## The encoder before a decision -/

/-- The bits of the byte at `i`, in the order they are recorded. -/
def recorded (raw : Bytes) (i : Nat) : List Bool :=
  bitsBE 8 (raw.getD i 0).toNat

/-- The bit that decision `j` of the byte at `i` records. -/
def recordedBit (raw : Bytes) (i j : Nat) : Bool :=
  (raw.getD i 0).toNat.testBit (7 - j)

/-- The node that decision `j` of the byte at `i` is made at. -/
def nodeAt (raw : Bytes) (i j : Nat) : Nat :=
  ((recorded raw i).take j).foldl child 1

/-- The encoder before decision `j` of the byte at `i`. -/
def encoderAt (raw : Bytes) (i j : Nat) : Model × Encoder :=
  encodeBits ((recorded raw i).take j) 1 ((raw.take i).foldl encodeByte (Model.initial, {}))

@[simp] theorem length_recorded (raw : Bytes) (i : Nat) : (recorded raw i).length = 8 :=
  length_bitsBE 8 _

theorem recorded_eq {raw : Bytes} {i : Nat} (hi : i < raw.length) :
    recorded raw i = bitsBE 8 raw[i].toNat := by
  rw [recorded, List.getD_eq_getElem?_getD, List.getElem?_eq_getElem hi, Option.getD_some]

theorem getElem_bitsBE {k j : Nat} (n : Nat) (h : j < (bitsBE k n).length) :
    (bitsBE k n)[j] = n.testBit (k - 1 - j) := by
  induction k generalizing j with
  | zero => exact absurd h (Nat.not_lt_zero j)
  | succ k ih =>
    cases j with
    | zero => rfl
    | succ j =>
      have hsub : k + 1 - 1 - (j + 1) = k - 1 - j := by omega
      rw [hsub, ← ih (Nat.lt_of_succ_lt_succ h)]
      rfl

/-- The bits before the next decision are those before this one and its own. -/
theorem take_recorded_succ (raw : Bytes) (i : Nat) {j : Nat} (hj : j < 8) :
    (recorded raw i).take (j + 1) = (recorded raw i).take j ++ [recordedBit raw i j] := by
  have hlen : j < (recorded raw i).length := by rwa [length_recorded]
  rw [List.take_succ_eq_append_getElem hlen]
  congr 2
  exact getElem_bitsBE _ hlen

theorem nodeAt_succ (raw : Bytes) (i : Nat) {j : Nat} (hj : j < 8) :
    nodeAt raw i (j + 1) = child (nodeAt raw i j) (recordedBit raw i j) := by
  rw [nodeAt, take_recorded_succ raw i hj, List.foldl_append]
  rfl

/-- The encoder goes on by recording the bit at its node. -/
theorem encoderAt_succ (raw : Bytes) (i : Nat) {j : Nat} (hj : j < 8) :
    encoderAt raw i (j + 1) =
      ((encoderAt raw i j).1.learn (nodeAt raw i j) (recordedBit raw i j),
        (encoderAt raw i j).2.encodeBit ((encoderAt raw i j).1.odds (nodeAt raw i j))
          (recordedBit raw i j)) := by
  rw [encoderAt, take_recorded_succ raw i hj, encodeBits_append]
  rfl

/-- Behind its eight decisions a byte has been encoded. -/
theorem encoderAt_next {raw : Bytes} {i : Nat} (hi : i < raw.length) :
    encoderAt raw (i + 1) 0 = encoderAt raw i 8 := by
  have hfull : (recorded raw i).take 8 = bitsBE 8 raw[i].toNat := by
    rw [List.take_of_length_le (Nat.le_of_eq (length_recorded raw i)), recorded_eq hi]
  have hnone : (recorded raw (i + 1)).take 0 = [] := rfl
  rw [encoderAt, encoderAt, hfull, hnone, List.take_succ_eq_append_getElem hi, List.foldl_append]
  rfl

theorem encode_eq_encoderAt (raw : Bytes) : encode raw = (encoderAt raw raw.length 0).2.finish := by
  have hnone : (recorded raw raw.length).take 0 = [] := rfl
  rw [encoderAt, hnone, List.take_length]
  rfl

theorem ready_encoderAt (raw : Bytes) (i j : Nat) : Ready (encoderAt raw i j) := by
  have hs := ready_new.foldl (raw.take i)
  obtain ⟨hm, he⟩ := Encoder.live_encodeBits ((recorded raw i).take j) 1 hs.sound hs.live
  exact ⟨hm, he⟩

/-- **What was written is covered** by the encoder of every decision. -/
theorem covers_encoderAt {raw : Bytes} {i : Nat} (hi : i < raw.length) (j : Nat) :
    (encoderAt raw i j).2.Covers (encode raw) := by
  have hlast : (raw.foldl encodeByte (Model.initial, {})).2.Covers (encode raw) :=
    (ready_new.foldl raw).live.covers_finish
  -- back over the bytes behind this one
  have hsplit : raw = raw.take i ++ raw[i] :: raw.drop (i + 1) := by
    rw [List.getElem_cons_drop, List.take_append_drop]
  have hbyte : (encodeByte ((raw.take i).foldl encodeByte (Model.initial, {})) raw[i]).2.Covers
      (encode raw) := by
    have hs := (ready_new.foldl (raw.take i)).encodeByte raw[i]
    rw [hsplit, List.foldl_append, List.foldl_cons, ← hsplit] at hlast
    exact hs.covers_of_foldl hlast
  -- and over the decisions left of it
  have hbits : bitsBE 8 raw[i].toNat = (recorded raw i).take j ++ (recorded raw i).drop j := by
    rw [List.take_append_drop, recorded_eq hi]
  rw [encodeByte, hbits, encodeBits_append] at hbyte
  have hs := ready_encoderAt raw i j
  exact Encoder.covers_of_encodeBits _ _ hs.sound hs.live hbyte

/-! ## The decoder before a decision -/

/-- A decoder between two decisions. -/
structure Paused where
  /-- The bytes put away. -/
  bytes : Bytes
  /-- The node that the next decision is made at. -/
  node : Nat
  model : Model
  decoder : Decoder

namespace Paused

/-- Take the next decision. -/
def decide (here : Paused) : Decoded Paused :=
  let bit := here.decoder.bit (here.model.odds here.node)
  (here.decoder.decodeBit (here.model.odds here.node)).map fun decoder =>
    { here with node := child here.node bit, model := here.model.learn here.node bit, decoder }

/-- Put the byte of the last eight decisions away. -/
def putAway (here : Paused) : Paused :=
  { here with bytes := here.bytes ++ [UInt8.ofNat (here.node - 256)], node := 1 }

end Paused

/-- The decoder of a buffer before decision `j` of the byte at `i`. -/
def decoderAt (coded : Bytes) (i j : Nat) : Decoded Paused :=
  (Decoder.start coded).bind fun d =>
    (decodeBytes i [] (Model.initial, d)).bind fun (bytes, s) =>
      (decodeBits j 1 s).map fun (node, model, decoder) => { bytes, node, model, decoder }

theorem decoderAt_zero (coded : Bytes) :
    decoderAt coded 0 0 = (Decoder.start coded).map fun decoder =>
      { bytes := [], node := 1, model := Model.initial, decoder } := by
  rw [decoderAt]
  cases Decoder.start coded <;> rfl

/-- The decoder goes on by taking the decision. -/
theorem decoderAt_succ (coded : Bytes) (i j : Nat) :
    decoderAt coded i (j + 1) = (decoderAt coded i j).bind Paused.decide := by
  rw [decoderAt, decoderAt]
  cases Decoder.start coded with
  | error e => rfl
  | ok d =>
    simp only [Except.bind]
    cases decodeBytes i [] (Model.initial, d) with
    | error e => rfl
    | ok r =>
      simp only [decodeBits_add j 1]
      cases decodeBits j 1 r.2 with
      | error e => rfl
      | ok t =>
        obtain ⟨node, m, d'⟩ := t
        simp only [Except.bind, Except.map, decodeBits, Paused.decide]
        cases d'.decodeBit (m.odds node) <;> rfl

/-- Behind its eight decisions a byte is put away. -/
theorem decoderAt_next (coded : Bytes) (i : Nat) :
    decoderAt coded (i + 1) 0 = (decoderAt coded i 8).map Paused.putAway := by
  rw [decoderAt, decoderAt]
  cases Decoder.start coded with
  | error e => rfl
  | ok d =>
    simp only [Except.bind, decodeBytes_succ]
    cases decodeBytes i [] (Model.initial, d) with
    | error e => rfl
    | ok r =>
      simp only [decodeByte]
      cases decodeBits 8 1 r.2 <;> rfl

theorem decode_eq_decoderAt (coded : Bytes) (rawLength : Nat) :
    decode coded rawLength = (decoderAt coded rawLength 0).map Paused.bytes := by
  rw [decode, decoderAt]
  cases Decoder.start coded with
  | error e => rfl
  | ok d =>
    simp only [Except.bind]
    cases decodeBytes rawLength [] (Model.initial, d) <;> rfl

/-! ## Both at the same decision -/

/-- The decoder before decision `j` of the byte at `i`, against the encoder
there. -/
structure Agrees (raw : Bytes) (i j : Nat) (here : Paused) : Prop where
  bytes : here.bytes = raw.take i
  node : here.node = nodeAt raw i j
  model : here.model = (encoderAt raw i j).1
  range : here.decoder.range = (encoderAt raw i j).2.range
  /-- Four bytes have been read beyond those that left the encoder. -/
  unread : here.decoder.rest = (encode raw).drop ((encoderAt raw i j).2.width + 4)
  code_lt : here.decoder.code < here.decoder.range
  bit : here.decoder.bit (here.model.odds here.node) = recordedBit raw i j

/-- Both sides get to the decision, in step. -/
theorem exists_inStep {raw : Bytes} {i j : Nat} (hi : i < raw.length) (hj : j < 8) :
    ∃ d, decoderAt (encode raw) i j =
        .ok ⟨raw.take i, nodeAt raw i j, (encoderAt raw i j).1, d⟩ ∧
      InStep (encoderAt raw i j).2 d (encode raw) := by
  have hs := ready_new.foldl (raw.take i)
  have hcov := covers_encoderAt hi j
  have hbytes := Encoder.covers_of_encodeBits _ 1 hs.sound hs.live hcov
  obtain ⟨d, hd, hstart⟩ := start_inStep (ready_new.covers_of_foldl hbytes)
  obtain ⟨d₁, hd₁, hstep₁⟩ := decodeBytes_inStep (raw.take i) [] ready_new hstart hbytes
  obtain ⟨d₂, hd₂, hstep₂⟩ := decodeBits_inStep _ 1 hs.sound hs.live hstep₁ hcov
  refine ⟨d₂, ?_, hstep₂⟩
  have hi' : (raw.take i).length = i := List.length_take_of_le (Nat.le_of_lt hi)
  have hj' : ((recorded raw i).take j).length = j :=
    List.length_take_of_le (by rw [length_recorded]; exact Nat.le_of_lt hj)
  rw [hi'] at hd₁
  rw [hj'] at hd₂
  rw [decoderAt, hd]
  simp only [Except.bind, hd₁, hd₂]
  rfl

theorem exists_agrees {raw : Bytes} {i j : Nat} (hi : i < raw.length) (hj : j < 8) :
    ∃ here, decoderAt (encode raw) i j = .ok here ∧ Agrees raw i j here := by
  obtain ⟨d, hd, hstep⟩ := exists_inStep hi hj
  have hs := ready_encoderAt raw i j
  have hend := (covers_encoderAt hi j).lt_end
  refine ⟨_, hd, rfl, rfl, rfl, hstep.range, hstep.rest, ?_, ?_⟩
  · show d.code < d.range
    rw [← hstep.code] at hend
    rw [hstep.range]
    exact Nat.lt_of_add_lt_add_left hend
  · -- the encoder that recorded the bit covers the buffer as well
    have hnext := covers_encoderAt hi (j + 1)
    rw [encoderAt_succ raw i hj] at hnext
    exact (decodeBit_inStep hstep hs.live (hs.sound _) hnext).1

/-- The lead byte that a decoder asks for is the first that is written. -/
theorem head?_encode (raw : Bytes) : (encode raw).head? = some 0 := by
  obtain ⟨d, -, hd, -⟩ := decodeBytes_encode raw
  unfold Decoder.start at hd
  split at hd
  next lead b₃ b₂ b₁ b₀ rest heq =>
    split at hd
    next hlead => rw [heq, List.head?_cons, hlead]
    next => exact absurd hd (by simp)
  next => exact absurd hd (by simp)

/-- **A decoder keeps step with the encoder** at every decision, and reads the
buffer to its end. -/
theorem decoder_keeps_step (raw : Bytes) :
    (encode raw).head? = some 0 ∧
      (∀ i j, i < raw.length → j < 8 →
        ∃ here, decoderAt (encode raw) i j = .ok here ∧ Agrees raw i j here) ∧
      ∃ last, decoderAt (encode raw) raw.length 0 = .ok last ∧
        last.bytes = raw ∧ last.decoder.rest = [] := by
  refine ⟨head?_encode raw, fun i j hi hj => exists_agrees hi hj, ?_⟩
  obtain ⟨d, s, hd, hs, hrest⟩ := decodeBytes_encode raw
  refine ⟨⟨raw, 1, s.1, s.2⟩, ?_, rfl, hrest⟩
  rw [decoderAt, hd]
  simp only [Except.bind, hs]
  rfl

theorem decoder_keeps_step_of_two_bytes :
    1 < [0x61, 0x62].length ∧ 3 < 8 ∧
      ∃ here, decoderAt (encode [0x61, 0x62]) 1 3 = .ok here ∧ Agrees [0x61, 0x62] 1 3 here :=
  ⟨by decide, by decide, (decoder_keeps_step [0x61, 0x62]).2.1 1 3 (by decide) (by decide)⟩

end LatticeSuite.RangeCoder
