import LatticeSuite.Coding.Bits
import LatticeSuite.Coding.Error

/-!
# The adaptive range coder

Both directions walk the same trajectory. A decision at node `i` of the bit
tree splits the current range in proportion to the probability kept for `i`;
the encoder adds the lower part to `low` for a one, the decoder compares
`code` with it, and both then move the same probability in the same way. The
range is at least `2 ^ 24` before a decision and, since a probability never
leaves `[31, 2017]`, at least `31 * 2 ^ 13` after it: one shift by a byte
restores the bound, so renormalising is a single conditional step.

A carry out of `low` may run back through bytes already produced. The encoder
holds back the last byte that can still change (`cache`) and counts the bytes
of 255 behind it (`held` counts both), so that nothing once written is
touched again.
-/

namespace LatticeSuite.RangeCoder

/-- A probability of one half, in units of `2 ^ -11`. -/
def evenOdds : Nat := 1024

/-- A range below this is widened by one byte. -/
def rangeFloor : Nat := 2 ^ 24

/-- The probability of a zero after a decision: a thirty-second of the way
towards the bit that came. -/
def adapt (p : Nat) (bit : Bool) : Nat :=
  if bit then p - p / 32 else p + (2048 - p) / 32

/-- The part of the range that stands for a zero. -/
def bound (range p : Nat) : Nat :=
  range / 2048 * p

/-- The range left after a decision, before it is widened. -/
def narrowed (range p : Nat) (bit : Bool) : Nat :=
  if bit then range - bound range p else bound range p

/-! ## The probabilities -/

/-- The probability of a zero at each node of the bit tree. A node below 256
stands for the bits of the current byte read so far, behind a leading one. -/
abbrev Model := Array Nat

namespace Model

def initial : Model := Array.replicate 256 evenOdds

def odds (m : Model) (node : Nat) : Nat :=
  m.getD node evenOdds

def learn (m : Model) (node : Nat) (bit : Bool) : Model :=
  m.modify node (adapt · bit)

end Model

/-- The node reached from a node by a bit. -/
def child (node : Nat) (bit : Bool) : Nat :=
  2 * node + bit.toNat

/-! ## Encoding -/

structure Encoder where
  /-- The lower end of the range, below `2 ^ 33`: a carry is still inside. -/
  low : Nat := 0
  range : Nat := 2 ^ 32 - 1
  /-- The last byte that a carry may still raise. -/
  cache : UInt8 := 0
  /-- The bytes held back: the cache and the bytes of 255 that follow it. -/
  held : Nat := 1
  /-- The bytes written, latest first. -/
  out : List UInt8 := []
  deriving Inhabited

namespace Encoder

/-- Move the top byte of `low` out. If it can no longer change what is held
back, that is written with the carry added and the byte becomes the new
cache; a byte of 255 without a carry joins the bytes held back. -/
def shiftLow (e : Encoder) : Encoder :=
  let low := e.low % 2 ^ 24 * 256
  if e.low < 0xff000000 ∨ 0xffffffff < e.low then
    let carry := UInt8.ofNat (e.low / 2 ^ 32)
    { e with
      low
      cache := UInt8.ofNat (e.low / 2 ^ 24)
      held := 1
      out := List.replicate (e.held - 1) (0xff + carry) ++ (e.cache + carry) :: e.out }
  else
    { e with low, held := e.held + 1 }

/-- Widen the range by a byte if it fell below its floor. -/
def renormalise (e : Encoder) : Encoder :=
  if e.range < rangeFloor then { e.shiftLow with range := e.range * 256 } else e

/-- Record a decision whose zero has probability `p`. -/
def encodeBit (e : Encoder) (p : Nat) (bit : Bool) : Encoder :=
  renormalise
    { e with
      low := if bit then e.low + bound e.range p else e.low
      range := narrowed e.range p bit }

/-- The bytes of all decisions: five shifts move everything out. -/
def finish (e : Encoder) : Bytes :=
  e.shiftLow.shiftLow.shiftLow.shiftLow.shiftLow.out.reverse

end Encoder

/-- Record the decisions of `bits` from a node downwards. -/
def encodeBits : (bits : List Bool) → (node : Nat) → Model × Encoder → Model × Encoder
  | [], _, s => s
  | bit :: bits, node, (m, e) =>
    encodeBits bits (child node bit) (m.learn node bit, e.encodeBit (m.odds node) bit)

/-- Record the eight decisions of a byte. -/
def encodeByte (s : Model × Encoder) (b : UInt8) : Model × Encoder :=
  encodeBits (bitsBE 8 b.toNat) 1 s

def encode (raw : Bytes) : Bytes :=
  (raw.foldl encodeByte (Model.initial, {})).2.finish

/-! ## Decoding -/

structure Decoder where
  /-- The distance of the coded number from the lower end of the range. -/
  code : Nat
  range : Nat := 2 ^ 32 - 1
  /-- The input not read yet. -/
  rest : Bytes

namespace Decoder

/-- Start on a coded buffer. Its lead byte can only be zero; the next four
are the first digits of the coded number. -/
def start : Bytes → Decoded Decoder
  | lead :: b₃ :: b₂ :: b₁ :: b₀ :: rest =>
    if lead = 0 then .ok { code := Bytes.ofBE [b₃, b₂, b₁, b₀], rest }
    else .error (.malformed "range coder lead byte")
  | _ => .error .truncated

/-- Widen the range by a byte of input if it fell below its floor. -/
def renormalise (d : Decoder) : Decoded Decoder :=
  if d.range < rangeFloor then
    match d.rest with
    | [] => .error .truncated
    | b :: rest =>
      .ok { code := (d.code * 256 + b.toNat) % 2 ^ 32, range := d.range * 256, rest }
  else .ok d

/-- The bit that a decision of probability `p` yields. -/
def bit (d : Decoder) (p : Nat) : Bool :=
  decide (bound d.range p ≤ d.code)

/-- Take a decision of probability `p`. -/
def decodeBit (d : Decoder) (p : Nat) : Decoded Decoder :=
  renormalise
    { d with
      code := if d.bit p then d.code - bound d.range p else d.code
      range := narrowed d.range p (d.bit p) }

end Decoder

/-- Take `count` decisions from a node downwards; the node reached spells the
bits taken. -/
def decodeBits : (count : Nat) → (node : Nat) → Model × Decoder →
    Decoded (Nat × Model × Decoder)
  | 0, node, s => .ok (node, s)
  | k + 1, node, (m, d) =>
    let p := m.odds node
    let bit := d.bit p
    match d.decodeBit p with
    | .error e => .error e
    | .ok d => decodeBits k (child node bit) (m.learn node bit, d)

/-- Take the eight decisions of a byte. -/
def decodeByte (s : Model × Decoder) : Decoded (UInt8 × Model × Decoder) :=
  (decodeBits 8 1 s).map fun (node, s) => (UInt8.ofNat (node - 256), s)

/-- Take `count` bytes, appended to the reversed `acc`; what follows them is
returned unread. -/
def decodeBytes : (count : Nat) → (acc : List UInt8) → Model × Decoder →
    Decoded (Bytes × Model × Decoder)
  | 0, acc, s => .ok (acc.reverse, s)
  | k + 1, acc, s =>
    match decodeByte s with
    | .error e => .error e
    | .ok (b, s) => decodeBytes k (b :: acc) s

/-- The first `rawLength` bytes of what a buffer codes. What follows them in
the buffer is not looked at. -/
def decode (coded : Bytes) (rawLength : Nat) : Decoded Bytes :=
  match Decoder.start coded with
  | .error e => .error e
  | .ok d => (decodeBytes rawLength [] (Model.initial, d)).map (·.1)

end LatticeSuite.RangeCoder
