import LatticeSuite.Bytes

/-!
# Keccak: the SHA-3 digests and the SHAKE streams

The state is five planes of five 64-bit lanes. One round is written as five
maps on whole planes, so that a round costs a handful of small records and no
index arithmetic at all; the rotation offsets and the lane each target lane is
read from are spelled out once in `Lanes.rhoPi`.

The SHA-3 digests take a fixed number of bytes from the sponge. The lattice
schemes read SHAKE as a stream, one block at a time, through `Sponge.next`.
-/

namespace LatticeSuite.Keccak

@[inline] def rotl (w : UInt64) (n : UInt64) : UInt64 :=
  (w <<< n) ||| (w >>> (64 - n))

/-- One plane: the five lanes with a common `y`. -/
structure Plane where
  (x0 x1 x2 x3 x4 : UInt64)
  deriving Inhabited

/-- The whole state, indexed by `y`. -/
structure Lanes where
  (y0 y1 y2 y3 y4 : Plane)
  deriving Inhabited

namespace Plane

@[inline] def xor (a b : Plane) : Plane :=
  ⟨a.x0 ^^^ b.x0, a.x1 ^^^ b.x1, a.x2 ^^^ b.x2, a.x3 ^^^ b.x3, a.x4 ^^^ b.x4⟩

/-- What θ adds to every plane, given the parity plane: lane `x` receives the
parity of column `x - 1` and the rotated parity of column `x + 1`. -/
@[inline] def thetaEffect (c : Plane) : Plane :=
  ⟨c.x4 ^^^ rotl c.x1 1, c.x0 ^^^ rotl c.x2 1, c.x1 ^^^ rotl c.x3 1,
   c.x2 ^^^ rotl c.x4 1, c.x3 ^^^ rotl c.x0 1⟩

/-- χ on one plane. -/
@[inline] def chi (a : Plane) : Plane :=
  ⟨a.x0 ^^^ (~~~a.x1 &&& a.x2), a.x1 ^^^ (~~~a.x2 &&& a.x3),
   a.x2 ^^^ (~~~a.x3 &&& a.x4), a.x3 ^^^ (~~~a.x4 &&& a.x0),
   a.x4 ^^^ (~~~a.x0 &&& a.x1)⟩

def toList (a : Plane) : List UInt64 :=
  [a.x0, a.x1, a.x2, a.x3, a.x4]

end Plane

namespace Lanes

/-- θ: every column absorbs the parities of its two neighbours. -/
def theta (s : Lanes) : Lanes :=
  let d := ((((s.y0.xor s.y1).xor s.y2).xor s.y3).xor s.y4).thetaEffect
  ⟨s.y0.xor d, s.y1.xor d, s.y2.xor d, s.y3.xor d, s.y4.xor d⟩

/-- ρ and π together: the lane at `(x, y)` of the result is the lane at
`(x + 3y, x)` of the argument, rotated by that lane's own offset. -/
def rhoPi (s : Lanes) : Lanes :=
  { y0 := ⟨s.y0.x0, rotl s.y1.x1 44, rotl s.y2.x2 43, rotl s.y3.x3 21, rotl s.y4.x4 14⟩
    y1 := ⟨rotl s.y0.x3 28, rotl s.y1.x4 20, rotl s.y2.x0 3, rotl s.y3.x1 45, rotl s.y4.x2 61⟩
    y2 := ⟨rotl s.y0.x1 1, rotl s.y1.x2 6, rotl s.y2.x3 25, rotl s.y3.x4 8, rotl s.y4.x0 18⟩
    y3 := ⟨rotl s.y0.x4 27, rotl s.y1.x0 36, rotl s.y2.x1 10, rotl s.y3.x2 15, rotl s.y4.x3 56⟩
    y4 := ⟨rotl s.y0.x2 62, rotl s.y1.x3 55, rotl s.y2.x4 39, rotl s.y3.x0 41, rotl s.y4.x1 2⟩ }

/-- χ on every plane, then ι with the round's constant. -/
def chiIota (s : Lanes) (rc : UInt64) : Lanes :=
  let p := s.y0.chi
  ⟨{ p with x0 := p.x0 ^^^ rc }, s.y1.chi, s.y2.chi, s.y3.chi, s.y4.chi⟩

def round (s : Lanes) (rc : UInt64) : Lanes :=
  s.theta.rhoPi.chiIota rc

/-- The twenty-four round constants. -/
def roundConstants : List UInt64 :=
  [0x0000000000000001, 0x0000000000008082, 0x800000000000808a, 0x8000000080008000,
   0x000000000000808b, 0x0000000080000001, 0x8000000080008081, 0x8000000000008009,
   0x000000000000008a, 0x0000000000000088, 0x0000000080008009, 0x000000008000000a,
   0x000000008000808b, 0x800000000000008b, 0x8000000000008089, 0x8000000000008003,
   0x8000000000008002, 0x8000000000000080, 0x000000000000800a, 0x800000008000000a,
   0x8000000080008081, 0x8000000000008080, 0x0000000080000001, 0x8000000080008008]

/-- The permutation Keccak-f[1600]. -/
def permute (s : Lanes) : Lanes :=
  roundConstants.foldl round s

/-- The twenty-five lanes, plane by plane. -/
def toList (s : Lanes) : List UInt64 :=
  s.y0.toList ++ s.y1.toList ++ s.y2.toList ++ s.y3.toList ++ s.y4.toList

/-- Add the block of `rate` bytes at offset `i` of the input to the front of
the state. The rate is a multiple of eight, so a lane is inside or outside. -/
def absorbAt (s : Lanes) (rate : Nat) (input : ByteArray) (i : Nat) : Lanes :=
  let lane (j : Nat) : UInt64 := if 8 * j < rate then word64LEAt input (i + 8 * j) else 0
  let plane (y : Nat) : Plane :=
    ⟨lane (5 * y), lane (5 * y + 1), lane (5 * y + 2), lane (5 * y + 3), lane (5 * y + 4)⟩
  ⟨s.y0.xor (plane 0), s.y1.xor (plane 1), s.y2.xor (plane 2), s.y3.xor (plane 3),
   s.y4.xor (plane 4)⟩

end Lanes

/-- The message followed by its domain suffix, zeros, and the closing bit, up
to a whole number of blocks. -/
def pad (rate : Nat) (suffix : UInt8) (message : Bytes) : Bytes :=
  match rate - 1 - message.length % rate with
  | 0 => message ++ [suffix ||| 0x80]
  | k + 1 => message ++ suffix :: (List.replicate k 0 ++ [0x80])

/-- A sponge that has absorbed its message: the state whose first `rate` bytes
are the next block of output. -/
structure Sponge where
  rate : Nat
  lanes : Lanes

/-- Absorb a message under a domain suffix. -/
def Sponge.absorb (rate : Nat) (suffix : UInt8) (message : Bytes) : Sponge :=
  let padded := pad rate suffix message
  let input := ByteArray.mk padded.toArray
  { rate
    lanes := (List.range (padded.length / rate)).foldl
      (fun s k => (s.absorbAt rate input (k * rate)).permute) default }

/-- The next block of output, and the sponge that follows it. -/
def Sponge.next (s : Sponge) : Bytes × Sponge :=
  ((s.lanes.toList.flatMap Bytes.ofWord64LE).take s.rate, { s with lanes := s.lanes.permute })

/-- The next `count` blocks of output, joined. -/
def Sponge.blocks : (count : Nat) → Sponge → Bytes
  | 0, _ => []
  | n + 1, s => let (block, s) := s.next; block ++ s.blocks n

/-- The first `n` bytes of output. -/
def Sponge.squeeze (s : Sponge) (n : Nat) : Bytes :=
  (s.blocks ((n + s.rate - 1) / s.rate)).take n

/-- Feed blocks of output to a consumer until it is done, at most `limit` of
them. -/
def Sponge.feed {σ : Type} (consume : σ → Bytes → σ) (done : σ → Bool) :
    (limit : Nat) → Sponge → σ → σ
  | 0, _, s => s
  | n + 1, sponge, s =>
    if done s then s
    else
      let (block, sponge) := sponge.next
      Sponge.feed consume done n sponge (consume s block)

/-- More blocks than any sampler will ever need: each block brings it closer
to its end with a chance above one half. -/
def Sponge.blockLimit : Nat := 4096

/-- A SHA-3 digest of `size` bytes: the capacity is twice the digest. -/
def sha3 (size : Nat) (message : Bytes) : Bytes :=
  (Sponge.absorb (200 - 2 * size) 0x06 message).squeeze size

/-- The SHAKE128 stream of a message. -/
def shake128 (message : Bytes) : Sponge :=
  Sponge.absorb 168 0x1f message

/-- The SHAKE256 stream of a message. -/
def shake256 (message : Bytes) : Sponge :=
  Sponge.absorb 136 0x1f message

end LatticeSuite.Keccak
