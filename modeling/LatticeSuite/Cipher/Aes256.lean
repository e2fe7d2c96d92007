import LatticeSuite.Bytes

/-!
# AES-256, forward direction

The substitution table is computed from its definition: inversion in the
field of 256 elements followed by an affine map on bits. A round works on the
four columns as 32-bit words; `mixTable` holds, for every byte, the column
that this byte alone would contribute after substitution and mixing, and the
other three positions are rotations of it.

Only encryption is needed, since every use of the cipher is in counter mode.
-/

namespace LatticeSuite.Aes256

/-- Multiplication by `x` in the field, modulo `x⁸ + x⁴ + x³ + x + 1`. -/
def double (b : UInt8) : UInt8 :=
  (b <<< 1) ^^^ (if b < 0x80 then 0 else 0x1b)

/-- Multiplication in the field, by the bits of the first operand from `2 ^ (n - 1)` down. -/
def mulBits (a b : UInt8) : (n : Nat) → UInt8
  | 0 => 0
  | n + 1 =>
    let rest := mulBits a (double b) n
    if a.toNat.testBit (7 - n) then b ^^^ rest else rest

def mul (a b : UInt8) : UInt8 :=
  mulBits a b 8

/-- The inverse of a non-zero element; zero for zero. -/
def inverse (a : UInt8) : UInt8 :=
  ((List.range 256).map UInt8.ofNat).find? (fun b => mul a b == 1) |>.getD 0

/-- The substitution of a byte by its definition. -/
def substitution (a : UInt8) : UInt8 :=
  let b := inverse a
  let turn (n : UInt8) : UInt8 := (b <<< n) ||| (b >>> (8 - n))
  b ^^^ turn 1 ^^^ turn 2 ^^^ turn 3 ^^^ turn 4 ^^^ 0x63

/-- The substitution of every byte. -/
def substitutionTable : Array UInt8 :=
  ((List.range 256).map fun i => substitution (UInt8.ofNat i)).toArray

@[inline] def sub (b : UInt8) : UInt8 :=
  substitutionTable.getD b.toNat 0

/-- Four bytes as a column, first byte on top. -/
@[inline] def column (a b c d : UInt8) : UInt32 :=
  (a.toUInt32 <<< 24) ||| (b.toUInt32 <<< 16) ||| (c.toUInt32 <<< 8) ||| d.toUInt32

/-- What each byte in the first row contributes to its column. -/
def mixTable : Array UInt32 :=
  ((List.range 256).map fun i =>
    let s := sub (UInt8.ofNat i)
    column (double s) s s (double s ^^^ s)).toArray

/-- The contribution of a byte in the first row. -/
@[inline] def mix (b : UInt8) : UInt32 :=
  mixTable.getD b.toNat 0

@[inline] def rotr (w n : UInt32) : UInt32 :=
  (w >>> n) ||| (w <<< (32 - n))

/-- Substitute the four bytes of a word. -/
def subWord (w : UInt32) : UInt32 :=
  column (sub (w >>> 24).toUInt8) (sub (w >>> 16).toUInt8) (sub (w >>> 8).toUInt8) (sub w.toUInt8)

abbrev RoundKeys := Array UInt32

/-- The round constants, as top bytes. -/
def roundConstants : Array UInt32 :=
  #[0x01000000, 0x02000000, 0x04000000, 0x08000000, 0x10000000, 0x20000000, 0x40000000]

/-- The sixty words of the key schedule of a key of 32 bytes. -/
def expandKey (key : Bytes) : RoundKeys :=
  let packed := ByteArray.mk key.toArray
  let first := (Array.range 8).map fun i => word32BEAt packed (4 * i)
  (List.range' 8 52).foldl (fun w i =>
    let previous := w.getD (i - 1) 0
    let t :=
      if i % 8 = 0 then
        subWord (rotr previous 24) ^^^ roundConstants.getD (i / 8 - 1) 0
      else if i % 8 = 4 then subWord previous
      else previous
    w.push (w.getD (i - 8) 0 ^^^ t)) first

/-- A block as four columns. -/
structure Block where
  (c0 c1 c2 c3 : UInt32)

/-- Add the round key of a round. -/
@[inline] def Block.addKey (b : Block) (keys : RoundKeys) (round : Nat) : Block :=
  ⟨b.c0 ^^^ keys.getD (4 * round) 0, b.c1 ^^^ keys.getD (4 * round + 1) 0,
   b.c2 ^^^ keys.getD (4 * round + 2) 0, b.c3 ^^^ keys.getD (4 * round + 3) 0⟩

/-- One column after substitution, shift and mixing: the four columns that
its bytes come from, in order of rows. -/
@[inline] def mixColumn (a b c d : UInt32) : UInt32 :=
  mix (a >>> 24).toUInt8 ^^^ rotr (mix (b >>> 16).toUInt8) 8 ^^^
    rotr (mix (c >>> 8).toUInt8) 16 ^^^ rotr (mix d.toUInt8) 24

/-- One column after substitution and shift, as in the last round. -/
@[inline] def shiftColumn (a b c d : UInt32) : UInt32 :=
  column (sub (a >>> 24).toUInt8) (sub (b >>> 16).toUInt8) (sub (c >>> 8).toUInt8) (sub d.toUInt8)

def Block.round (keys : RoundKeys) (b : Block) (i : Nat) : Block :=
  Block.addKey
    ⟨mixColumn b.c0 b.c1 b.c2 b.c3, mixColumn b.c1 b.c2 b.c3 b.c0,
     mixColumn b.c2 b.c3 b.c0 b.c1, mixColumn b.c3 b.c0 b.c1 b.c2⟩ keys i

def Block.lastRound (keys : RoundKeys) (b : Block) : Block :=
  Block.addKey
    ⟨shiftColumn b.c0 b.c1 b.c2 b.c3, shiftColumn b.c1 b.c2 b.c3 b.c0,
     shiftColumn b.c2 b.c3 b.c0 b.c1, shiftColumn b.c3 b.c0 b.c1 b.c2⟩ keys 14

def Block.encrypt (keys : RoundKeys) (b : Block) : Block :=
  ((List.range' 1 13).foldl (Block.round keys) (b.addKey keys 0)).lastRound keys

/-- The four columns of sixteen bytes; missing bytes count as zero. -/
def Block.ofBytes (bs : Bytes) : Block :=
  let packed := ByteArray.mk bs.toArray
  ⟨word32BEAt packed 0, word32BEAt packed 4, word32BEAt packed 8, word32BEAt packed 12⟩

/-- The sixteen bytes of a block. -/
def Block.toBytes (b : Block) : Bytes :=
  Bytes.ofWord32BE b.c0 ++ Bytes.ofWord32BE b.c1 ++ Bytes.ofWord32BE b.c2 ++ Bytes.ofWord32BE b.c3

def encrypt (keys : RoundKeys) (block : Bytes) : Bytes :=
  ((Block.ofBytes block).encrypt keys).toBytes

@[simp] theorem length_encrypt (keys : RoundKeys) (block : Bytes) :
    (encrypt keys block).length = 16 := rfl

end LatticeSuite.Aes256
