/-!
# Byte strings

Keys, signatures, digests and generator output are all lists of bytes, so
that every codec above can be read as a function on lists and reasoned about
by list induction. This module fixes the reading of a byte string as a number
in both byte orders, the two printers that go the other way, and the
byte-wise exclusive or that the ciphers share.
-/

namespace LatticeSuite

-- A power of natural numbers is the core library's, whatever else is imported.
attribute [default_instance 20000] instPowNat
attribute [scoped instance (high)] instPowNat

abbrev Bytes := List UInt8

namespace Bytes

/-- The number whose base-256 digits are `bs`, most significant first. -/
def ofBE (bs : Bytes) : Nat :=
  bs.foldl (fun n b => n * 256 + b.toNat) 0

/-- The last `width` base-256 digits of `n`, most significant first. -/
def toBE : (width : Nat) → (n : Nat) → Bytes
  | 0, _ => []
  | w + 1, n => UInt8.ofNat (n / 256 ^ w) :: toBE w n

/-- The number whose base-256 digits are `bs`, least significant first. -/
def ofLE (bs : Bytes) : Nat :=
  bs.foldr (fun b n => n * 256 + b.toNat) 0

/-- The first `width` base-256 digits of `n`, least significant first. -/
def toLE : (width : Nat) → (n : Nat) → Bytes
  | 0, _ => []
  | w + 1, n => UInt8.ofNat n :: toLE w (n / 256)

@[simp] theorem length_toBE (w n : Nat) : (toBE w n).length = w := by
  induction w with
  | zero => rfl
  | succ w ih => simp [toBE, ih]

@[simp] theorem length_toLE (w n : Nat) : (toLE w n).length = w := by
  induction w generalizing n with
  | zero => rfl
  | succ w ih => simp [toLE, ih]

/-- Byte-wise exclusive or, as long as the shorter operand. -/
def xor (a b : Bytes) : Bytes :=
  List.zipWith (· ^^^ ·) a b

/-- `bs` cut into pieces of `n` bytes; the last piece may be shorter. A width
of zero gives one piece. -/
def chunks (n : Nat) (bs : Bytes) : List Bytes :=
  if _h : n = 0 ∨ bs.length ≤ n then (if bs = [] then [] else [bs])
  else bs.take n :: chunks n (bs.drop n)
termination_by bs.length
decreasing_by simp; omega

def ofWord64LE (w : UInt64) : Bytes :=
  [w.toUInt8, (w >>> 8).toUInt8, (w >>> 16).toUInt8, (w >>> 24).toUInt8,
   (w >>> 32).toUInt8, (w >>> 40).toUInt8, (w >>> 48).toUInt8, (w >>> 56).toUInt8]

def ofWord32LE (w : UInt32) : Bytes :=
  [w.toUInt8, (w >>> 8).toUInt8, (w >>> 16).toUInt8, (w >>> 24).toUInt8]

def ofWord64BE (w : UInt64) : Bytes :=
  [(w >>> 56).toUInt8, (w >>> 48).toUInt8, (w >>> 40).toUInt8, (w >>> 32).toUInt8,
   (w >>> 24).toUInt8, (w >>> 16).toUInt8, (w >>> 8).toUInt8, w.toUInt8]

def ofWord32BE (w : UInt32) : Bytes :=
  [(w >>> 24).toUInt8, (w >>> 16).toUInt8, (w >>> 8).toUInt8, w.toUInt8]

@[simp] theorem length_ofWord64LE (w : UInt64) : (ofWord64LE w).length = 8 := rfl

@[simp] theorem length_ofWord32LE (w : UInt32) : (ofWord32LE w).length = 4 := rfl

@[simp] theorem length_ofWord64BE (w : UInt64) : (ofWord64BE w).length = 8 := rfl

/-- Pieces of one width, joined. -/
theorem length_flatMap {α : Type} {width : Nat} {piece : α → Bytes}
    (h : ∀ a, (piece a).length = width) (l : List α) :
    (l.flatMap piece).length = width * l.length := by
  induction l with
  | nil => rfl
  | cons a l ih => simp [List.flatMap_cons, ih, h, Nat.mul_add, Nat.add_comm]

/-- Eight bytes, least significant first, as a 64-bit word; missing bytes
count as zero and further bytes are ignored. -/
def toWord64LE (bs : Bytes) : UInt64 :=
  (bs.take 8).foldr (fun b w => (w <<< 8) ||| b.toUInt64) 0

/-- Four bytes, least significant first, as a 32-bit word; missing bytes
count as zero and further bytes are ignored. -/
def toWord32LE (bs : Bytes) : UInt32 :=
  (bs.take 4).foldr (fun b w => (w <<< 8) ||| b.toUInt32) 0

end Bytes

/-- Byte `i` of a packed array, zero beyond its end. -/
@[inline] def byteAt (a : ByteArray) (i : Nat) : UInt8 :=
  if h : i < a.size then a[i] else 0

def word32BEAt (a : ByteArray) (i : Nat) : UInt32 :=
  ((byteAt a i).toUInt32 <<< 24) ||| ((byteAt a (i + 1)).toUInt32 <<< 16) |||
  ((byteAt a (i + 2)).toUInt32 <<< 8) ||| (byteAt a (i + 3)).toUInt32

def word64BEAt (a : ByteArray) (i : Nat) : UInt64 :=
  ((word32BEAt a i).toUInt64 <<< 32) ||| (word32BEAt a (i + 4)).toUInt64

def word32LEAt (a : ByteArray) (i : Nat) : UInt32 :=
  ((byteAt a (i + 3)).toUInt32 <<< 24) ||| ((byteAt a (i + 2)).toUInt32 <<< 16) |||
  ((byteAt a (i + 1)).toUInt32 <<< 8) ||| (byteAt a i).toUInt32

def word64LEAt (a : ByteArray) (i : Nat) : UInt64 :=
  ((word32LEAt a (i + 4)).toUInt64 <<< 32) ||| (word32LEAt a i).toUInt64

end LatticeSuite
