import LatticeSuite.Digest.Sha2

/-!
# Whirlpool

The final version of the hash. The substitution box is assembled from its
three four-bit boxes, and one round of the block cipher is eight table
look-ups per row, the tables being the rows of the circulant diffusion matrix
multiplied by the substituted byte.
-/

namespace LatticeSuite.Whirlpool

/-- The exponential four-bit box. -/
def boxE : Array Nat :=
  #[0x1, 0xb, 0x9, 0xc, 0xd, 0x6, 0xf, 0x3, 0xe, 0x8, 0x7, 0x4, 0xa, 0x2, 0x5, 0x0]

/-- The pseudo-random four-bit box. -/
def boxR : Array Nat :=
  #[0x7, 0xc, 0xb, 0xd, 0xe, 0x4, 0x9, 0xf, 0x6, 0x3, 0x8, 0xa, 0x2, 0x5, 0x1, 0x0]

/-- The inverse of `boxE`. -/
def boxEInverse (y : Nat) : Nat :=
  ((List.range 16).find? fun x => boxE.getD x 0 == y).getD 0

/-- The substitution box. -/
def substitute (x : Nat) : Nat :=
  let u := boxE.getD (x / 16) 0
  let l := boxEInverse (x % 16)
  let r := boxR.getD (Nat.xor u l) 0
  16 * boxE.getD (Nat.xor u r) 0 + boxEInverse (Nat.xor l r)

/-- Multiplication by the variable in the field of 256 elements with
polynomial `0x11d`. -/
def double (x : Nat) : Nat :=
  if x < 128 then 2 * x else Nat.xor (2 * x) 0x11d

/-- The first row of the diffusion matrix times a substituted byte, as one
word: the factors are 1, 1, 4, 1, 8, 5, 2, 9. -/
def diffused (x : Nat) : UInt64 :=
  let s := substitute x
  let s2 := double s
  let s4 := double s2
  let s8 := double s4
  UInt64.ofNat (Bytes.ofBE
    ([s, s, s4, s, s8, Nat.xor s4 s, s2, Nat.xor s8 s].map UInt8.ofNat))

/-- `diffused` for every byte. -/
def table : Array UInt64 :=
  (Array.range 256).map diffused

/-- The round constants: eight consecutive entries of the substitution box in
the first row. -/
def roundConstants : List UInt64 :=
  (List.range 10).map fun r =>
    UInt64.ofNat (Bytes.ofBE ((List.range 8).map fun j => UInt8.ofNat (substitute (8 * r + j))))

/-- Substitution, cyclical shift of the columns and diffusion of the rows. -/
def layer (rows : Array UInt64) : Array UInt64 :=
  (Array.range 8).map fun i =>
    (List.range 8).foldl (fun acc t =>
      let byte := (rows.getD ((i + 8 - t) % 8) 0 >>> UInt64.ofNat (56 - 8 * t)).toUInt8
      acc ^^^ Sha2.rotr64 (table.getD byte.toNat 0) (UInt64.ofNat (8 * t))) 0

/-- Rotation by zero, which the shifts of `rotr64` leave alone. -/
theorem rotr64_zero (w : UInt64) : Sha2.rotr64 w 0 = w := by
  have h : w <<< (64 : UInt64) = w <<< (0 : UInt64) := rfl
  simp [Sha2.rotr64, h]

def xorRows (a b : Array UInt64) : Array UInt64 :=
  Array.zipWith (· ^^^ ·) a b

/-- One round of the key schedule and of the state beside it. -/
def round (keyState : Array UInt64 × Array UInt64) (rc : UInt64) :
    Array UInt64 × Array UInt64 :=
  let key := layer keyState.1
  let key := key.setIfInBounds 0 (key.getD 0 0 ^^^ rc)
  (key, xorRows (layer keyState.2) key)

/-- Absorb the block at `offset`: the cipher is keyed with the chaining value,
and both its key and its input are added to its output. -/
def compress (input : ByteArray) (h : Array UInt64) (offset : Nat) : Array UInt64 :=
  let block := (Array.range 8).map fun i => word64BEAt input (offset + 8 * i)
  let out := (roundConstants.foldl round (h, xorRows block h)).2
  xorRows (xorRows out h) block

/-- The digest of 64 bytes. -/
def digest (message : Bytes) : Bytes :=
  let padded := Sha2.pad 64 32 message
  let input := ByteArray.mk padded.toArray
  let final := (List.range (padded.length / 64)).foldl
    (fun h k => compress input h (64 * k)) (Array.replicate 8 0)
  final.toList.flatMap Bytes.ofWord64BE

end LatticeSuite.Whirlpool
