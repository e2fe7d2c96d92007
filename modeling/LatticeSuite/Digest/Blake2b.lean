import LatticeSuite.Digest.Sha2

/-!
# BLAKE2b without a key

The digest length is a parameter of the hash and not a truncation: it enters
the first word of the initial state, so digests of different lengths are
unrelated. The initial value is that of SHA-512.
-/

namespace LatticeSuite.Blake2b

/-- The order in which round `r mod 10` takes the sixteen message words. -/
def permutations : Array (Array Nat) :=
  #[#[0, 1, 2, 3, 4, 5, 6, 7, 8, 9, 10, 11, 12, 13, 14, 15],
    #[14, 10, 4, 8, 9, 15, 13, 6, 1, 12, 0, 2, 11, 7, 5, 3],
    #[11, 8, 12, 0, 5, 2, 15, 13, 10, 14, 3, 6, 7, 1, 9, 4],
    #[7, 9, 3, 1, 13, 12, 11, 14, 2, 6, 5, 10, 4, 0, 15, 8],
    #[9, 0, 5, 7, 2, 4, 10, 15, 14, 1, 11, 12, 6, 8, 3, 13],
    #[2, 12, 6, 10, 0, 11, 8, 3, 4, 13, 7, 5, 15, 14, 1, 9],
    #[12, 5, 1, 15, 14, 13, 4, 10, 0, 7, 6, 3, 9, 2, 8, 11],
    #[13, 11, 7, 14, 12, 1, 3, 9, 5, 0, 15, 4, 8, 6, 2, 10],
    #[6, 15, 14, 9, 11, 3, 0, 8, 12, 2, 13, 7, 1, 4, 10, 5],
    #[10, 2, 8, 4, 7, 6, 1, 5, 15, 11, 9, 14, 3, 12, 13, 0]]

/-- The four word positions each of the eight mixings of a round works on:
the columns, then the diagonals. -/
def quarters : List (Nat × Nat × Nat × Nat) :=
  [(0, 4, 8, 12), (1, 5, 9, 13), (2, 6, 10, 14), (3, 7, 11, 15),
   (0, 5, 10, 15), (1, 6, 11, 12), (2, 7, 8, 13), (3, 4, 9, 14)]

/-- One mixing of four words with two message words. -/
def mix (v : Array UInt64) (at4 : Nat × Nat × Nat × Nat) (x y : UInt64) : Array UInt64 :=
  let (ia, ib, ic, id) := at4
  let a := v.getD ia 0 + v.getD ib 0 + x
  let d := Sha2.rotr64 (v.getD id 0 ^^^ a) 32
  let c := v.getD ic 0 + d
  let b := Sha2.rotr64 (v.getD ib 0 ^^^ c) 24
  let a := a + b + y
  let d := Sha2.rotr64 (d ^^^ a) 16
  let c := c + d
  let b := Sha2.rotr64 (b ^^^ c) 63
  (((v.setIfInBounds ia a).setIfInBounds ib b).setIfInBounds ic c).setIfInBounds id d

/-- One round over the message words `m`. -/
def round (m : Array UInt64) (v : Array UInt64) (r : Nat) : Array UInt64 :=
  let order := permutations.getD (r % 10) #[]
  (quarters.zipIdx).foldl (fun v (q, i) =>
    mix v q (m.getD (order.getD (2 * i) 0) 0) (m.getD (order.getD (2 * i + 1) 0) 0)) v

/-- The initial value as an array. -/
def initial : Array UInt64 :=
  Sha2.initial512.toArray

/-- Absorb the block at `offset`, after `counter` message bytes in all. -/
def compress (input : ByteArray) (h : Array UInt64) (offset counter : Nat) (last : Bool) :
    Array UInt64 :=
  let m := (Array.range 16).map fun i => word64LEAt input (offset + 8 * i)
  let v := h ++ initial
  let v := v.setIfInBounds 12 (v.getD 12 0 ^^^ UInt64.ofNat counter)
  let v := v.setIfInBounds 13 (v.getD 13 0 ^^^ UInt64.ofNat (counter / 2 ^ 64))
  let v := if last then v.setIfInBounds 14 (~~~(v.getD 14 0)) else v
  let v := (List.range 12).foldl (round m) v
  (Array.range 8).map fun i => h.getD i 0 ^^^ v.getD i 0 ^^^ v.getD (i + 8) 0

/-- The digest of `size` bytes. An empty message is one block of zeros. -/
def digest (size : Nat) (message : Bytes) : Bytes :=
  let input := ByteArray.mk message.toArray
  let count := max 1 ((message.length + 127) / 128)
  let start := initial.setIfInBounds 0 (initial.getD 0 0 ^^^ 0x01010000 ^^^ UInt64.ofNat size)
  let final := (List.range count).foldl (fun h k =>
    compress input h (128 * k) (min message.length (128 * (k + 1))) (k + 1 == count)) start
  (final.toList.flatMap Bytes.ofWord64LE).take size

end LatticeSuite.Blake2b
