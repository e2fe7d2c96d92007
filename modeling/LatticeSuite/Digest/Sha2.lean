import LatticeSuite.Bytes

/-!
# SHA-2

Both word sizes. All constants of the standard are bits of roots of primes,
so they are computed here from `Nat` roots instead of being copied as tables:
the round constants are the fractional bits of cube roots, the initial values
those of square roots. The 32-bit constants are the upper halves of the
64-bit ones, and the initial value of SHA-224 is the lower halves of that of
SHA-384.
-/

namespace LatticeSuite.Sha2

/-- Find a `k`th root bit by bit, the highest bit first: a bit is set if the power still does not
exceed `n`. -/
def rootFrom (k n : Nat) : (bits : Nat) → (r₀ : Nat) → Nat
  | 0, r => r
  | b + 1, r => rootFrom k n b (if (r + 2 ^ b) ^ k ≤ n then r + 2 ^ b else r)

/-- The first 64 bits after the binary point of the `k`th root of `p`. -/
def rootFraction (k p : Nat) : UInt64 :=
  UInt64.ofNat (rootFrom k (p * 2 ^ (64 * k)) 70 0)

/-- The first eighty primes. -/
def primes : List Nat :=
  ((List.range 408).map (· + 2)).filter fun n =>
    (List.range (n - 2)).all fun d => n % (d + 2) ≠ 0

/-- The round constants of the 64-bit digests. -/
def constants64 : Array UInt64 :=
  (primes.map (rootFraction 3)).toArray

/-- The round constants of the 32-bit digests. -/
def constants32 : Array UInt32 :=
  ((primes.take 64).map fun p => (rootFraction 3 p >>> 32).toUInt32).toArray

/-- Eight working variables. -/
structure Vars (ω : Type) where
  (a b c d e f g h : ω)

/-- The working variables with the given initial values. -/
def Vars.ofList {ω : Type} [Inhabited ω] : List ω → Vars ω
  | [a, b, c, d, e, f, g, h] => ⟨a, b, c, d, e, f, g, h⟩
  | _ => ⟨default, default, default, default, default, default, default, default⟩

/-- The working variables in order. -/
def Vars.toList {ω : Type} (v : Vars ω) : List ω :=
  [v.a, v.b, v.c, v.d, v.e, v.f, v.g, v.h]

/-- Member-wise sum. -/
def Vars.add {ω : Type} [Add ω] (v w : Vars ω) : Vars ω :=
  ⟨v.a + w.a, v.b + w.b, v.c + w.c, v.d + w.d, v.e + w.e, v.f + w.f, v.g + w.g, v.h + w.h⟩

/-- The message, a one bit, zeros, and the bit length as a number of
`lengthBytes` bytes, up to a whole number of blocks. -/
def pad (block lengthBytes : Nat) (message : Bytes) : Bytes :=
  let tail := message.length + 1 + lengthBytes
  message ++ 0x80 :: (List.replicate ((block - tail % block) % block) 0 ++
    Bytes.toBE lengthBytes (message.length * 8))

/-! ## 64-bit words -/

@[inline] def rotr64 (w n : UInt64) : UInt64 :=
  (w >>> n) ||| (w <<< (64 - n))

/-- The eighty words of the message schedule of the block at `offset`. -/
def schedule64 (input : ByteArray) (offset : Nat) : Array UInt64 :=
  let first := (Array.range 16).map fun i => word64BEAt input (offset + 8 * i)
  (List.range 64).foldl (fun w i =>
    let at15 := w.getD (i + 1) 0
    let at2 := w.getD (i + 14) 0
    let s0 := rotr64 at15 1 ^^^ rotr64 at15 8 ^^^ (at15 >>> 7)
    let s1 := rotr64 at2 19 ^^^ rotr64 at2 61 ^^^ (at2 >>> 6)
    w.push (w.getD i 0 + s0 + w.getD (i + 9) 0 + s1)) first

/-- One round with its constant and schedule word already added up. -/
@[inline] def round64 (v : Vars UInt64) (kw : UInt64) : Vars UInt64 :=
  let s1 := rotr64 v.e 14 ^^^ rotr64 v.e 18 ^^^ rotr64 v.e 41
  let ch := (v.e &&& v.f) ^^^ (~~~v.e &&& v.g)
  let t1 := v.h + s1 + ch + kw
  let s0 := rotr64 v.a 28 ^^^ rotr64 v.a 34 ^^^ rotr64 v.a 39
  let maj := (v.a &&& v.b) ^^^ (v.a &&& v.c) ^^^ (v.b &&& v.c)
  ⟨t1 + (s0 + maj), v.a, v.b, v.c, v.d + t1, v.e, v.f, v.g⟩

/-- Absorb the block at `offset`. -/
def compress64 (input : ByteArray) (v : Vars UInt64) (offset : Nat) : Vars UInt64 :=
  let w := schedule64 input offset
  v.add ((List.range 80).foldl
    (fun u i => round64 u (constants64.getD i 0 + w.getD i 0)) v)

/-- A digest over 64-bit words from an initial value, cut to `size` bytes. -/
def digest64 (initial : List UInt64) (size : Nat) (message : Bytes) : Bytes :=
  let padded := pad 128 16 message
  let input := ByteArray.mk padded.toArray
  let final := (List.range (padded.length / 128)).foldl
    (fun v k => compress64 input v (128 * k)) (Vars.ofList initial)
  (final.toList.flatMap Bytes.ofWord64BE).take size

/-- The initial value of SHA-512. -/
def initial512 : List UInt64 :=
  (primes.take 8).map (rootFraction 2)

/-- The initial value of SHA-384. -/
def initial384 : List UInt64 :=
  ((primes.drop 8).take 8).map (rootFraction 2)

/-! ## 32-bit words -/

@[inline] def rotr32 (w n : UInt32) : UInt32 :=
  (w >>> n) ||| (w <<< (32 - n))

/-- The sixty-four words of the message schedule of the block at `offset`. -/
def schedule32 (input : ByteArray) (offset : Nat) : Array UInt32 :=
  let first := (Array.range 16).map fun i => word32BEAt input (offset + 4 * i)
  (List.range 48).foldl (fun w i =>
    let at15 := w.getD (i + 1) 0
    let at2 := w.getD (i + 14) 0
    let s0 := rotr32 at15 7 ^^^ rotr32 at15 18 ^^^ (at15 >>> 3)
    let s1 := rotr32 at2 17 ^^^ rotr32 at2 19 ^^^ (at2 >>> 10)
    w.push (w.getD i 0 + s0 + w.getD (i + 9) 0 + s1)) first

/-- One round with its constant and schedule word already added up. -/
@[inline] def round32 (v : Vars UInt32) (kw : UInt32) : Vars UInt32 :=
  let s1 := rotr32 v.e 6 ^^^ rotr32 v.e 11 ^^^ rotr32 v.e 25
  let ch := (v.e &&& v.f) ^^^ (~~~v.e &&& v.g)
  let t1 := v.h + s1 + ch + kw
  let s0 := rotr32 v.a 2 ^^^ rotr32 v.a 13 ^^^ rotr32 v.a 22
  let maj := (v.a &&& v.b) ^^^ (v.a &&& v.c) ^^^ (v.b &&& v.c)
  ⟨t1 + (s0 + maj), v.a, v.b, v.c, v.d + t1, v.e, v.f, v.g⟩

/-- Absorb the block at `offset`. -/
def compress32 (input : ByteArray) (v : Vars UInt32) (offset : Nat) : Vars UInt32 :=
  let w := schedule32 input offset
  v.add ((List.range 64).foldl
    (fun u i => round32 u (constants32.getD i 0 + w.getD i 0)) v)

/-- A digest over 32-bit words from an initial value, cut to `size` bytes. -/
def digest32 (initial : List UInt32) (size : Nat) (message : Bytes) : Bytes :=
  let padded := pad 64 8 message
  let input := ByteArray.mk padded.toArray
  let final := (List.range (padded.length / 64)).foldl
    (fun v k => compress32 input v (64 * k)) (Vars.ofList initial)
  (final.toList.flatMap Bytes.ofWord32BE).take size

/-- The initial value of SHA-256. -/
def initial256 : List UInt32 :=
  initial512.map fun (w : UInt64) => (w >>> 32).toUInt32

/-- The initial value of SHA-224. -/
def initial224 : List UInt32 :=
  initial384.map fun (w : UInt64) => w.toUInt32

/-! ## The four digests -/

/-- SHA-224. -/
def sha224 (message : Bytes) : Bytes := digest32 initial224 28 message

/-- SHA-256. -/
def sha256 (message : Bytes) : Bytes := digest32 initial256 32 message

/-- SHA-384. -/
def sha384 (message : Bytes) : Bytes := digest64 initial384 48 message

/-- SHA-512. -/
def sha512 (message : Bytes) : Bytes := digest64 initial512 64 message

end LatticeSuite.Sha2
