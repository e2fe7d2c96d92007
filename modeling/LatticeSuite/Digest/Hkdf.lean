import LatticeSuite.Digest.Hasher

/-!
# HMAC and HKDF over any digest

Key derivation by extract and expand. The number of output blocks is counted
in one byte, so at most 255 blocks can be asked for.
-/

namespace LatticeSuite.HashAlgorithm

/-- The HMAC key block: a long key is hashed first, a short one is filled up
with zeros. -/
def hmacBlock (a : HashAlgorithm) (key : Bytes) : Bytes :=
  let key := if key.length > a.blockSize then a.digest key else key
  key ++ List.replicate (a.blockSize - key.length) 0

def hmac (a : HashAlgorithm) (key message : Bytes) : Bytes :=
  let block := a.hmacBlock key
  a.digest (block.map (· ^^^ 0x5c) ++ a.digest (block.map (· ^^^ 0x36) ++ message))

/-- The blocks `T(i), T(i + 1), …` of the expansion, `count` of them, given
the block before them. -/
def expandBlocks (a : HashAlgorithm) (key info : Bytes) :
    (count : Nat) → (previous : Bytes) → (index : UInt8) → List Bytes
  | 0, _, _ => []
  | n + 1, previous, index =>
    let block := a.hmac key (previous ++ info ++ [index])
    block :: expandBlocks a key info n block (index + 1)

/-- Extract and expand to `n` bytes; `none` if more than 255 blocks are
asked for. -/
def hkdf? (a : HashAlgorithm) (salt secret info : Bytes) (n : Nat) : Option Bytes :=
  if n > 255 * a.outputSize then none
  else
    let key := a.hmac salt secret
    let count := (n + a.outputSize - 1) / a.outputSize
    some ((a.expandBlocks key info count [] 1).flatten.take n)

/-- The derivation is refused exactly when the length needs more than 255
blocks. -/
theorem hkdf?_eq_none_iff (a : HashAlgorithm) (salt secret info : Bytes) (n : Nat) :
    a.hkdf? salt secret info n = none ↔ 255 * a.outputSize < n := by
  simp [hkdf?]

end LatticeSuite.HashAlgorithm
