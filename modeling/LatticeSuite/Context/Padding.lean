import LatticeSuite.Bytes

/-!
# Padding of plaintexts

Padding to blocks ends the plaintext with a marker and as few zeros as fill the
last block. Removing it looks for the last byte that is not zero, which must be
the marker and must stand in the last block.
-/

namespace LatticeSuite

/-- What is added to a plaintext before it is encrypted. -/
inductive Padding where
  | none
  /-- A marker, and zeros up to a multiple of the block length. -/
  | iso7816 (block : Nat) (block_pos : 0 < block)

namespace Padding

instance : DecidableEq Padding
  | .none, .none => isTrue rfl
  | .none, .iso7816 _ _ | .iso7816 _ _, .none => isFalse nofun
  | .iso7816 m _, .iso7816 n _ => decidable_of_iff (m = n) (by rw [iso7816.injEq])

/-- The byte after the plaintext. -/
def marker : UInt8 := 0x80

/-- The zeros after the marker of a plaintext of `n` bytes. -/
def zeros (block n : Nat) : Nat :=
  (block - (n + 1) % block) % block

def pad : Padding → Bytes → Bytes
  | .none, bs => bs
  | .iso7816 block _, bs => bs ++ marker :: List.replicate (zeros block bs.length) 0

/-- Remove the padding, if it is well formed. -/
def unpad? : Padding → Bytes → Option Bytes
  | .none, bs => some bs
  | .iso7816 block _, bs =>
    if bs.length % block ≠ 0 then Option.none
    else
      match bs.reverse.dropWhile (· == 0) with
      | [] => Option.none
      | b :: rest =>
        if b = marker ∧ bs.length - rest.length ≤ block then some rest.reverse else Option.none

end Padding

end LatticeSuite
