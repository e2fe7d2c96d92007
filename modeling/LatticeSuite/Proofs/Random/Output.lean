import LatticeSuite.Proofs.Digest.Length
import LatticeSuite.Random.Draw

/-!
# A generator gives what it is asked for

> The answer to a request for `n` bytes has `n` bytes, for each of the seven
> generators and in every state (`Generator.length_generate`).

So a supply that does not fail gives them too, however often it had to seed the
generator in between (`Supply.length_written_fill`), and a computation that draws
from it sees no other length, since zeros stand in for bytes that are missing
(`DrawView.length_draw`).

Three shapes cover the seven. Two of them append blocks of one width until there
are enough and cut the last one, which are the DRBGs, and the generators of
words; the keystreams cut a slice out of a stream, whose length is known
(`Keystream.length_slice`). How many blocks are needed is a division that rounds
up, and `le_ceilDiv_mul` is why it rounds the right way.
-/

namespace LatticeSuite

namespace CtrDrbg

theorem length_blocksFrom (keys : Aes256.RoundKeys) (count : Nat) (counter : Bytes)
    (acc : List UInt8) :
    (blocksFrom keys count counter acc).1.length = acc.length + count * 16 := by
  induction count generalizing counter acc with
  | zero =>
    rw [blocksFrom, List.length_reverse]
    omega
  | succ count ih =>
    rw [blocksFrom, ih, List.reverseAux_eq, List.length_append, List.length_reverse,
      Aes256.length_encrypt]
    omega

theorem length_generate (d : CtrDrbg) (n : Nat) : (d.generate n).1.length = n := by
  have hblocks : (d.blocks ((n + 15) / 16)).1.length = (n + 15) / 16 * 16 := by
    rw [blocks, length_blocksFrom, List.length_nil, Nat.zero_add]
  have hfit : n ≤ (n + 15) / 16 * 16 := le_ceilDiv_mul n (Nat.succ_pos 15)
  show ((d.blocks ((n + 15) / 16)).1.take n).length = n
  rw [List.length_take, hblocks]
  exact Nat.min_eq_left hfit

end CtrDrbg

namespace HashDrbg

theorem length_hashFrom (a : HashAlgorithm) (count : Nat) (value : Bytes) (acc : List UInt8) :
    (hashFrom a count value acc).length = acc.length + count * a.outputSize := by
  induction count generalizing value acc with
  | zero => rw [hashFrom, List.length_reverse, Nat.zero_mul, Nat.add_zero]
  | succ count ih =>
    rw [hashFrom, ih, List.reverseAux_eq, List.length_append, List.length_reverse,
      HashAlgorithm.length_digest, Nat.succ_mul]
    omega

theorem length_generate (d : HashDrbg) (n : Nat) : (d.generate n).1.length = n := by
  unfold generate
  rw [List.length_take, length_hashFrom, List.length_nil, Nat.zero_add]
  exact Nat.min_eq_left (le_ceilDiv_mul n d.algorithm.outputSize_pos)

end HashDrbg

namespace Words

variable {σ : Type}

theorem length_bytesFrom (next : σ → UInt64 × σ) (count : Nat) (s : σ) (acc : List UInt8) :
    (bytesFrom next count s acc).1.length = acc.length + count * 8 := by
  induction count generalizing s acc with
  | zero => rfl
  | succ count ih =>
    rw [bytesFrom, ih, List.reverseAux_eq, List.length_append, List.length_reverse,
      Bytes.length_ofWord64LE]
    omega

theorem length_fill (next : σ → UInt64 × σ) (n : Nat) (s : σ) :
    (fill next n s).1.length = n := by
  have hfit : n ≤ (n + 7) / 8 * 8 := le_ceilDiv_mul n (Nat.succ_pos 7)
  show ((bytesFrom next ((n + 7) / 8) s []).1.reverse.take n).length = n
  rw [List.length_take, List.length_reverse, length_bytesFrom, List.length_nil, Nat.zero_add]
  exact Nat.min_eq_left hfit

end Words

theorem Salsa20.length_block (k : Salsa20.Key) (i : Nat) : (k.block i).length = 64 := by
  rw [Key.block, Bytes.length_flatMap Bytes.length_ofWord32LE]
  rfl

/-- **A generator gives as many bytes as it is asked for.** -/
theorem Generator.length_generate (g : Generator) (n : Nat) : (g.generate n).1.length = n := by
  cases g with
  | ctrDrbg s => exact s.length_generate n
  | hashDrbg s => exact s.length_generate n
  | aesCtr s => exact Keystream.length_slice (by decide) (fun _ => Aes256.length_encrypt _ _) _ n
  | salsa20 s => exact Keystream.length_slice (by decide) (Salsa20.length_block s.key) _ n
  | chaCha20 s => exact Keystream.length_slice (by decide) (fun _ => ChaCha20.length_block _ _) _ n
  | isaac s => exact Words.length_fill Isaac64.next n s
  | kiss s => exact Words.length_fill Kiss64.next n s

namespace Supply

theorem length_of_emit {s t : Supply} {n : Nat} {out : Bytes} (h : s.emit n = (.ok out, t)) :
    out.length = n := by
  unfold emit at h
  split at h
  next g _ =>
    obtain rfl := Except.ok.inj (Prod.mk.inj h).1
    exact g.length_generate n
  next =>
    split at h
    next => exact absurd (Prod.mk.inj h).1 (by simp)
    next =>
      obtain rfl := Except.ok.inj (Prod.mk.inj h).1
      rw [Entropy.length_overlay, List.length_replicate]

theorem length_written_fillFrom (s : Supply) (n : Nat) (acc : List UInt8)
    (h : (s.fillFrom n acc).failure = none) :
    (s.fillFrom n acc).written.length = acc.length + n := by
  induction n using Nat.strongRecOn generalizing s acc with
  | ind n ih =>
    rw [fillFrom] at h ⊢
    split at h
    next hn => rw [dif_pos hn, List.length_reverse, hn, Nat.add_zero]
    next hn =>
      rw [dif_neg hn]
      split at h
      next => exact absurd h (by simp)
      next t hroom hready =>
        dsimp only at h ⊢
        split at h
        next => exact absurd h (by simp)
        next out u hemit =>
          -- a round gives at least one byte, so less is left to give
          rw [ih _ (by omega) u _ h, List.reverseAux_eq, List.length_append, List.length_reverse,
            length_of_emit hemit]
          omega

/-- **A supply gives as many bytes as it is asked for**, unless it fails. -/
theorem length_written_fill {s : Supply} {n : Nat} (h : (s.fill n).failure = none) :
    (s.fill n).written.length = n := by
  rw [fill, length_written_fillFrom s n [] h, List.length_nil, Nat.zero_add]

end Supply

theorem DrawView.length_draw (v : DrawView) (n : Nat) : (v.draw n).1.2.length = n := by
  unfold draw
  split
  next => exact List.length_replicate
  next =>
    dsimp only
    split
    next hfill => exact Supply.length_written_fill hfill
    next => exact List.length_replicate

end LatticeSuite
