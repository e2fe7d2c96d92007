import LatticeSuite.Proofs.MlKem.Encoding

/-!
# ML-KEM: messages that are recovered

Decapsulation decrypts a message and encrypts it again, and it answers with the
encapsulated secret only if it sees the same ciphertext. All of this is deterministic,
so it comes down to the message:

> Where decryption recovers the message, decapsulation recovers the secret
> (`decapsulate?_of_decrypt`).

Whether decryption does depends on the noise, and not for every key. For a key of
zeros it always does (`Encryption.decrypt_encrypt_zero`): nothing of the secret vector
reaches the ciphertext, and a bit that was scaled to the middle of the coefficients
survives the noise of encryption and the bits that compression drops
(`compress_noisy`).
-/

namespace LatticeSuite

namespace Lattice

variable {q : Nat} [NeZero q]

/-! ## Zero -/

theorem sub_zero (x : Fin q) : x - 0 = x := by
  refine Fin.ext ?_
  rw [Fin.sub_def]
  simp only [Fin.val_zero, Nat.sub_zero, Nat.add_mod_left, Nat.mod_eq_of_lt x.isLt]

namespace Poly

variable {f : Poly q}

theorem zero_add (hf : f.IsWhole) : add zero f = f := by
  refine List.ext_getElem ((isWhole_zero.add hf).trans hf.symm) ?_
  intro i _ _
  simp only [add, zero, List.getElem_zipWith, List.getElem_replicate, Fin.zero_add]

theorem sub_zero (hf : f.IsWhole) : sub f zero = f := by
  refine List.ext_getElem ((hf.sub isWhole_zero).trans hf.symm) ?_
  intro i _ _
  simp only [sub, zero, List.getElem_zipWith, List.getElem_replicate, Lattice.sub_zero]

theorem sum_eq_zero {fs : List (Poly q)} (h : ∀ f ∈ fs, f = zero) : sum fs = zero := by
  unfold sum
  induction fs with
  | nil => rfl
  | cons f fs ih =>
    obtain ⟨rfl, hfs⟩ := List.forall_mem_cons.mp h
    rw [List.foldl_cons, zero_add isWhole_zero]
    exact ih hfs

end Poly

theorem inverse_zeros (roots : Array (Fin q)) (depth i n : Nat) :
    inverse roots depth i (List.replicate (2 ^ depth * n) 0) = List.replicate (2 ^ depth * n) 0 := by
  induction depth generalizing i with
  | zero => rfl
  | succ d ih =>
    have hhalf : 2 ^ (d + 1) * n = 2 ^ d * n + 2 ^ d * n := by
      rw [Nat.pow_succ', Nat.mul_assoc, Nat.two_mul]
    have hmiddle : (2 ^ d * n + 2 ^ d * n) / 2 = 2 ^ d * n := by omega
    rw [inverse, List.length_replicate, hhalf, hmiddle, List.take_replicate, List.drop_replicate,
      Nat.min_eq_left (Nat.le_add_left _ _), Nat.add_sub_cancel, ih, ih, Poly.add, Poly.sub,
      Poly.scale, List.zipWith_replicate, List.zipWith_replicate, List.map_replicate,
      Nat.min_self, Fin.zero_add, sub_zero, Fin.mul_zero, List.replicate_append_replicate]

end Lattice

namespace MlKem

open LatticeSuite.Lattice (Poly IsVector)
open LatticeSuite.Lattice.Poly (IsWhole isWhole_zero)

theorem inverseNtt_zero : inverseNtt Poly.zero = Poly.zero := by
  have h := Lattice.inverse_zeros inverseRoots 7 1 2
  rw [inverseNtt, Poly.zero, show Lattice.degree = 2 ^ 7 * 2 from rfl, h, Poly.scale,
    List.map_replicate, Fin.mul_zero]

theorem mulFrom_zeros (ms : List Coeff) {g : Poly q} (hg : g.length = 2 * ms.length) :
    mulFrom ms (List.replicate (2 * ms.length) 0) g = List.replicate (2 * ms.length) 0 := by
  induction ms generalizing g with
  | nil => rfl
  | cons m ms ih =>
    match g, hg with
    | b₀ :: b₁ :: g, hg =>
      have hlength : 2 * (m :: ms).length = 2 * ms.length + 1 + 1 := by
        rw [List.length_cons]
        omega
      rw [hlength] at hg ⊢
      rw [List.replicate_succ, List.replicate_succ, mulFrom, ih (by simpa using hg)]
      simp only [Fin.zero_mul, Fin.zero_add]

theorem mul_zero {g : Poly q} (hg : g.IsWhole) : mul Poly.zero g = Poly.zero := by
  have hmoduli : moduli.length = 128 := by rw [moduli, List.length_map, List.length_range]
  have h := mulFrom_zeros moduli (g := g) (by rw [hmoduli, hg]; rfl)
  rwa [hmoduli] at h

/-- A product of vectors, the first one zero. -/
theorem sum_zipWith_mul_zeros (n : Nat) {v : List (Poly q)} (hv : ∀ g ∈ v, g.IsWhole) :
    Poly.sum (List.zipWith mul (List.replicate n Poly.zero) v) = Poly.zero := by
  refine Poly.sum_eq_zero ?_
  intro f hf
  obtain ⟨a, ha, b, hb, rfl⟩ := IsVector.exists_of_mem_zipWith hf
  obtain rfl := List.eq_of_mem_replicate ha
  exact mul_zero (hv b hb)

/-! ## Noise -/

theorem bitCount_le (bits n : Nat) : bitCount bits n ≤ bits := by
  induction bits generalizing n with
  | zero => exact Nat.le_refl 0
  | succ b ih =>
    have hrest := ih (n / 2)
    rw [bitCount]
    omega

theorem compress_lt (d : Nat) (x : Coeff) : compress d x < 2 ^ d :=
  Nat.mod_lt _ (Nat.two_pow_pos d)

/-- **A bit survives.** It is read back from the middle or the end of the coefficients,
with the noise of encryption on it and few of its bits kept. -/
theorem compress_noisy (l : Level) {a b y : Nat} (ha : a ≤ Level.eta₂) (hb : b ≤ Level.eta₂)
    (hy : y < 2) :
    compress 1 (decompress l.dv (compress l.dv (coeff a - coeff b + decompress 1 y))) = y := by
  have hall : ∀ l ∈ Level.all, ∀ a ≤ Level.eta₂, ∀ b ≤ Level.eta₂, ∀ y < 2,
      compress 1 (decompress (Level.dv l)
        (compress (Level.dv l) (coeff a - coeff b + decompress 1 y))) = y := by decide
  exact hall l (by cases l <;> decide) a ha b hb y hy

theorem map_compress_noisy (l : Level) (bs message : Bytes) :
    (Poly.add (centeredBinomial Level.eta₂ bs) (decodeCompressed 1 message)).map
        (fun x => compress 1 (decompress l.dv (compress l.dv x))) =
      Lattice.unpack 1 Lattice.degree message := by
  have hsum := (isWhole_centeredBinomial Level.eta₂ bs).add (isWhole_decodeCompressed 1 message)
  refine List.ext_getElem ?_ ?_
  · rw [List.length_map, hsum, Lattice.length_unpack]
  · intro i _ hi
    simp only [Poly.add, centeredBinomial, decodeCompressed, List.getElem_map,
      List.getElem_zipWith]
    have hbit := Lattice.lt_of_mem_toDigits (List.getElem_mem hi)
    exact compress_noisy l (bitCount_le _ _) (bitCount_le _ _) hbit

/-- What is left of the coefficients after both compressions. -/
theorem encodeCompressed_decodeCompressed (d : Nat) {f : Poly q} (hf : f.IsWhole) :
    encodeCompressed 1 (decodeCompressed d (encodeCompressed d f)) =
      Lattice.pack 1 (f.map fun x => compress 1 (decompress d (compress d x))) := by
  have hsmall : ∀ y ∈ f.map (compress d), y < 2 ^ d := by
    intro y hy
    obtain ⟨x, -, rfl⟩ := List.mem_map.mp hy
    exact compress_lt d x
  have hunpack := Lattice.unpack_pack hsmall
  rw [List.length_map, hf] at hunpack
  rw [encodeCompressed, decodeCompressed, encodeCompressed, hunpack, List.map_map, List.map_map]
  rfl

/-! ## A key of zeros -/

namespace Encryption

/-- The public key whose vector is zero. -/
def zeroKey (l : Level) (seed : Bytes) : PublicKey :=
  { t := List.replicate l.rank Poly.zero, seed }

theorem isVector_zeros (n : Nat) : IsVector n (List.replicate n (Poly.zero : Poly q)) := by
  refine ⟨List.length_replicate, ?_⟩
  intro f hf
  obtain rfl := List.eq_of_mem_replicate hf
  exact isWhole_zero

/-- The last piece of a ciphertext holds the message and noise, nothing else. -/
theorem encrypt_zeroKey (l : Level) (seed message randomness : Bytes) :
    ∃ u, IsVector l.rank u ∧ encrypt l (zeroKey l seed) message randomness =
      u.flatMap (encodeCompressed l.du) ++ encodeCompressed l.dv
        (Poly.add (noise Level.eta₂ randomness (2 * l.rank)) (decodeCompressed 1 message)) := by
  have hy := isVector_ntt (isVector_noiseVector l.eta₁ randomness 0 l.rank)
  have he₁ := isVector_noiseVector Level.eta₂ randomness l.rank l.rank
  have hu := ((isVector_mulVec l.rank (fun i j => uniform seed j i)
    (fun _ _ => Poly.isWhole_ofList _) hy.whole).map fun _ => isWhole_inverseNtt).zipWith he₁
      fun _ _ => IsWhole.add
  refine ⟨_, hu, ?_⟩
  rw [encrypt, zeroKey, sum_zipWith_mul_zeros l.rank hy.whole, inverseNtt_zero,
    Poly.zero_add (isWhole_noise _ _ _)]
  rfl

theorem decrypt_zeros (l : Level) (ciphertext : Bytes) :
    decrypt l (List.replicate l.rank Poly.zero) ciphertext =
      encodeCompressed 1 (decodeCompressed l.dv (ciphertext.drop (32 * l.du * l.rank))) := by
  have hu : IsVector (List.range l.rank).length ((List.range l.rank).map fun i =>
      decodeCompressed l.du ((ciphertext.drop (32 * l.du * i)).take (32 * l.du))) :=
    IsVector.of_map fun _ => isWhole_decodeCompressed _ _
  rw [decrypt, sum_zipWith_mul_zeros l.rank (isVector_ntt hu).whole, inverseNtt_zero,
    Poly.sub_zero (isWhole_decodeCompressed _ _)]

/-- **Every message is recovered** from its ciphertext under a key of zeros. -/
theorem decrypt_encrypt_zero (l : Level) (seed randomness : Bytes) {message : Bytes}
    (hmessage : message.length = 32) :
    decrypt l (List.replicate l.rank Poly.zero)
      (encrypt l (zeroKey l seed) message randomness) = message := by
  obtain ⟨u, hu, hencrypt⟩ := encrypt_zeroKey l seed message randomness
  have hnoisy := (isWhole_noise Level.eta₂ randomness (2 * l.rank)).add
    (isWhole_decodeCompressed 1 message)
  rw [decrypt_zeros, hencrypt, List.drop_left' (hu.length_flatMap (length_encodeCompressed l.du)),
    encodeCompressed_decodeCompressed _ hnoisy, noise, map_compress_noisy, Lattice.pack_unpack]
  rw [hmessage]
  rfl

end Encryption

/-! ## Secrets -/

/-- **Where decryption recovers the message, decapsulation recovers the secret.** -/
theorem decapsulate?_of_decrypt {l : Level} {key : PrivateKey} {s : List (Poly q)}
    {message : Bytes} (hs : decodeVector? l.rank key.secret = some s)
    (hmessage : Encryption.decrypt l s
      (encapsulateMessage l key.publicKey key.digest message).1 = message) :
    decapsulate? l key (encapsulateMessage l key.publicKey key.digest message).1 =
      some (encapsulateMessage l key.publicKey key.digest message).2 := by
  rw [decapsulate?, hs, Option.map_some]
  dsimp only
  rw [hmessage, if_pos rfl]

end MlKem

end LatticeSuite
