import LatticeSuite.MlDsa.Signing
import LatticeSuite.Proofs.Lattice.Whole
import LatticeSuite.Proofs.Random.Draws
import LatticeSuite.Proofs.Random.Output

/-!
# ML-DSA: keys have their lengths

> Generated keys have the lengths that their level declares
> (`lengths_of_drive_keygen`).

The public vector is written in two parts, ten bits of each coefficient in the
public key and the thirteen bits dropped there in the private one, so both
lengths depend on it being whole.
-/

namespace LatticeSuite.MlDsa

open LatticeSuite.Lattice (Poly IsVector)
open LatticeSuite.Lattice.Poly (IsWhole isWhole_ofList)

variable {f : Poly q}

/-! ## Polynomials and vectors -/

theorem isWhole_ntt (hf : f.IsWhole) : (ntt f).IsWhole :=
  Lattice.length_forward roots 8 1 (n := 1) hf

theorem isWhole_inverseNtt (hf : f.IsWhole) : (inverseNtt f).IsWhole :=
  IsWhole.scale (Lattice.length_inverse inverseRoots 8 1 (n := 1) hf) 8347681

theorem isWhole_sample (parse : Bytes → List Coeff) (stream : Keccak.Sponge) :
    (sample parse stream).IsWhole :=
  isWhole_ofList _

theorem isVector_secretVector (l : Level) (seed : Bytes) (first count : Nat) :
    IsVector count (secretVector l seed first count) := by
  have h := IsVector.of_map (l := List.range' first count)
    fun i => isWhole_sample (smallCandidates l) (Keccak.shake256 (seed ++ Bytes.toLE 2 i))
  rwa [List.length_range'] at h

theorem whole_of_mem_matrix (l : Level) (seed : Bytes) :
    ∀ row ∈ matrix l seed, ∀ f ∈ row, f.IsWhole := by
  intro row hrow f hf
  obtain ⟨r, -, rfl⟩ := List.mem_map.mp hrow
  obtain ⟨s, -, rfl⟩ := List.mem_map.mp hf
  exact isWhole_sample _ _

/-- The public vector of a secret one. -/
theorem isVector_publicVector (l : Level) (seed : Bytes) {s₁ s₂ : List (Poly q)} {n : Nat}
    (hs₁ : IsVector n s₁) (hs₂ : IsVector l.rows s₂) :
    IsVector l.rows
      (addVec ((Lattice.mulVec mul (matrix l seed) (s₁.map ntt)).map inverseNtt) s₂) := by
  have hproduct := IsVector.mulVec (fun _ _ hf hg => hf.zipWith (· * ·) hg)
    (whole_of_mem_matrix l seed) (hs₁.map fun _ => isWhole_ntt).whole
  have hrows : (matrix l seed).length = l.rows := by
    rw [matrix, List.length_map, List.length_range]
  rw [hrows] at hproduct
  exact (hproduct.map fun _ => isWhole_inverseNtt).zipWith hs₂ fun _ _ => IsWhole.add

/-! ## Written forms -/

theorem length_packBelow (b width : Nat) (f : Poly q) (hf : f.IsWhole) :
    (packBelow b width f).length = 32 * width := by
  rw [packBelow, Lattice.length_pack, List.length_map, hf, Lattice.degree]
  omega

theorem length_encodePublicKey {seed : Bytes} (hseed : seed.length = 32) {n : Nat}
    {t : List (Poly q)} (ht : IsVector n t) :
    (encodePublicKey seed (t.map (·.map keyHigh))).length = 32 + 320 * n := by
  rw [encodePublicKey, List.length_append, hseed, List.flatMap_map]
  refine congrArg (32 + ·) (ht.length_flatMap fun f hf => ?_)
  rw [Lattice.length_pack, List.length_map, hf]
  rfl

theorem length_encodePrivateKey (l : Level) {k : PrivateKey} (hseed : k.seed.length = 32)
    (hkey : k.key.length = 32) (hdigest : k.digest.length = 64) (hs₁ : IsVector l.columns k.s₁)
    (hs₂ : IsVector l.rows k.s₂) (ht₀ : IsVector l.rows k.t₀) :
    (k.encode l).length = l.privateKeyBytes := by
  have hsmall := fun n (v : List (Poly q)) (hv : IsVector n v) =>
    hv.length_flatMap (length_packBelow l.eta l.etaBits)
  simp only [PrivateKey.encode, List.length_append]
  rw [hseed, hkey, hdigest, hsmall _ _ hs₁, hsmall _ _ hs₂,
    ht₀.length_flatMap (length_packBelow _ droppedBits), Level.privateKeyBytes, Nat.mul_add,
    droppedBits]
  omega

/-! ## Keys -/

theorem length_shake (n : Nat) (bs : Bytes) : (shake n bs).length = n := by
  have hpos : 0 < (Keccak.shake256 bs).rate := show 0 < 136 by decide
  have hrate : (Keccak.shake256 bs).rate ≤ 200 := show 136 ≤ 200 by decide
  exact Keccak.Sponge.length_squeeze hpos hrate n

theorem lengths_keyPair (l : Level) (xi : Bytes) :
    (keyPair l xi).publicKey.length = l.publicKeyBytes ∧
      (keyPair l xi).privateKey.length = l.privateKeyBytes := by
  have hmaterial := length_shake 128 (xi ++ [UInt8.ofNat l.rows, UInt8.ofNat l.columns])
  have hs₁ := fun seed => isVector_secretVector l seed 0 l.columns
  have hs₂ := fun seed => isVector_secretVector l seed l.columns l.rows
  have ht := fun seed seed' => isVector_publicVector l seed (hs₁ seed') (hs₂ seed')
  have hlow := fun seed seed' =>
    (ht seed seed').map fun f hf => (List.length_map keyLow : (f.map keyLow).length = _).trans hf
  refine ⟨?_, ?_⟩
  · refine length_encodePublicKey ?_ (ht _ _)
    rw [List.length_take, hmaterial]
    rfl
  · refine length_encodePrivateKey l ?_ ?_ (length_shake _ _) (hs₁ _) (hs₂ _) (hlow _ _)
    · rw [List.length_take, hmaterial]
      rfl
    · rw [List.length_drop, hmaterial]

/-- **Generated keys have the lengths of their level.** -/
theorem lengths_of_drive_keygen {l : Level} {s left : Supply} {pair : KeyPair}
    (h : (keygen l).drive s = (.ok pair, left)) :
    pair.publicKey.length = l.publicKeyBytes ∧ pair.privateKey.length = l.privateKeyBytes := by
  have hrun := DrawProgram.run_of_drive_ok h
  simp only [keygen, DrawProgram.run] at hrun
  split at hrun
  next =>
    obtain rfl := Option.some.inj hrun
    exact lengths_keyPair l _
  next => exact absurd hrun (by simp)

end LatticeSuite.MlDsa
