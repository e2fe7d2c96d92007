import LatticeSuite.MlKem.Kem
import LatticeSuite.Proofs.Lattice.Whole
import LatticeSuite.Proofs.Random.Draws
import LatticeSuite.Proofs.Random.Output

/-!
# ML-KEM: keys and ciphertexts have their lengths

A level declares the lengths of its keys and ciphertexts as formulas in its
parameters, while the keys themselves are put together from polynomials, digests
and seeds.

> Generated keys have the lengths that their level declares
> (`lengths_of_drive_keygen`), and so has every ciphertext under a public key that
> can be read (`length_encrypt`).

All vectors come from the same few sources, which give whole polynomials whatever
they are fed with, and nothing that is done to them loses a coefficient. A public
key that was read is such a source too: what is read has twelve bits for each of
its coefficients, or it is not read.
-/

namespace LatticeSuite.MlKem

open LatticeSuite.Lattice (Poly IsVector)
open LatticeSuite.Lattice.Poly (IsWhole isWhole_ofList isWhole_sum)

variable {f g : Poly q}

/-! ## Polynomials -/

theorem isWhole_ntt (hf : f.IsWhole) : (ntt f).IsWhole :=
  Lattice.length_forward roots 7 1 (n := 2) hf

theorem isWhole_inverseNtt (hf : f.IsWhole) : (inverseNtt f).IsWhole :=
  IsWhole.scale (Lattice.length_inverse inverseRoots 7 1 (n := 2) hf) 3303

theorem length_mulFrom (ms : List Coeff) {f g : Poly q} (hf : f.length = 2 * ms.length)
    (hg : g.length = 2 * ms.length) : (mulFrom ms f g).length = 2 * ms.length := by
  induction ms generalizing f g with
  | nil => rfl
  | cons m ms ih =>
    match f, g, hf, hg with
    | a₀ :: a₁ :: f, b₀ :: b₁ :: g, hf, hg =>
      simp only [List.length_cons] at hf hg
      rw [mulFrom, List.length_cons, List.length_cons, ih (by omega) (by omega), List.length_cons]
      omega

theorem isWhole_mul (f g : Poly q) (hf : f.IsWhole) (hg : g.IsWhole) : (mul f g).IsWhole := by
  have hmoduli : moduli.length = 128 := by rw [moduli, List.length_map, List.length_range]
  have h := length_mulFrom moduli (f := f) (g := g) (by rw [hmoduli, hf]; rfl)
    (by rw [hmoduli, hg]; rfl)
  rwa [hmoduli] at h

theorem isWhole_centeredBinomial (eta : Nat) (bs : Bytes) : (centeredBinomial eta bs).IsWhole :=
  (List.length_map _).trans (Lattice.length_unpack _ _ bs)

theorem isWhole_noise (eta : Nat) (seed : Bytes) (index : Nat) : (noise eta seed index).IsWhole :=
  isWhole_centeredBinomial eta _

theorem isWhole_decodeCompressed (d : Nat) (bs : Bytes) : (decodeCompressed d bs).IsWhole :=
  (List.length_map _).trans (Lattice.length_unpack _ _ bs)

/-! ## Vectors -/

theorem isVector_noiseVector (eta : Nat) (seed : Bytes) (first count : Nat) :
    IsVector count (noiseVector eta seed first count) := by
  have h := IsVector.of_map (l := List.range' first count) (isWhole_noise eta seed)
  rwa [List.length_range'] at h

theorem isVector_ntt {n : Nat} {v : List (Poly q)} (hv : IsVector n v) :
    IsVector n (v.map ntt) :=
  hv.map fun _ => isWhole_ntt

/-- A matrix of `rank` rows takes whole vectors to whole vectors of that rank. -/
theorem isVector_mulVec (rank : Nat) (entry : Nat → Nat → Poly q)
    (hentry : ∀ i j, (entry i j).IsWhole) {v : List (Poly q)} (hv : ∀ g ∈ v, g.IsWhole) :
    IsVector rank (Lattice.mulVec mul
      ((List.range rank).map fun i => (List.range rank).map (entry i)) v) := by
  have hmatrix : ∀ row ∈ (List.range rank).map fun i => (List.range rank).map (entry i),
      ∀ f ∈ row, f.IsWhole := by
    intro row hrow f hf
    obtain ⟨i, -, rfl⟩ := List.mem_map.mp hrow
    obtain ⟨j, -, rfl⟩ := List.mem_map.mp hf
    exact hentry i j
  have h := IsVector.mulVec isWhole_mul hmatrix hv
  rwa [List.length_map, List.length_range] at h

/-- A list that is read entry by entry is read if each entry is. -/
theorem mapM_eq_some {α β : Type} {read : α → Option β} {l : List α} {r : List β} :
    l.mapM read = some r ↔ l.map read = r.map some := by
  induction l generalizing r with
  | nil => cases r <;> simp
  | cons a l ih =>
    rw [List.mapM_cons]
    constructor
    · intro h
      obtain ⟨b, hb, h⟩ := Option.bind_eq_some_iff.mp h
      obtain ⟨bs, hbs, h⟩ := Option.bind_eq_some_iff.mp h
      obtain rfl := Option.some.inj h
      rw [List.map_cons, List.map_cons, hb, ih.mp hbs]
    · intro h
      cases r with
      | nil => simp at h
      | cons b bs =>
        obtain ⟨hb, hbs⟩ := List.cons.inj h
        rw [hb, ih.mpr hbs]
        rfl

theorem isWhole_of_decode? {bs : Bytes} (h : decode? bs = some f) : f.IsWhole := by
  have hlength := congrArg List.length (mapM_eq_some.mp h)
  rw [List.length_map, List.length_map, Lattice.length_unpack] at hlength
  exact hlength.symm

theorem isVector_of_decodeVector? {rank : Nat} {bs : Bytes} {v : List (Poly q)}
    (h : decodeVector? rank bs = some v) : IsVector rank v := by
  have hread := mapM_eq_some.mp h
  refine ⟨?_, ?_⟩
  · have hlength := congrArg List.length hread
    rw [List.length_map, List.length_map, List.length_range] at hlength
    exact hlength.symm
  · intro f hf
    have hmem : some f ∈ v.map some := List.mem_map_of_mem hf
    rw [← hread] at hmem
    obtain ⟨i, -, hi⟩ := List.mem_map.mp hmem
    exact isWhole_of_decode? hi

/-! ## Written forms -/

theorem length_encode (f : Poly q) (hf : f.IsWhole) : (encode f).length = 384 := by
  rw [encode, Lattice.length_pack, List.length_map, hf]
  rfl

theorem length_encodeCompressed (d : Nat) (f : Poly q) (hf : f.IsWhole) :
    (encodeCompressed d f).length = 32 * d := by
  rw [encodeCompressed, Lattice.length_pack, List.length_map, hf, Lattice.degree]
  omega

theorem length_encodeVector {n : Nat} {v : List (Poly q)} (hv : IsVector n v) :
    (encodeVector v).length = 384 * n :=
  hv.length_flatMap length_encode

/-! ## Keys -/

theorem length_keyDigest (bs : Bytes) : (keyDigest bs).length = 32 :=
  Keccak.length_sha3 (by decide) bs

namespace Encryption

theorem length_split64_sha3 (bs : Bytes) : (split64 (Keccak.sha3 64 bs)).1.length = 32 := by
  rw [split64, List.length_take, Keccak.length_sha3 (by decide)]
  rfl

/-- Both vectors of a key pair are whole, and its seed has 32 bytes. -/
theorem isVector_keygen (l : Level) (d : Bytes) :
    IsVector l.rank (keygen l d).1.t ∧ (keygen l d).1.seed.length = 32 ∧
      IsVector l.rank (keygen l d).2 := by
  have hs := fun seed => isVector_ntt (isVector_noiseVector l.eta₁ seed 0 l.rank)
  have he := fun seed => isVector_ntt (isVector_noiseVector l.eta₁ seed l.rank l.rank)
  refine ⟨?_, length_split64_sha3 _, hs _⟩
  exact (isVector_mulVec l.rank _ (fun _ _ => isWhole_ofList _) (hs _).whole).zipWith (he _)
    fun _ _ => IsWhole.add

theorem PublicKey.length_encode {l : Level} {key : PublicKey} (ht : IsVector l.rank key.t)
    (hseed : key.seed.length = 32) : key.encode.length = l.publicKeyBytes := by
  rw [PublicKey.encode, List.length_append, length_encodeVector ht, hseed, Level.publicKeyBytes]

theorem length_encode_keygen (l : Level) (d : Bytes) :
    (keygen l d).1.encode.length = l.publicKeyBytes := by
  obtain ⟨ht, hseed, -⟩ := isVector_keygen l d
  exact PublicKey.length_encode ht hseed

theorem isVector_of_decode? {l : Level} {bs : Bytes} {key : PublicKey}
    (h : PublicKey.decode? l bs = some key) : IsVector l.rank key.t := by
  obtain ⟨t, ht, rfl⟩ := Option.map_eq_some_iff.mp h
  exact isVector_of_decodeVector? ht

/-- **A ciphertext has its length**, whatever the message and the randomness. -/
theorem length_encrypt (l : Level) {key : PublicKey} (hkey : IsVector l.rank key.t)
    (message randomness : Bytes) :
    (encrypt l key message randomness).length = l.ciphertextBytes := by
  have hy := isVector_ntt (isVector_noiseVector l.eta₁ randomness 0 l.rank)
  have he₁ := isVector_noiseVector Level.eta₂ randomness l.rank l.rank
  have hu := ((isVector_mulVec l.rank (fun i j => uniform key.seed j i)
    (fun _ _ => isWhole_ofList _) hy.whole).map fun _ => isWhole_inverseNtt).zipWith he₁
      fun _ _ => IsWhole.add
  have hv := ((isWhole_inverseNtt (isWhole_sum
    (IsVector.whole_of_mem_zipWith isWhole_mul hkey.whole hy.whole))).add
      (isWhole_noise Level.eta₂ randomness (2 * l.rank))).add (isWhole_decodeCompressed 1 message)
  rw [encrypt, List.length_append, length_encodeCompressed _ _ hv, Level.ciphertextBytes,
    Nat.mul_add, ← Nat.mul_assoc]
  exact congrArg (· + 32 * l.dv) (hu.length_flatMap (length_encodeCompressed l.du))

end Encryption

theorem length_publicKey_keyPair (l : Level) (d z : Bytes) :
    (keyPair l d z).publicKey.length = l.publicKeyBytes :=
  Encryption.length_encode_keygen l d

theorem length_privateKey_keyPair (l : Level) (d : Bytes) {z : Bytes} (hz : z.length = 32) :
    (keyPair l d z).privateKey.length = l.privateKeyBytes := by
  obtain ⟨-, -, hs⟩ := Encryption.isVector_keygen l d
  show (encodeVector (Encryption.keygen l d).2 ++ (Encryption.keygen l d).1.encode ++
    keyDigest (Encryption.keygen l d).1.encode ++ z).length = _
  rw [List.length_append, List.length_append, List.length_append, length_encodeVector hs,
    Encryption.length_encode_keygen, length_keyDigest, hz, Level.publicKeyBytes,
    Level.privateKeyBytes]
  omega

theorem exists_seeds_of_run_keygen {l : Level} {v : DrawView} {pair : KeyPair}
    (h : ((keygen l).run v).1 = some pair) :
    ∃ d z : Bytes, z.length = 32 ∧ pair = keyPair l d z := by
  simp only [keygen, DrawProgram.run] at h
  split at h
  next => exact absurd h (by simp [DrawProgram.run])
  next =>
    simp only [DrawProgram.run] at h
    split at h
    next => exact ⟨_, _, DrawView.length_draw _ 32, (Option.some.inj h).symm⟩
    next => exact absurd h (by simp)

/-- **Generated keys have the lengths of their level.** -/
theorem lengths_of_drive_keygen {l : Level} {s left : Supply} {pair : KeyPair}
    (h : (keygen l).drive s = (.ok pair, left)) :
    pair.publicKey.length = l.publicKeyBytes ∧ pair.privateKey.length = l.privateKeyBytes := by
  obtain ⟨d, z, hz, rfl⟩ := exists_seeds_of_run_keygen (DrawProgram.run_of_drive_ok h)
  exact ⟨length_publicKey_keyPair l d z, length_privateKey_keyPair l d hz⟩

theorem exists_message_of_drive_encapsulate {l : Level} {digest : Bytes}
    {key : Encryption.PublicKey} {s left : Supply} {pair : Bytes × Bytes}
    (h : (encapsulate l key digest).drive s = (.ok pair, left)) :
    ∃ message : Bytes, message.length = 32 ∧ pair = encapsulateMessage l key digest message := by
  have hrun := DrawProgram.run_of_drive_ok h
  simp only [encapsulate, DrawProgram.run] at hrun
  split at hrun
  next => exact ⟨_, DrawView.length_draw _ 32, (Option.some.inj hrun).symm⟩
  next => exact absurd hrun (by simp)

end LatticeSuite.MlKem
