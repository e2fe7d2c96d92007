import LatticeSuite.Proofs.Lattice.Packing
import LatticeSuite.Proofs.MlKem.Length

/-!
# ML-KEM: what is written of a key is read back

Reading a key checks it: coefficients from `q` on are refused, and a private key must
hold the digest of the public key inside it.

> The keys of a whole vector and a seed of 32 bytes are read back part by part
> (`Encryption.PublicKey.decode?_encode`, `PrivateKey.decode?_parts`).

So generated keys pass the checks. Bytes without a zero bit never do
(`PrivateKey.decode?_replicate_max`), since twelve ones spell a number above `q`.
-/

namespace LatticeSuite.MlKem

open LatticeSuite.Lattice (Poly IsVector)

/-! ## Polynomials -/

theorem decode?_encode {f : Poly q} (hf : f.IsWhole) : decode? (encode f) = some f := by
  have hsmall : ∀ d ∈ f.map Fin.val, d < 2 ^ 12 := by
    intro d hd
    obtain ⟨x, -, rfl⟩ := List.mem_map.mp hd
    exact x.isLt.trans (by decide)
  have hunpack := Lattice.unpack_pack hsmall
  rw [List.length_map, hf] at hunpack
  rw [decode?, encode, hunpack, mapM_eq_some, List.map_map]
  refine List.map_congr_left fun x _ => ?_
  exact dif_pos x.isLt

/-- Vectors are read polynomial by polynomial, whatever comes behind them. -/
theorem decodeVector?_encodeVector {rank : Nat} {v : List (Poly q)} (hv : IsVector rank v)
    (rest : Bytes) : decodeVector? rank (encodeVector v ++ rest) = some v := by
  rw [decodeVector?, mapM_eq_some]
  induction v generalizing rank with
  | nil =>
    obtain rfl := hv.length.symm
    rfl
  | cons f v ih =>
    obtain ⟨hf, hfs⟩ := List.forall_mem_cons.mp hv.whole
    obtain rfl : v.length + 1 = rank := hv.length
    have hfirst := length_encode f hf
    have hnext : ∀ i, (encode f ++ (encodeVector v ++ rest)).drop (384 * (i + 1)) =
        (encodeVector v ++ rest).drop (384 * i) := by
      intro i
      rw [Nat.mul_succ, Nat.add_comm, ← List.drop_drop, List.drop_left' hfirst]
    rw [encodeVector, List.flatMap_cons, ← encodeVector, List.append_assoc, List.range_succ_eq_map,
      List.map_cons, List.map_cons, List.map_map, Nat.mul_zero, List.drop_zero,
      List.take_left' hfirst, decode?_encode hf]
    refine congrArg (some f :: ·) ?_
    rw [← ih ⟨rfl, hfs⟩]
    refine List.map_congr_left fun i _ => ?_
    exact congrArg (fun bs => decode? (bs.take 384)) (hnext i)

/-! ## Keys -/

theorem Encryption.PublicKey.decode?_encode {l : Level} {key : PublicKey}
    (ht : IsVector l.rank key.t) (hseed : key.seed.length = 32) :
    PublicKey.decode? l key.encode = some key := by
  have hlength := length_encodeVector ht
  rw [PublicKey.decode?, PublicKey.encode, decodeVector?_encodeVector ht, Option.map_some,
    List.drop_left' hlength, List.take_of_length_le (Nat.le_of_eq hseed)]

/-- A private key is read back part by part. -/
theorem PrivateKey.decode?_parts {l : Level} {s : List (Poly q)} {key : Encryption.PublicKey}
    (hs : IsVector l.rank s) (ht : IsVector l.rank key.t) (hseed : key.seed.length = 32)
    (rejection : Bytes) :
    PrivateKey.decode? l
        (encodeVector s ++ (key.encode ++ (keyDigest key.encode ++ rejection))) =
      some { secret := encodeVector s, publicKey := key, digest := keyDigest key.encode,
             rejection } := by
  have hsecret := length_encodeVector hs
  have hpublic := Encryption.PublicKey.length_encode ht hseed
  have hdigest := length_keyDigest key.encode
  unfold PrivateKey.decode?
  simp only [← List.drop_drop, List.drop_left' hsecret, List.drop_left' hpublic,
    List.take_left' hsecret, List.take_left' hpublic, List.take_left' hdigest,
    List.drop_left' hdigest, Encryption.PublicKey.decode?_encode ht hseed, if_true]

/-! ## Keys that are none -/

theorem ofLE_replicate_max_mod (n : Nat) :
    Bytes.ofLE (List.replicate (n + 2) 0xff) % 2 ^ 12 = 4095 := by
  have hlast : (0xff : UInt8).toNat = 255 := rfl
  rw [List.replicate_succ, List.replicate_succ, Bytes.ofLE_cons, Bytes.ofLE_cons, hlast]
  omega

/-- Bytes without a zero bit are no polynomial. -/
theorem decode?_replicate_max (n : Nat) : decode? (List.replicate (n + 2) 0xff) = none := by
  cases hread : decode? (List.replicate (n + 2) 0xff) with
  | none => rfl
  | some f =>
    have hcoefficients := mapM_eq_some.mp hread
    have hfirst : Lattice.unpack 12 Lattice.degree (List.replicate (n + 2) 0xff) =
        4095 :: Lattice.toDigits 12 255 (Bytes.ofLE (List.replicate (n + 2) 0xff) / 2 ^ 12) := by
      rw [← ofLE_replicate_max_mod n]
      rfl
    have hlarge : ¬4095 < q := by decide
    rw [hfirst, List.map_cons, dif_neg hlarge] at hcoefficients
    cases f with
    | nil => exact absurd hcoefficients (by simp)
    | cons x f => exact absurd (List.cons.inj hcoefficients).1 (by simp)

theorem decodeVector?_replicate_max (rank : Nat) {n : Nat} (hn : 384 ≤ n) :
    decodeVector? (rank + 1) (List.replicate n 0xff) = none := by
  have hfirst : ((List.replicate n (0xff : UInt8)).drop (384 * 0)).take 384 =
      List.replicate (382 + 2) 0xff := by
    rw [Nat.mul_zero, List.drop_zero, List.take_replicate, Nat.min_eq_left hn]
  rw [decodeVector?, List.range_succ_eq_map, List.mapM_cons, hfirst, decode?_replicate_max]
  rfl

theorem PrivateKey.decode?_replicate_max (l : Level) :
    PrivateKey.decode? l (List.replicate l.privateKeyBytes 0xff) = none := by
  have hpublic : ((List.replicate l.privateKeyBytes (0xff : UInt8)).drop (384 * l.rank)).take
      l.publicKeyBytes = List.replicate l.publicKeyBytes 0xff := by
    rw [List.drop_replicate, List.take_replicate]
    congr 1
    cases l <;> decide
  have hvector : decodeVector? l.rank (List.replicate l.publicKeyBytes 0xff) = none := by
    cases l <;> exact decodeVector?_replicate_max _ (by decide)
  simp only [PrivateKey.decode?, hpublic, Encryption.PublicKey.decode?, hvector, Option.map_none]

end LatticeSuite.MlKem
