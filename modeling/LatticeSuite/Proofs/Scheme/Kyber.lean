import LatticeSuite.Proofs.MlKem.Recovery
import LatticeSuite.Scheme.Kyber

/-!
# Kyber: what an encapsulation gives, and to whom

An encapsulation is the ciphertext and the secret of one message of 32 random bytes,
under a public key that was read and checked.

> Its ciphertext has the length of the level (`length_of_encapsulate`), and a private
> key that belongs to the public one and recovers messages gets its secret
> (`decapsulate_of_encapsulate`).

That there are such keys is seen from the pair of zeros (`zeroPair`), which passes all
checks and recovers every message.
-/

namespace LatticeSuite.Kyber

open LatticeSuite.Lattice (Poly)
open MlKem (Level PrivateKey)

variable {l : Level} {publicKey privateKey : Bytes} {supply left : Supply} {kem : Encapsulation}

theorem decode?_of_publicKey? {bs : Bytes} {key : MlKem.Encryption.PublicKey}
    (h : publicKey? l bs = some key) : MlKem.Encryption.PublicKey.decode? l bs = some key := by
  unfold publicKey? at h
  split at h
  next => exact h
  next => exact absurd h (by simp)

theorem encapsulate_eq_ok (h : encapsulate l publicKey supply = (.ok kem, left)) :
    ∃ key message, publicKey? l publicKey = some key ∧ message.length = 32 ∧
      (kem.ciphertext, kem.secret) =
        MlKem.encapsulateMessage l key (MlKem.keyDigest publicKey) message := by
  unfold encapsulate at h
  split at h
  next => exact absurd (Prod.mk.inj h).1 (by simp)
  next key hkey =>
    rcases hdrive : (MlKem.encapsulate l key (MlKem.keyDigest publicKey)).drive supply
      with ⟨r, left'⟩
    rw [hdrive] at h
    cases r with
    | error e => exact absurd (Prod.mk.inj h).1 (by simp [Except.map])
    | ok pair =>
      obtain rfl := Except.ok.inj (Prod.mk.inj h).1
      obtain ⟨message, hmessage, hpair⟩ := MlKem.exists_message_of_drive_encapsulate hdrive
      exact ⟨key, message, hkey, hmessage, hpair⟩

theorem length_of_encapsulate (h : encapsulate l publicKey supply = (.ok kem, left)) :
    kem.ciphertext.length = l.ciphertextBytes := by
  obtain ⟨key, message, hkey, -, hpair⟩ := encapsulate_eq_ok h
  rw [(Prod.mk.inj hpair).1]
  exact MlKem.Encryption.length_encrypt l
    (MlKem.Encryption.isVector_of_decode? (decode?_of_publicKey? hkey)) _ _

/-- An encapsulation succeeds if its draw does. -/
theorem exists_encapsulate {key : MlKem.Encryption.PublicKey}
    (hkey : publicKey? l publicKey = some key) (hfill : (supply.fill 32).failure = none) :
    ∃ kem, encapsulate l publicKey supply = (.ok kem, (supply.fill 32).supply) := by
  have hdrive : (MlKem.encapsulate l key (MlKem.keyDigest publicKey)).drive supply =
      (.ok (MlKem.encapsulateMessage l key (MlKem.keyDigest publicKey) (supply.fill 32).written),
        (supply.fill 32).supply) := by
    simp only [DrawProgram.drive, MlKem.encapsulate, DrawProgram.run, DrawView.draw,
      DrawView.new, hfill, DrawView.finish, if_true]
  unfold encapsulate
  simp only [hkey, hdrive]
  exact ⟨_, rfl⟩

theorem decapsulate_error {ciphertext : Bytes} {e : SchemeError}
    (h : decapsulate l privateKey ciphertext = .error e) : e = .invalidKey ∨ e = .failed := by
  unfold decapsulate at h
  split at h
  next => exact .inl (Except.error.inj h).symm
  next =>
    split at h
    next => exact .inr (Except.error.inj h).symm
    next =>
      split at h
      next => exact absurd h (by simp)
      next => exact .inr (Except.error.inj h).symm

/-- **The secret is recovered** with a private key that recovers messages. -/
theorem decapsulate_of_encapsulate {key : PrivateKey} {s : List (Poly MlKem.q)}
    (hprivate : privateKey? l privateKey = some key)
    (hpublic : publicKey? l publicKey = some key.publicKey)
    (hdigest : key.digest = MlKem.keyDigest publicKey)
    (hs : MlKem.decodeVector? l.rank key.secret = some s)
    (hrecovers : ∀ message randomness : Bytes, message.length = 32 →
      MlKem.Encryption.decrypt l s
        (MlKem.Encryption.encrypt l key.publicKey message randomness) = message)
    (h : encapsulate l publicKey supply = (.ok kem, left)) :
    decapsulate l privateKey kem.ciphertext = .ok kem.secret := by
  have hlength := length_of_encapsulate h
  obtain ⟨own, message, hown, hmessage, hpair⟩ := encapsulate_eq_ok h
  rw [hpublic] at hown
  obtain rfl := Option.some.inj hown
  rw [← hdigest] at hpair
  have hciphertext : kem.ciphertext = _ := congrArg Prod.fst hpair
  have hsecret : kem.secret = _ := congrArg Prod.snd hpair
  have hdecapsulate := MlKem.decapsulate?_of_decrypt hs (hrecovers message _ hmessage)
  unfold decapsulate
  simp only [hprivate, if_neg (not_not.mpr hlength)]
  rw [hciphertext, hdecapsulate, hsecret]

/-! ## The pair of zeros -/

/-- A public key of zeros and the private key that belongs to it. -/
def zeroPair (l : Level) : KeyPair :=
  let publicKey := (MlKem.Encryption.zeroKey l (List.replicate 32 0)).encode
  { publicKey
    privateKey := MlKem.encodeVector (List.replicate l.rank Poly.zero) ++
      (publicKey ++ (MlKem.keyDigest publicKey ++ List.replicate 32 0)) }

theorem length_publicKey_zeroPair (l : Level) :
    (zeroPair l).publicKey.length = l.publicKeyBytes :=
  MlKem.Encryption.PublicKey.length_encode (MlKem.Encryption.isVector_zeros l.rank)
    List.length_replicate

theorem length_privateKey_zeroPair (l : Level) :
    (zeroPair l).privateKey.length = l.privateKeyBytes := by
  have hpublic := length_publicKey_zeroPair l
  show (MlKem.encodeVector _ ++ ((zeroPair l).publicKey ++
    (MlKem.keyDigest (zeroPair l).publicKey ++ _))).length = _
  rw [List.length_append, List.length_append, List.length_append, hpublic,
    MlKem.length_encodeVector (MlKem.Encryption.isVector_zeros l.rank), MlKem.length_keyDigest,
    List.length_replicate, Level.publicKeyBytes, Level.privateKeyBytes]
  omega

theorem publicKey?_zeroPair (l : Level) :
    publicKey? l (zeroPair l).publicKey =
      some (MlKem.Encryption.zeroKey l (List.replicate 32 0)) := by
  rw [publicKey?, if_pos (length_publicKey_zeroPair l)]
  exact MlKem.Encryption.PublicKey.decode?_encode (MlKem.Encryption.isVector_zeros l.rank)
    List.length_replicate

theorem exists_privateKey?_zeroPair (l : Level) :
    ∃ key, privateKey? l (zeroPair l).privateKey = some key := by
  have hzeros := MlKem.Encryption.isVector_zeros l.rank
  exact ⟨_, (if_pos (length_privateKey_zeroPair l)).trans
    (PrivateKey.decode?_parts hzeros hzeros List.length_replicate _)⟩

/-- The pair of zeros recovers every secret. -/
theorem decapsulate_zeroPair
    (h : encapsulate l (zeroPair l).publicKey supply = (.ok kem, left)) :
    decapsulate l (zeroPair l).privateKey kem.ciphertext = .ok kem.secret := by
  have hzeros := MlKem.Encryption.isVector_zeros l.rank
  have hread : privateKey? l (zeroPair l).privateKey =
      PrivateKey.decode? l (zeroPair l).privateKey := if_pos (length_privateKey_zeroPair l)
  have hprivate := hread.trans (PrivateKey.decode?_parts hzeros hzeros List.length_replicate _)
  have hs := MlKem.decodeVector?_encodeVector hzeros []
  rw [List.append_nil] at hs
  refine decapsulate_of_encapsulate hprivate (publicKey?_zeroPair l) rfl hs ?_ h
  intro message randomness hmessage
  exact MlKem.Encryption.decrypt_encrypt_zero l _ randomness hmessage

end LatticeSuite.Kyber
