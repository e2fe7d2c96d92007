import LatticeSuite.Proofs.Scheme.Kyber
import LatticeSuite.Scheme.KyberHybrid

/-!
# Hybrid encryption: frame, round trip and failures

A hybrid ciphertext is three pieces of known lengths and a fourth that is as long as
the plaintext. Encryption puts them in order, and decryption cuts them out by
counting.

> Whoever gets the encapsulated secret out of the first piece gets the plaintext
> (`KyberHybrid.decrypt_of_encrypt`), and a decryption that fails says so in one of
> two ways (`KyberHybrid.decrypt_error`).

The key derivation cannot fail: it is asked for fewer bytes than one block of the
shortest digest gives (`KyberHybrid.exists_sealingKey`).
-/

namespace LatticeSuite

open MlKem (Level)

theorem Supply.length_of_nextBytes {s t : Supply} {n : Nat} {bs : Bytes}
    (h : s.nextBytes n = (.ok bs, t)) : bs.length = n := by
  unfold nextBytes at h
  dsimp only at h
  split at h
  next hfill =>
    obtain rfl := Except.ok.inj (Prod.mk.inj h).1
    exact length_written_fill hfill
  next => exact absurd (Prod.mk.inj h).1 (by simp)

namespace KyberHybrid

variable {l : Level} {kdf : HashAlgorithm}

/-- One block of any digest is long enough for 255 of them to be. -/
theorem exists_sealingKey (kdf : HashAlgorithm) (secret encapsulation : Bytes) :
    ∃ key, sealingKey kdf secret encapsulation = .ok key := by
  unfold sealingKey
  split
  next key _ => exact ⟨key, rfl⟩
  next hnone =>
    have hshort := (HashAlgorithm.hkdf?_eq_none_iff _ _ _ _ _).mp hnone
    have hpos := kdf.outputSize_pos
    rw [keyBytes] at hshort
    omega

/-- The pieces of a ciphertext, in order. -/
theorem encrypt_eq_ok {publicKey plaintext ciphertext : Bytes} {supply left : Supply}
    (h : encrypt l kdf publicKey plaintext supply = (.ok ciphertext, left)) :
    ∃ kem middle key nonce, Kyber.encapsulate l publicKey supply = (.ok kem, middle) ∧
      sealingKey kdf kem.secret kem.ciphertext = .ok key ∧ nonce.length = nonceBytes ∧
      ciphertext = kem.ciphertext ++ nonce ++ Sealed.encrypt key nonce plaintext := by
  unfold encrypt at h
  split at h
  next => exact absurd (Prod.mk.inj h).1 (by simp)
  next kem middle hkem =>
    split at h
    next => exact absurd (Prod.mk.inj h).1 (by simp)
    next key hkey =>
      split at h
      next => exact absurd (Prod.mk.inj h).1 (by simp)
      next nonce left' hnonce =>
        obtain rfl := Except.ok.inj (Prod.mk.inj h).1
        exact ⟨kem, middle, key, nonce, hkem, hkey, Supply.length_of_nextBytes hnonce, rfl⟩

/-- An encryption succeeds if the encapsulation does and the draw of the nonce. -/
theorem exists_encrypt {publicKey : Bytes} {supply middle : Supply} {kem : Encapsulation}
    (hkem : Kyber.encapsulate l publicKey supply = (.ok kem, middle))
    (hfill : (middle.fill nonceBytes).failure = none) (plaintext : Bytes) :
    ∃ ciphertext left, encrypt l kdf publicKey plaintext supply = (.ok ciphertext, left) := by
  obtain ⟨key, hkey⟩ := exists_sealingKey kdf kem.secret kem.ciphertext
  have hnonce : middle.nextBytes nonceBytes =
      (.ok (middle.fill nonceBytes).written, (middle.fill nonceBytes).supply) := by
    simp only [Supply.nextBytes, hfill]
  unfold encrypt
  simp only [hkem, hkey, hnonce]
  exact ⟨_, _, rfl⟩

theorem length_of_encrypt {publicKey plaintext ciphertext : Bytes} {supply left : Supply}
    (h : encrypt l kdf publicKey plaintext supply = (.ok ciphertext, left)) :
    ciphertext.length = (parameterSet l).outputBytes + plaintext.length := by
  obtain ⟨kem, middle, key, nonce, hkem, -, hnonce, rfl⟩ := encrypt_eq_ok h
  rw [List.length_append, List.length_append, Kyber.length_of_encapsulate hkem, hnonce,
    Sealed.length_encrypt]
  show _ = l.ciphertextBytes + nonceBytes + tagBytes + plaintext.length
  rw [tagBytes]
  omega

/-- The first piece is the encapsulation. -/
theorem take_of_encrypt {publicKey plaintext ciphertext : Bytes} {supply left middle : Supply}
    {kem : Encapsulation} (h : encrypt l kdf publicKey plaintext supply = (.ok ciphertext, left))
    (hkem : Kyber.encapsulate l publicKey supply = (.ok kem, middle)) :
    ciphertext.take l.ciphertextBytes = kem.ciphertext := by
  obtain ⟨kem', middle', key, nonce, hkem', -, -, rfl⟩ := encrypt_eq_ok h
  rw [hkem] at hkem'
  obtain rfl := Except.ok.inj (Prod.mk.inj hkem').1
  rw [List.append_assoc, List.take_left' (Kyber.length_of_encapsulate hkem)]

/-- **What was encrypted is decrypted** by whoever decapsulates the first piece. -/
theorem decrypt_of_encrypt {publicKey privateKey plaintext ciphertext : Bytes}
    {supply left middle : Supply} {kem : Encapsulation}
    (h : encrypt l kdf publicKey plaintext supply = (.ok ciphertext, left))
    (hkem : Kyber.encapsulate l publicKey supply = (.ok kem, middle))
    (hsecret : Kyber.decapsulate l privateKey (ciphertext.take l.ciphertextBytes) =
      .ok kem.secret) :
    decrypt l kdf privateKey ciphertext = .ok plaintext := by
  have hlength := length_of_encrypt h
  obtain ⟨kem', middle', key, nonce, hkem', hkey, hnonce, rfl⟩ := encrypt_eq_ok h
  rw [hkem] at hkem'
  obtain rfl := Except.ok.inj (Prod.mk.inj hkem').1
  have hfirst := Kyber.length_of_encapsulate hkem
  have hlong : ¬(kem.ciphertext ++ nonce ++ Sealed.encrypt key nonce plaintext).length <
      l.ciphertextBytes + nonceBytes + tagBytes := by
    rw [hlength]
    exact Nat.not_lt.mpr (Nat.le_add_right _ _)
  -- the three pieces as the reader cuts them
  rw [List.append_assoc, List.take_left' hfirst] at hsecret
  unfold decrypt
  rw [if_neg hlong, List.append_assoc]
  dsimp only
  rw [List.take_left' hfirst, List.drop_left' hfirst, hsecret]
  dsimp only
  rw [hkey]
  dsimp only
  rw [List.take_left' hnonce, List.drop_left' hnonce, Sealed.decrypt?_encrypt]

/-- A decryption fails over its key or without a reason. -/
theorem decrypt_error {privateKey ciphertext : Bytes} {e : SchemeError}
    (h : decrypt l kdf privateKey ciphertext = .error e) : e = .invalidKey ∨ e = .failed := by
  unfold decrypt at h
  split at h
  next => exact .inr (Except.error.inj h).symm
  next =>
    dsimp only at h
    split at h
    next cause hcause =>
      obtain rfl := Except.error.inj h
      exact Kyber.decapsulate_error hcause
    next secret _ =>
      split at h
      next cause hcause =>
        obtain ⟨key, hkey⟩ := exists_sealingKey kdf secret (ciphertext.take l.ciphertextBytes)
        rw [hkey] at hcause
        exact absurd hcause (by simp)
      next =>
        split at h
        next => exact absurd h (by simp)
        next => exact .inr (Except.error.inj h).symm

end KyberHybrid

end LatticeSuite
