import LatticeSuite.Proofs.Scheme.Hybrid

/-!
# Which failed decryptions are told apart

A decryption is meant to fail without a reason. With a private key that can be read it
does: what such a key makes of a ciphertext is an option (`open?`), and of an option
nothing is told but that it is empty.

But the key is read on the way, behind the check of the ciphertext's length and before
anything else is made of it. A key that cannot be read is reported as what it is:

> A decryption answers `invalidKey` exactly if the ciphertext is long enough and the
> private key has another length than its level gives it, holds no public key, or holds
> another digest than that key's (`only_unreadable_keys_are_told_apart`).

So not every failure is the unspecific one (`not_forall_decryption_failed`).
-/

namespace LatticeSuite

open MlKem (Level PrivateKey)

namespace Kyber

variable {l : Level} {bs : Bytes}

/-- The bytes of a private key that are its public key. -/
def innerPublicKey (l : Level) (bs : Bytes) : Bytes :=
  (bs.drop (384 * l.rank)).take l.publicKeyBytes

/-- Why bytes are no private key: their length, the public key in them, or its digest. -/
inductive Unreadable (l : Level) (bs : Bytes) : Prop
  | length (h : bs.length ≠ l.privateKeyBytes)
  | publicKey (h : MlKem.Encryption.PublicKey.decode? l (innerPublicKey l bs) = none)
  | digest (h : MlKem.keyDigest (innerPublicKey l bs) ≠
      (bs.drop (384 * l.rank + l.publicKeyBytes)).take 32)

theorem privateKey?_eq_none_iff : privateKey? l bs = none ↔ Unreadable l bs := by
  by_cases hlength : bs.length = l.privateKeyBytes
  · cases hpublic : MlKem.Encryption.PublicKey.decode? l (innerPublicKey l bs) with
    | none =>
      have hread : privateKey? l bs = none := by
        rw [privateKey?, if_pos hlength, PrivateKey.decode?]
        rw [innerPublicKey] at hpublic
        rw [hpublic]
      exact ⟨fun _ => .publicKey hpublic, fun _ => hread⟩
    | some publicKey =>
      have hread : privateKey? l bs = none ↔ MlKem.keyDigest (innerPublicKey l bs) ≠
          (bs.drop (384 * l.rank + l.publicKeyBytes)).take 32 := by
        rw [privateKey?, if_pos hlength, PrivateKey.decode?]
        rw [innerPublicKey] at hpublic ⊢
        rw [hpublic]
        exact ite_eq_right_iff.trans (forall_congr' fun _ => iff_of_false (by simp) id)
      rw [hread]
      constructor
      · exact .digest
      · rintro (h | h | h)
        · exact absurd hlength h
        · exact absurd (hpublic.symm.trans h) (by simp)
        · exact h
  · have hread : privateKey? l bs = none := if_neg hlength
    exact ⟨fun _ => .length hlength, fun _ => hread⟩

theorem unreadable_replicate_max (l : Level) :
    Unreadable l (List.replicate l.privateKeyBytes 0xff) := by
  rw [← privateKey?_eq_none_iff, privateKey?, if_pos List.length_replicate,
    PrivateKey.decode?_replicate_max]

end Kyber

namespace KyberHybrid

variable {l : Level} {kdf : HashAlgorithm} {privateKey ciphertext : Bytes}

/-- What a private key opens: the secret that is encapsulated in the first piece, the key
that comes of it, and what is sealed under that key in the rest. -/
def open? (l : Level) (kdf : HashAlgorithm) (key : PrivateKey) (ciphertext : Bytes) :
    Option Bytes := do
  let encapsulation := ciphertext.take l.ciphertextBytes
  let rest := ciphertext.drop l.ciphertextBytes
  let secret ← MlKem.decapsulate? l key encapsulation
  let sealing ← kdf.hkdf? salt secret (encapsulation ++ purpose) keyBytes
  Sealed.decrypt? sealing (rest.take nonceBytes) (rest.drop nonceBytes)

/-- What is told of an option. -/
def answer (plaintext : Option Bytes) : Except SchemeError Bytes :=
  plaintext.elim (.error .failed) .ok

theorem decrypt_of_short (h : ciphertext.length < (parameterSet l).outputBytes) :
    decrypt l kdf privateKey ciphertext = .error .failed :=
  if_pos h

theorem decrypt_of_unreadable (hlong : (parameterSet l).outputBytes ≤ ciphertext.length)
    (hkey : Kyber.Unreadable l privateKey) :
    decrypt l kdf privateKey ciphertext = .error .invalidKey := by
  have hnone := Kyber.privateKey?_eq_none_iff.mpr hkey
  have hnot : ¬ciphertext.length < l.ciphertextBytes + nonceBytes + tagBytes := Nat.not_lt.mpr hlong
  rw [decrypt, if_neg hnot]
  simp only [Kyber.decapsulate, hnone]

/-- **Behind a private key that was read all failures are one.** -/
theorem decrypt_of_readable (hlong : (parameterSet l).outputBytes ≤ ciphertext.length)
    {key : PrivateKey} (hkey : Kyber.privateKey? l privateKey = some key) :
    decrypt l kdf privateKey ciphertext = answer (open? l kdf key ciphertext) := by
  have hnot : ¬ciphertext.length < l.ciphertextBytes + nonceBytes + tagBytes := Nat.not_lt.mpr hlong
  have hcut : ¬(ciphertext.take l.ciphertextBytes).length ≠ l.ciphertextBytes := by
    rw [not_not, List.length_take]
    omega
  rw [decrypt, if_neg hnot, open?]
  simp only [Kyber.decapsulate, hkey, if_neg hcut]
  -- the three steps that can fail, one after the other
  cases MlKem.decapsulate? l key (ciphertext.take l.ciphertextBytes) with
  | none => rfl
  | some secret =>
    simp only [sealingKey, Option.bind_eq_bind, Option.bind_some]
    cases kdf.hkdf? salt secret (ciphertext.take l.ciphertextBytes ++ purpose) keyBytes with
    | none => rfl
    | some sealing =>
      simp only [Option.bind_some]
      split
      next heq => rw [heq]; rfl
      next heq => rw [heq]; rfl

theorem answer_ne_invalidKey (plaintext : Option Bytes) :
    answer plaintext ≠ .error .invalidKey := by
  cases plaintext <;> simp [answer]

/-- **Only a private key that cannot be read is told apart** from the other failures. With
any other the answer is a plaintext or the unspecific failure. -/
theorem only_unreadable_keys_are_told_apart (l : Level) (kdf : HashAlgorithm)
    (privateKey ciphertext : Bytes) :
    (decrypt l kdf privateKey ciphertext = .error .invalidKey ↔
      (parameterSet l).outputBytes ≤ ciphertext.length ∧ Kyber.Unreadable l privateKey) ∧
    (∀ e, decrypt l kdf privateKey ciphertext = .error e → e = .invalidKey ∨ e = .failed) ∧
    ∀ key, Kyber.privateKey? l privateKey = some key →
      decrypt l kdf privateKey ciphertext =
        if ciphertext.length < (parameterSet l).outputBytes then .error .failed
        else answer (open? l kdf key ciphertext) := by
  refine ⟨⟨fun h => ?_, fun ⟨hlong, hkey⟩ => decrypt_of_unreadable hlong hkey⟩,
    fun e => decrypt_error, fun key hkey => ?_⟩
  · have hlong : (parameterSet l).outputBytes ≤ ciphertext.length := by
      by_contra hshort
      rw [decrypt_of_short (Nat.not_le.mp hshort)] at h
      exact absurd h (by simp)
    refine ⟨hlong, Kyber.privateKey?_eq_none_iff.mp ?_⟩
    cases hkey : Kyber.privateKey? l privateKey with
    | none => rfl
    | some key =>
      rw [decrypt_of_readable hlong hkey] at h
      exact absurd h (answer_ne_invalidKey _)
  · split
    next hshort => exact decrypt_of_short hshort
    next hlong => exact decrypt_of_readable (Nat.not_lt.mp hlong) hkey

theorem outputBytes_le_length_zeros :
    (parameterSet .kyber512).outputBytes ≤ (List.replicate 796 (0 : UInt8)).length := by
  rw [List.length_replicate]
  decide

/-- The law on bytes that are no private key, and on a private key of zeros. -/
theorem only_unreadable_keys_are_told_apart_of_ones_and_zeros :
    decrypt .kyber512 .sha3_256 (List.replicate 1632 0xff) (List.replicate 796 0) =
        .error .invalidKey ∧
      ∃ key, Kyber.privateKey? .kyber512 (Kyber.zeroPair .kyber512).privateKey = some key ∧
        decrypt .kyber512 .sha3_256 (Kyber.zeroPair .kyber512).privateKey
            (List.replicate 796 0) =
          answer (open? .kyber512 .sha3_256 key (List.replicate 796 0)) := by
  have hones := only_unreadable_keys_are_told_apart .kyber512 .sha3_256
    (List.replicate 1632 0xff) (List.replicate 796 0)
  obtain ⟨key, hkey⟩ := Kyber.exists_privateKey?_zeroPair .kyber512
  have hzeros := (only_unreadable_keys_are_told_apart .kyber512 .sha3_256
    (Kyber.zeroPair .kyber512).privateKey (List.replicate 796 0)).2.2 key hkey
  rw [if_neg (Nat.not_lt.mpr outputBytes_le_length_zeros)] at hzeros
  exact ⟨hones.1.mpr ⟨outputBytes_le_length_zeros, Kyber.unreadable_replicate_max .kyber512⟩,
    key, hkey, hzeros⟩

/-- There are failures that are not reported as the unspecific one. -/
theorem not_forall_decryption_failed :
    ¬∀ (l : Level) (kdf : HashAlgorithm) (privateKey ciphertext : Bytes),
      (∃ plaintext, decrypt l kdf privateKey ciphertext = .ok plaintext) ∨
        decrypt l kdf privateKey ciphertext = .error .failed := by
  intro h
  have hones : decrypt .kyber512 .sha3_256 (List.replicate 1632 0xff) (List.replicate 796 0) =
      .error .invalidKey :=
    decrypt_of_unreadable outputBytes_le_length_zeros (Kyber.unreadable_replicate_max .kyber512)
  rcases h .kyber512 .sha3_256 (List.replicate 1632 0xff) (List.replicate 796 0) with
    ⟨plaintext, hok⟩ | hfailed
  · exact absurd (hones.symm.trans hok) (by simp)
  · exact absurd (hones.symm.trans hfailed) (by simp)

end KyberHybrid

end LatticeSuite
