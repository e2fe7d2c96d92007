import LatticeSuite.Proofs.Scheme.BuiltIn

/-!
# Backends that leave things as they are

Every operation of a backend is handed the backend's state, and those that draw are
handed the generator with it. Nothing in their types keeps a verification from being
counted in that state, or an operation from drawing before it says that it is not
offered.

> The backends of the library verify, decrypt and decapsulate without a trace, and an
> operation that they do not offer leaves no trace either (`BuiltIn.discreet`).

What they do not offer is left at its default, which leaves no trace. So it remains to
see that what they do offer never fails as if it were not offered.
-/

namespace LatticeSuite

variable {σ α : Type}

/-- An operation that changes nothing. -/
def QuietOperation.Still (f : QuietOperation σ α) : Prop :=
  ∀ s, (f s).2 = s

/-- An operation that changes nothing when it turns out not to be offered. -/
def DrawingOperation.Declines (f : DrawingOperation σ α) : Prop :=
  ∀ s supply operation state left,
    f s supply = (.error (.unsupported operation), state, left) → state = s ∧ left = supply

theorem QuietOperation.still_unsupported (operation : Operation) :
    (unsupported operation : QuietOperation σ α).Still :=
  fun _ => rfl

theorem QuietOperation.still_ofResult (r : Except SchemeError α) :
    (ofResult r : QuietOperation σ α).Still :=
  fun _ => rfl

theorem DrawingOperation.declines_unsupported (operation : Operation) :
    (unsupported operation : DrawingOperation σ α).Declines := by
  intro s supply asked state left h
  obtain ⟨-, hrest⟩ := Prod.mk.inj h
  obtain ⟨rfl, rfl⟩ := Prod.mk.inj hrest
  exact ⟨rfl, rfl⟩

/-- An operation that is offered has nothing to decline. -/
theorem DrawingOperation.declines_ofSupply {f : Supply → Except SchemeError α × Supply}
    (hoffered : ∀ supply operation, (f supply).1 ≠ .error (.unsupported operation)) :
    (ofSupply f : DrawingOperation σ α).Declines := by
  intro s supply operation state left h
  exact absurd (Prod.mk.inj h).1 (hoffered supply operation)

/-- A backend that leaves things as they are when it has nothing to change. -/
structure Backend.Discreet (b : Backend σ) : Prop where
  verify : ∀ publicKey message signature, (b.verify publicKey message signature).Still
  decrypt : ∀ privateKey ciphertext, (b.decrypt privateKey ciphertext).Still
  decapsulate : ∀ privateKey ciphertext, (b.decapsulate privateKey ciphertext).Still
  sign : ∀ privateKey message, (b.sign privateKey message).Declines
  encrypt : ∀ publicKey plaintext, (b.encrypt publicKey plaintext).Declines
  encapsulate : ∀ publicKey, (b.encapsulate publicKey).Declines

/-! ## The schemes of the library -/

/-- A computation fails over its draws or for no reason that is told. -/
theorem DrawProgram.drive_ne_unsupported (p : DrawProgram (Option α)) (supply : Supply)
    (operation : Operation) : (p.drive supply).1 ≠ .error (.unsupported operation) := by
  unfold drive
  dsimp only
  split
  next => simp
  next => simp
  next => simp

theorem Dilithium.sign_ne_unsupported (l : MlDsa.Level) (privateKey message : Bytes)
    (supply : Supply) (operation : Operation) :
    (sign l privateKey message supply).1 ≠ .error (.unsupported operation) := by
  unfold sign
  split
  next => exact DrawProgram.drive_ne_unsupported _ supply operation
  next => simp

theorem Kyber.encapsulate_ne_unsupported (l : MlKem.Level) (publicKey : Bytes) (supply : Supply)
    (operation : Operation) :
    (encapsulate l publicKey supply).1 ≠ .error (.unsupported operation) := by
  unfold encapsulate
  split
  next => simp
  next key _ =>
    intro h
    have hdrive := DrawProgram.drive_ne_unsupported
      (MlKem.encapsulate l key (MlKem.keyDigest publicKey)) supply operation
    dsimp only at h
    cases hresult : ((MlKem.encapsulate l key (MlKem.keyDigest publicKey)).drive supply).1 with
    | error cause =>
      rw [hresult] at h
      exact hdrive (hresult.trans (congrArg Except.error (Except.error.inj h)))
    | ok kem =>
      rw [hresult] at h
      exact absurd h (by simp [Except.map])

theorem Supply.nextBytes_ne_unsupported (supply : Supply) (n : Nat) (operation : Operation) :
    (supply.nextBytes n).1 ≠ .error (.unsupported operation) := by
  unfold nextBytes
  dsimp only
  split
  next => simp
  next => simp

theorem KyberHybrid.encrypt_ne_unsupported (l : MlKem.Level) (kdf : HashAlgorithm)
    (publicKey plaintext : Bytes) (supply : Supply) (operation : Operation) :
    (encrypt l kdf publicKey plaintext supply).1 ≠ .error (.unsupported operation) := by
  unfold encrypt
  split
  next cause left hkem =>
    have hnot := Kyber.encapsulate_ne_unsupported l publicKey supply operation
    rw [hkem] at hnot
    intro h
    exact hnot (congrArg Except.error (Except.error.inj h))
  next kem middle _ =>
    split
    next cause hkey =>
      unfold sealingKey at hkey
      split at hkey
      next => exact absurd hkey (by simp)
      next =>
        obtain rfl := Except.error.inj hkey
        simp
    next key _ =>
      split
      next cause left hnonce =>
        have hnot := Supply.nextBytes_ne_unsupported middle nonceBytes operation
        rw [hnonce] at hnot
        intro h
        exact hnot (congrArg Except.error (Except.error.inj h))
      next => simp

/-- **The backends of the library leave things as they are.** -/
theorem BuiltIn.discreet (stock : BuiltIn) (kdf : HashAlgorithm) :
    (stock.backend σ kdf).Discreet := by
  cases stock with
  | dilithium l =>
    refine ⟨?_, ?_, ?_, ?_, ?_, ?_⟩
    · intro publicKey message signature
      exact QuietOperation.still_ofResult _
    · intro privateKey ciphertext
      exact QuietOperation.still_unsupported .decrypt
    · intro privateKey ciphertext
      exact QuietOperation.still_unsupported .decapsulate
    · intro privateKey message
      exact DrawingOperation.declines_ofSupply (Dilithium.sign_ne_unsupported l privateKey message)
    · intro publicKey plaintext
      exact DrawingOperation.declines_unsupported .encrypt
    · intro publicKey
      exact DrawingOperation.declines_unsupported .encapsulate
  | kyber l =>
    refine ⟨?_, ?_, ?_, ?_, ?_, ?_⟩
    · intro publicKey message signature
      exact QuietOperation.still_unsupported .verify
    · intro privateKey ciphertext
      exact QuietOperation.still_unsupported .decrypt
    · intro privateKey ciphertext
      exact QuietOperation.still_ofResult _
    · intro privateKey message
      exact DrawingOperation.declines_unsupported .sign
    · intro publicKey plaintext
      exact DrawingOperation.declines_unsupported .encrypt
    · intro publicKey
      exact DrawingOperation.declines_ofSupply (Kyber.encapsulate_ne_unsupported l publicKey)
  | kyberHybrid l =>
    refine ⟨?_, ?_, ?_, ?_, ?_, ?_⟩
    · intro publicKey message signature
      exact QuietOperation.still_unsupported .verify
    · intro privateKey ciphertext
      exact QuietOperation.still_ofResult _
    · intro privateKey ciphertext
      exact QuietOperation.still_unsupported .decapsulate
    · intro privateKey message
      exact DrawingOperation.declines_unsupported .sign
    · intro publicKey plaintext
      exact DrawingOperation.declines_ofSupply
        (KyberHybrid.encrypt_ne_unsupported l kdf publicKey plaintext)
    · intro publicKey
      exact DrawingOperation.declines_unsupported .encapsulate

end LatticeSuite
